import RedisIR.Proofs.Aof
import RedisIR.Spec.Transactions

/-! What is fed to the log is a list of commands, and a reader of the log finds these
commands again. -/

namespace RedisIR

open CLib

variable {db : ℕ}

/-! ### Commands and their bytes -/

def ArgvFits (argv : List Bytes) : Prop :=
  0 < argv.length ∧ argv.length < 2 ^ 31 ∧ ∀ a ∈ argv, a.length < 2 ^ 63

instance (argv : List Bytes) : Decidable (ArgvFits argv) := inferInstanceAs (Decidable (_ ∧ _))

def entryOf (argv : List Bytes) (h : ArgvFits argv) : Entry := ⟨argv, h.1, h.2.1, h.2.2⟩

theorem readCommand_bytes (e : Entry) (rest : Bytes) : readCommand (e.bytes ++ rest) = .ok (e.argv, rest) := by
  rw [readCommand, e.readHeader_bytes]
  exact readArgv_flatMap e.argv e.fits rest

def commandBytes (cmds : List (List Bytes)) : Bytes := cmds.flatMap (catAppendOnlyGenericCommand [])

theorem foldl_catAppendOnly (cmds : List (List Bytes)) (dst : Bytes) :
    cmds.foldl catAppendOnlyGenericCommand dst = dst ++ commandBytes cmds := by
  induction cmds generalizing dst with
  | nil => simp [commandBytes]
  | cons argv cmds ih =>
    rw [List.foldl_cons, ih]
    simp [commandBytes, catAppendOnlyGenericCommand]

theorem commandBytes_append (cmds ds : List (List Bytes)) :
    commandBytes (cmds ++ ds) = commandBytes cmds ++ commandBytes ds := by
  simp [commandBytes]

/-! ### The options of `SET` -/

theorem isWord_ne {a w w' : Bytes} (h : isWord a w = true) (hne : w ≠ w') : isWord a w' = false := by
  simp only [isWord, decide_eq_true_eq, decide_eq_false_iff_not] at h ⊢
  rw [h]
  exact hne

theorem expireArgs_none (options : List Bytes) (h : ∀ a ∈ options, isWord a EX = false ∧ isWord a PX = false)
    (exarg pxarg : Option Bytes) : expireArgs options exarg pxarg = .returned (exarg, pxarg) := by
  fun_induction expireArgs options exarg pxarg with
  | case1 => rfl
  | case2 a exarg pxarg hword => simp [h a (by simp)] at hword
  | case3 => rfl
  | case4 a next args exarg pxarg ih =>
    have ha := h a (by simp)
    have hrest := ih (List.forall_mem_cons.mp h).2
    simpa [ha.1, ha.2] using hrest

/-! ### `SELECT` -/

/-- The `SELECT` before a command on the database `db`, if the log is on another one. -/
def selectCommands (db : ℕ) (selected : ℤ) : List (List Bytes) :=
  if (db : ℤ) ≠ selected then [[SELECT_COMMAND, natDecimal db]] else []

theorem select_fits (hdb : db < 2 ^ 31) : ArgvFits [SELECT_COMMAND, natDecimal db] := by
  have hlen := natDecimal_short (n := db) (by omega)
  refine ⟨by simp, by simp, ?_⟩
  simp only [List.mem_cons, List.not_mem_nil, or_false, forall_eq_or_imp, forall_eq]
  exact ⟨by decide, by omega⟩

theorem selectText_eq (hdb : db < 2 ^ 31) : selectText db = commandBytes [[SELECT_COMMAND, natDecimal db]] := by
  have hlen := natDecimal_short (n := db) (by omega)
  have hbytes : commandBytes [[SELECT_COMMAND, natDecimal db]] =
      countLine 2 ++ (catBulk SELECT_COMMAND ++ catBulk (natDecimal db)) := by
    have h := (entryOf _ (select_fits hdb)).bytes_eq
    simpa [commandBytes, Entry.bytes, entryOf] using h
  have hselect : catBulk SELECT_COMMAND = ascii ['$', '6', '\r', '\n'] ++ SELECT_COMMAND ++ [CR, LF] := by
    decide +kernel
  have hcount : countLine 2 = ascii ['*', '2', '\r', '\n'] := by decide +kernel
  rw [hbytes, hselect, hcount, catBulk_eq (by omega)]
  simp [selectText, lenLine, ascii]

/-! ### `propagate` -/

/-- With the log turned on, what is written for a command is its translation, after a `SELECT`
if the database has changed. -/
theorem propagate_on (now : ℤ) {proc : AofProc} (hproc : proc ≠ .setIR) (hdb : db < 2 ^ 31) (argv : List Bytes)
    {aof : AofBuffer} (hon : aof.state = .on) :
    propagate now proc db argv aof = (translate now proc argv).bind fun cmds => .returned
      { aof with
        buf := aof.buf ++ commandBytes (selectCommands db aof.selectedDb ++ cmds)
        selectedDb := db } := by
  have hselect : (if (db : ℤ) ≠ aof.selectedDb then selectText db else []) =
      commandBytes (selectCommands db aof.selectedDb) := by
    unfold selectCommands
    split_ifs
    · exact selectText_eq hdb
    · rfl
  have hstate : aof.state ≠ .off := by rw [hon]; decide
  rw [propagate, if_neg hproc, if_pos hstate, feedAppendOnlyFile]
  congr 1
  funext cmds
  simp [if_pos hon, foldl_catAppendOnly, hselect, commandBytes_append]

/-- Only `SET`, `SETEX` and the commands that set a time are translated. -/
theorem propagate_other (now : ℤ) (db : ℕ) (argv : List Bytes) {aof : AofBuffer} (hon : aof.state = .on) :
    propagate now .other db argv aof = .returned
      { aof with
        buf := aof.buf ++ catAppendOnlyGenericCommand (if (db : ℤ) ≠ aof.selectedDb then selectText db else []) argv
        selectedDb := db } := by
  simp [propagate, feedAppendOnlyFile, translate, hon]

end RedisIR
