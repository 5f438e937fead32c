import RedisIR.Spec.Transactions

/-! `loadAppendOnlyFile` with the two offsets it keeps for the case that the log is cut short:
`valid_up_to`, the end of the last command read, and `valid_before_multi`, the beginning of the
last `MULTI`. -/

namespace RedisIR

open CLib

variable {D : Type}

/-- A load that has ended, with the size that the file was cut to. -/
structure LoadEnd (D : Type) where
  loading : Loading D
  truncatedTo : Option ℕ

def LoadEnd.file (l : LoadEnd D) (file : Bytes) : Bytes :=
  match l.truncatedTo with
  | none => file
  | some size => file.take size

/-- The label `uxeof`, when `truncate` succeeds. -/
def truncateTo (aofLoadTruncated : Bool) (validUpTo : ℕ) (s : Loading D) : Outcome (LoadEnd D) :=
  if aofLoadTruncated then .returned ⟨s, some validUpTo⟩ else .exited

namespace CommandTable

/-- The main loop on a file of `size` bytes; `ftello` is what has been read of it. A transaction
that the file ends in is taken back as a whole. -/
def loadOffsets (table : CommandTable D) (dbnum : ℕ) (now : ℤ) (aofLoadTruncated : Bool) (size : ℕ) :
    ℕ → Bytes → ℕ → ℕ → Loading D → Outcome (LoadEnd D)
  | 0, _, _, _, s => .returned ⟨s, none⟩
  | fuel + 1, inp, validUpTo, validBeforeMulti, s =>
    if inp = [] then
      if s.client.multi then truncateTo aofLoadTruncated validBeforeMulti s else .returned ⟨s, none⟩
    else
      match readCommand inp with
      | .error (.readerr true) => truncateTo aofLoadTruncated validUpTo s
      | .error _ => .exited
      | .ok (argv, inp) =>
        match table argv with
        | none => .exited
        | some c =>
          (s.run dbnum now c).bind fun s =>
            loadOffsets table dbnum now aofLoadTruncated size fuel inp
              (if aofLoadTruncated then size - inp.length else validUpTo)
              (if c.proc.isMulti then validUpTo else validBeforeMulti) s

def loadAndTruncate (table : CommandTable D) (dbnum : ℕ) (now : ℤ) (aofLoadTruncated : Bool) (file : Bytes)
    (data : D) (aof : AofBuffer) : Outcome (LoadEnd D) :=
  table.loadOffsets dbnum now aofLoadTruncated file.length (file.length + 1) file 0 0 ⟨createFakeClient, data, aof⟩

end CommandTable

/-! ### What a log stands for -/

/-- What a command does to the database selected and to the data. -/
def Proc.apply (dbnum : ℕ) : Proc D → ℕ × D → ℕ × D
  | .multi, x | .exec, x => x
  | .select id, x => (selectDb dbnum id x.1, x.2)
  | .data run, x => (x.1, run x.1 x.2)

variable {table : CommandTable D}

def Block.bytes (b : Block table) : Bytes := entryBytes (b.records.map Record.entry)

def Block.commands : Block table → List (Command D)
  | .command r _ => [r.command]
  | .transaction _ body _ _ _ _ => body.map Record.command

def execute (dbnum : ℕ) (blocks : List (Block table)) (data : D) : D :=
  ((blocks.flatMap Block.commands).foldl (fun x c => c.proc.apply dbnum x) (0, data)).2

/-- The server refuses a `MULTI` inside a transaction, so none is logged. -/
def Block.Flat : Block table → Prop
  | .command _ _ => True
  | .transaction _ body _ _ _ _ => ∀ r ∈ body, r.command.proc.isMulti = false

/-- The commands and transactions of the log that its first `n` bytes contain whole. -/
def completeBlocks : ℕ → List (Block table) → List (Block table)
  | _, [] => []
  | n, b :: blocks => if b.bytes.length ≤ n then b :: completeBlocks (n - b.bytes.length) blocks else []

/-- A cut after `n` bytes of the block leaves some command of it whole and tears another; the
block is a transaction then. -/
def Block.TornAt (b : Block table) (n : ℕ) : Prop :=
  completeIn n (b.records.map Record.entry) ≠ [] ∧
    (entryBytes (completeIn n (b.records.map Record.entry))).length ≠ n

instance (b : Block table) (n : ℕ) : Decidable (b.TornAt n) := inferInstanceAs (Decidable (_ ∧ _))

/-- A cut after `n` bytes of the log tears a command of a transaction, behind the `MULTI`. -/
def TearsTransaction : ℕ → List (Block table) → Prop
  | _, [] => False
  | n, b :: blocks => if b.bytes.length ≤ n then TearsTransaction (n - b.bytes.length) blocks else b.TornAt n

instance decidableTears : ∀ (n : ℕ) (blocks : List (Block table)), Decidable (TearsTransaction n blocks)
  | _, [] => isFalse id
  | n, b :: blocks =>
    have := decidableTears (n - b.bytes.length) blocks
    inferInstanceAs (Decidable (if b.bytes.length ≤ n then TearsTransaction (n - b.bytes.length) blocks
      else b.TornAt n))

end RedisIR
