import RedisIR.Proofs.Util
import RedisIR.Spec.Aof

/-! What `catAppendOnlyGenericCommand` writes is read back by the parsers, whatever
follows it in the file, and replaying a whole log folds the meaning of its commands. -/

namespace RedisIR

open CLib List Function

variable {n : ℕ} {arg : Bytes} {L : List LogCmd}

/-- `$<n>\r\n` -/
def lenLine (n : ℕ) : Bytes := 36 :: natDecimal n ++ [CR, LF]

/-- `*<n>\r\n` -/
def countLine (n : ℕ) : Bytes := 42 :: natDecimal n ++ [CR, LF]

theorem ll2string_natCast (h : n < 2 ^ 63) : ll2string 31 n = natDecimal n := by
  have hlen := decimal_length_le (i := n) (by omega) (by omega)
  rw [ll2string_eq (by omega)]
  simp [decimal]

theorem catBulk_eq (h : arg.length < 2 ^ 63) : catBulk arg = lenLine arg.length ++ arg ++ [CR, LF] := by
  rw [catBulk, ll2string_natCast h]
  rfl

theorem natDecimal_short (h : n < 2 ^ 63) : (natDecimal n).length ≤ 20 :=
  natDecimal_length_le (by omega) (by norm_num)

theorem lf_not_mem_number {c : UInt8} (hc : c ≠ LF) (n : ℕ) : LF ∉ c :: natDecimal n ++ [CR] := by
  simp [hc.symm, not_mem_natDecimal (c := LF) rfl]
  decide

theorem fgets_numberLine (c : UInt8) (hc : c ≠ LF) (h : n < 2 ^ 63) (rest : Bytes) :
    fgets bufSize (c :: natDecimal n ++ [CR, LF] ++ rest) = some (c :: natDecimal n ++ [CR, LF], rest) := by
  have hlen : (c :: natDecimal n ++ [CR]).length + 1 < bufSize := by
    have := natDecimal_short h
    simp [bufSize]
    omega
  simpa using fgets_line (lf_not_mem_number hc n) hlen rest

theorem stops_crlf : Stops [CR, LF] := by
  intro c hc
  obtain rfl : CR = c := by simpa using hc
  rfl

theorem readHeader_countLine (h0 : 0 < n) (h : n < 2 ^ 31) (rest : Bytes) :
    readHeader (countLine n ++ rest) = .ok (countLine n, n, rest) := by
  have hatoi : atoi (natDecimal n ++ [CR, LF]) = n := by
    rw [atoi, strtol_natDecimal (by omega) stops_crlf, wrapInt_eq (by omega) (by omega)]
  obtain ⟨d, ds, hd⟩ := exists_cons_of_ne_nil (natDecimal_ne_nil n)
  have hd0 : d ≠ 0 := by
    rintro rfl
    have := natDecimal_digits n 0 (by simp [hd])
    exact absurd this (by decide)
  have hbuf : (countLine n).getD 1 0 ≠ 0 := by simpa [countLine, hd] using hd0
  have hatoi' : atoi (countLine n).tail = n := by simpa [countLine] using hatoi
  have hfgets : fgets bufSize (countLine n ++ rest) = some (countLine n, rest) :=
    fgets_numberLine 42 (by decide) (by omega) rest
  have hhead : (countLine n).head? = some 42 := rfl
  simp only [readHeader, hfgets, hhead, ne_eq, not_true_eq_false, if_false, hbuf, hatoi', Int.toNat_natCast]
  rw [if_neg (by omega)]

theorem readArg_catBulk (h : arg.length < 2 ^ 63) (rest : Bytes) :
    readArg (catBulk arg ++ rest) = .ok (lenLine arg.length, arg, [CR, LF] ++ rest) := by
  have hlen : (strtol (natDecimal arg.length ++ [CR, LF]) % 2 ^ 64).toNat = arg.length := by
    rw [strtol_natDecimal h stops_crlf]
    omega
  unfold readArg
  rw [catBulk_eq h, append_assoc, append_assoc, lenLine, fgets_numberLine 36 (by decide) h]
  simp only [cons_append, List.head?_cons, ne_eq, not_true_eq_false, if_false, tail_cons, hlen, fread_append]

variable (k : Bytes) (t : Bool) (e : Entry) (E : List Entry) (rest : Bytes) (c : LogCmd)

theorem fread_crlf : fread 2 ([CR, LF] ++ rest) = some ([CR, LF], rest) := fread_append [CR, LF] rest

theorem readBulk_catBulk (h : arg.length < 2 ^ 63) (rest : Bytes) :
    readBulk (catBulk arg ++ rest) = .ok (lenLine arg.length, arg, rest) := by
  simp only [readBulk, readArg_catBulk h, fread_crlf]

theorem readArgv_flatMap (argv : List Bytes) (h : ∀ a ∈ argv, a.length < 2 ^ 63) (rest : Bytes) :
    readArgv argv.length (argv.flatMap catBulk ++ rest) = .ok (argv, rest) := by
  induction argv with
  | nil => rfl
  | cons a argv ih =>
    rw [flatMap_cons, append_assoc, length_cons, readArgv, readBulk_catBulk (h a (by simp))]
    simp [ih (forall_mem_cons.mp h).2]

/-! ### One command -/

theorem Entry.bytes_eq : e.bytes = countLine e.argv.length ++ e.argv.flatMap catBulk := by
  have := e.argc_int
  rw [Entry.bytes, catAppendOnlyGenericCommand, ll2string_natCast (by omega)]
  rfl

theorem Entry.bytes_ne_nil : e.bytes ≠ [] := by simp [e.bytes_eq, countLine]

theorem Entry.readHeader_bytes : readHeader (e.bytes ++ rest) =
      .ok (countLine e.argv.length, e.argv.length, e.argv.flatMap catBulk ++ rest) := by
  rw [e.bytes_eq, append_assoc, readHeader_countLine e.argc_pos e.argc_int]


theorem LogCmd.word_length : c.word.length ≤ 13 := by
  have h : c.word.length = c.op.name.length := by rw [← c.spelled, sdstoupper, length_map]
  rw [h]
  cases c.op <;> simp [Op.name, SET_COMMAND, INCR_COMMAND, DEL_COMMAND, SETCHECKPOINT_COMMAND,
    CHECKPOINTEND_COMMAND, SELECT_COMMAND, ascii]

theorem LogCmd.argv_fits : ∀ a ∈ c.argv, a.length < 2 ^ 63 := by
  intro a ha
  rcases mem_cons.mp ha with rfl | ha
  · have := c.word_length
    omega
  · exact c.fits a ha

theorem LogCmd.argv_length : 2 ≤ c.argv.length ∧ c.argv.length ≤ 3 := by
  unfold LogCmd.argv
  cases c.op <;> simp [Op.args]

def LogCmd.entry (c : LogCmd) : Entry where
  argv := c.argv
  argc_pos := by have := c.argv_length; omega
  argc_int := by have := c.argv_length; omega
  fits := c.argv_fits

@[simp] theorem LogCmd.entry_argv : c.entry.argv = c.argv := rfl

theorem LogCmd.lookupCommand_argv : lookupCommand c.argv = some c.op.cmd := by
  have h := c.spelled
  simp only [LogCmd.argv, lookupCommand, h]
  cases c.op <;> rfl

/-! ### Replaying a log -/

theorem incrCommand_db (db : Db) : (incrCommand k db).db = update db k (incrValue (db k)) := by
  unfold incrCommand incrDecrCommand incrValue
  cases h : getLongLongFromObject (db k) with
  | none => simp
  | some n =>
    have hiff : ((1 : ℤ) < 0 ∧ n < 0 ∧ 1 < LLONG_MIN - n ∨ (1 : ℤ) > 0 ∧ n > 0 ∧ 1 > LLONG_MAX - n) ↔
        LLONG_MAX ≤ n := by
      unfold LLONG_MAX
      omega
    simp only [hiff]
    split_ifs
    · simp
    · rfl

theorem delCommand_db (db : Db) : (delCommand [k] db).db = update db k none := by
  unfold delCommand delLoop
  cases h : db k with
  | none =>
    have hdb : update db k none = db := by rw [← h, update_eq_self]
    simp [delLoop, hdb]
  | some v => simp [delLoop]

theorem setGenericCommandNoUpdate_db (nx xx : Bool) (k : Bytes) (c : Cmd) (db : Db) :
    (setGenericCommandNoUpdate nx xx k c db).db = db := by
  unfold setGenericCommandNoUpdate
  split_ifs <;> rfl

theorem setCheckpointCommand_db (k v : Bytes) (db : Db) : (setCheckpointCommand k v db).db = db := by
  unfold setCheckpointCommand
  cases db k with
  | none => rfl
  | some a => exact setGenericCommandNoUpdate_db ..

theorem step_eq_update (db : Db) {o : Op} {k : Bytes} (h : redisSem.key o = some k) :
    redisSem.step db o = update db k (redisSem.act o (db k)) := by
  funext k'
  by_cases hk : k' = k
  · subst hk
    rw [update_self]
    exact redisSem.touch_of_key_eq h _
  · rw [update_of_ne hk]
    exact redisSem.touch_of_key_ne (by rw [h]; simpa using Ne.symm hk) _

theorem step_eq_self (db : Db) {o : Op} (h : redisSem.key o = none) : redisSem.step db o = db := by
  funext k
  exact redisSem.touch_of_key_ne (by simp [h]) _

theorem proc_cmd_db (o : Op) (db : Db) : (o.cmd.proc db).db = redisSem.step db o := by
  cases o with
  | set k v => exact (step_eq_update db (o := .set k v) rfl).symm
  | incr k => exact (incrCommand_db k db).trans (step_eq_update db (o := .incr k) rfl).symm
  | del k => exact (delCommand_db k db).trans (step_eq_update db (o := .del k) rfl).symm
  | setCheckpoint k v => exact (setCheckpointCommand_db k v db).trans (step_eq_self db rfl).symm
  | checkpointEnd id arg => exact (setGenericCommandNoUpdate_db ..).trans (step_eq_self db rfl).symm
  | select => exact (step_eq_self db (o := .select) rfl).symm

theorem entryBytes_cons : entryBytes (e :: E) = e.bytes ++ entryBytes E := rfl

theorem entryBytes_append (A B : List Entry) : entryBytes (A ++ B) = entryBytes A ++ entryBytes B := by
  simp [entryBytes]

theorem length_le_entryBytes : E.length ≤ (entryBytes E).length := by
  induction E with
  | nil => simp
  | cons e E ih =>
    have := length_pos_of_ne_nil e.bytes_ne_nil
    simp only [entryBytes_cons, length_append, length_cons]
    omega

theorem aofBytes_entry (L : List LogCmd) : aofBytes L = entryBytes (L.map LogCmd.entry) := by
  simp only [aofBytes, entryBytes, flatMap_map]
  rfl

theorem aofBytes_append (A B : List LogCmd) : aofBytes (A ++ B) = aofBytes A ++ aofBytes B := by
  simp [aofBytes]

theorem length_le_aofBytes (L : List LogCmd) : L.length ≤ (aofBytes L).length := by
  rw [aofBytes_entry]
  simpa using length_le_entryBytes (L.map LogCmd.entry)

/-! Positions between commands grow with the number of commands. -/

theorem offset_length (L : List LogCmd) : offset L L.length = (aofBytes L).length := by
  rw [offset, take_length]

theorem offset_append (h : n ≤ L.length) (M : List LogCmd) : offset (L ++ M) n = offset L n := by
  rw [offset, offset, take_append_of_le_length h]

theorem offset_lt {m : ℕ} (h : n < m) (hm : m ≤ L.length) : offset L n < offset L m := by
  have hsplit : L.take m = L.take n ++ (L.take m).drop n := by
    conv_lhs => rw [← take_append_drop n (L.take m), take_take, Nat.min_eq_left h.le]
  have hrest := length_le_aofBytes ((L.take m).drop n)
  rw [length_drop, length_take, Nat.min_eq_left hm] at hrest
  rw [offset, offset, hsplit, aofBytes_append, length_append]
  omega

theorem offset_le_iff {m : ℕ} (hn : n ≤ L.length) (hm : m ≤ L.length) :
    offset L n ≤ offset L m ↔ n ≤ m := by
  refine ⟨?_, ?_⟩
  · intro h
    by_contra hlt
    exact absurd (offset_lt (not_le.mp hlt) hn) (by omega)
  · intro h
    rcases Nat.lt_or_eq_of_le h with hlt | rfl
    · exact (offset_lt hlt hm).le
    · exact le_rfl

theorem liesBefore_offset (hn : n ≤ L.length) (i : ℕ) : LiesBefore L (offset L n) i ↔ i < n := by
  refine ⟨?_, ?_⟩
  · rintro ⟨hi, hle⟩
    have := (offset_le_iff hi hn).mp (by exact_mod_cast hle)
    omega
  · intro hi
    refine ⟨by omega, ?_⟩
    exact_mod_cast (offset_le_iff (by omega : i + 1 ≤ L.length) hn).mpr hi

theorem loadLoop_entries {E : List Entry} {cmds : List Cmd} (hE : List.Forall₂ Entry.Is E cmds) (fuel : ℕ)
    (h : E.length < fuel) (db : Db) :
    loadLoop t fuel (entryBytes E) db = .returned (cmds.foldl (fun db c => (c.proc db).db) db) := by
  induction hE generalizing fuel db with
  | nil =>
    obtain ⟨f, rfl⟩ : ∃ f, fuel = f + 1 := ⟨fuel - 1, by omega⟩
    rfl
  | @cons e c E cmds he _ ih =>
    obtain ⟨f, rfl⟩ : ∃ f, fuel = f + 1 := ⟨fuel - 1, by omega⟩
    have hlook : lookupCommand e.argv = some c := he
    have hne : entryBytes (e :: E) ≠ [] := by simp [entryBytes_cons, e.bytes_ne_nil]
    rw [loadLoop, if_neg hne, entryBytes_cons, e.readHeader_bytes]
    simp only [readArgv_flatMap e.argv e.fits, hlook]
    exact ih f (by simpa using h) _

theorem loadAppendOnlyFile_entries {E : List Entry} {cmds : List Cmd} (hE : List.Forall₂ Entry.Is E cmds)
    (db : Db) : loadAppendOnlyFile t (entryBytes E) db = .returned (cmds.foldl (fun db c => (c.proc db).db) db) :=
  loadLoop_entries t hE _ (Nat.lt_succ_of_le (length_le_entryBytes E)) db

theorem LogCmd.entry_is : c.entry.Is c.op.cmd := by
  rw [Entry.Is, LogCmd.entry_argv, c.lookupCommand_argv]

theorem loadAppendOnlyFile_aofBytes (L : List LogCmd) (db : Db) :
    loadAppendOnlyFile t (aofBytes L) db = .returned (redisSem.replay db (L.map LogCmd.op)) := by
  have hL : List.Forall₂ Entry.Is (L.map LogCmd.entry) (L.map fun c => c.op.cmd) := by
    rw [forall₂_map_left_iff, forall₂_map_right_iff]
    exact forall₂_same.mpr fun c _ => c.entry_is
  rw [aofBytes_entry, loadAppendOnlyFile_entries t hL, foldl_map, KeyedLog.Sem.replay, foldl_map]
  simp [proc_cmd_db]

end RedisIR
