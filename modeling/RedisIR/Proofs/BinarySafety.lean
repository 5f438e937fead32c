import RedisIR.Proofs.Equivalence

/-! Which keys and values survive the text of an indexed record. The sequential log keeps
lengths, the record is a C string whose lines are counted, so zero bytes cut it and line
feeds shift it. -/

namespace RedisIR

open CLib List Function

variable {k v : Bytes}

/-! ### Lines -/

theorem splitOn_lf_cons (b : UInt8) (s : Bytes) :
    (b :: s).splitOn LF = if b = LF then [] :: s.splitOn LF else (s.splitOn LF).modifyHead (b :: ·) := by
  rw [splitOn_cons_eq_if_modifyHead]
  exact if_congr beq_iff_eq rfl rfl

theorem length_splitOn_lf (s : Bytes) : (s.splitOn LF).length = s.count LF + 1 := by
  induction s with
  | nil => simp
  | cons b s ih =>
    rw [splitOn_lf_cons, count_cons]
    split_ifs with hb <;> simp_all

theorem mem_splitOn_lf {s l : Bytes} (hl : l ∈ s.splitOn LF) : LF ∉ l ∧ ∀ b ∈ l, b ∈ s := by
  induction s generalizing l with
  | nil =>
    rw [splitOn_nil, mem_singleton] at hl
    simp [hl]
  | cons b s ih =>
    rw [splitOn_lf_cons] at hl
    split_ifs at hl with hb
    · rcases mem_cons.mp hl with rfl | hl
      · simp
      · exact ⟨(ih hl).1, fun c hc => mem_cons_of_mem _ ((ih hl).2 c hc)⟩
    · obtain ⟨l', ls, hs⟩ := exists_cons_of_ne_nil (splitOn_ne_nil LF s)
      rw [hs, modifyHead_cons] at hl
      rcases mem_cons.mp hl with rfl | hl
      · have h := ih (l := l') (by simp [hs])
        refine ⟨by simpa [Ne.symm hb] using h.1, fun c hc => ?_⟩
        rcases mem_cons.mp hc with rfl | hc
        · simp
        · exact mem_cons_of_mem _ (h.2 c hc)
      · have h := ih (l := l) (by simp [hs, hl])
        exact ⟨h.1, fun c hc => mem_cons_of_mem _ (h.2 c hc)⟩

theorem head_splitOn_cstr (v : Bytes) : ((cstr v).val.splitOn LF).getD 0 [] = v ↔ Plain v := by
  refine ⟨fun h => ?_, fun h => ?_⟩
  · obtain ⟨l, ls, hl⟩ := exists_cons_of_ne_nil (splitOn_ne_nil LF (cstr v).val)
    obtain rfl : l = v := by simpa [hl] using h
    have hmem := mem_splitOn_lf (s := (cstr l).val) (l := l) (by simp [hl])
    exact ⟨hmem.1, fun h0 => (cstr l).nul_free (hmem.2 0 h0)⟩
  · rw [cstr_val_of_nul_free h.2, splitOn_eq_singleton h.1]
    rfl

/-- The only number that counts the bytes of its own length line. -/
theorem eq_three_of_length {n : ℕ} (h : n = (natDecimal n).length + 2) : n = 3 := by
  have hpos := length_pos_of_ne_nil (natDecimal_ne_nil n)
  by_cases hn : n < 10
  · have := natDecimal_length_le (n := n) (k := 1) (by omega) one_pos
    omega
  · obtain ⟨p, rfl⟩ : ∃ p, n = p + 4 := ⟨n - 4, by omega⟩
    have hpow : p + 4 < 10 ^ (p + 1) := by
      have : p < 10 ^ p := Nat.lt_pow_self (by norm_num)
      rw [pow_succ]
      omega
    have := natDecimal_length_le hpow (by omega)
    omega

theorem lenLine_eq_value (v : Bytes) : 36 :: natDecimal v.length ++ [CR] = v ↔ v = ascii ['$', '3', '\r'] := by
  refine ⟨fun h => ?_, ?_⟩
  · have hlen : v.length = 3 := by
      apply eq_three_of_length
      conv_lhs => rw [← h]
      simp
    rw [← h, hlen]
    decide +kernel
  · rintro rfl
    decide +kernel

/-! ### Keys and values that survive -/

/-- The key is a C string and the seventh line of the record of `SET key value` is the
value: a value without line feed and zero byte behind a key of one line, or a value that
happens to be what a key of more lines puts there. -/
def TextSafe (key value : Bytes) : Prop :=
  (0 : UInt8) ∉ key ∧ (LF ∉ key ∧ Plain value ∨ key.count LF = 1 ∧ value = ascii ['$', '3', '\r'] ∨
      2 ≤ key.count LF ∧ (key.splitOn LF)[2]? = some value)

theorem valueLine_eq_iff (k v : Bytes) :
    valueLine k v = v ↔ LF ∉ k ∧ Plain v ∨ k.count LF = 1 ∧ v = ascii ['$', '3', '\r'] ∨
      2 ≤ k.count LF ∧ (k.splitOn LF)[2]? = some v := by
  have hlen := length_splitOn_lf k
  rcases Nat.lt_trichotomy (k.count LF) 1 with h | h | h
  · have h0 : k.count LF = 0 := by omega
    have hk : LF ∉ k := count_eq_zero.mp h0
    have hline : valueLine k v = ((cstr v).val.splitOn LF).getD 0 [] := by
      rw [valueLine, splitOn_eq_singleton hk]
      rfl
    rw [hline, head_splitOn_cstr]
    simp [hk, h0]
  · have hk : LF ∈ k := count_pos_iff.mp (by omega)
    have hline : valueLine k v = 36 :: natDecimal v.length ++ [CR] := by
      rw [valueLine, getD_eq_getElem?_getD, List.getElem?_append_right (by omega), hlen, h]
      rfl
    simp [hline, ← lenLine_eq_value, hk, h]
  · have hk : LF ∈ k := count_pos_iff.mp (by omega)
    obtain ⟨l, hl⟩ : ∃ l, (k.splitOn LF)[2]? = some l := ⟨_, List.getElem?_eq_getElem (by omega)⟩
    have hline : valueLine k v = l := by
      rw [valueLine, getD_eq_getElem?_getD, List.getElem?_append_left (by omega), hl, Option.getD_some]
    have h1 : k.count LF ≠ 1 := by omega
    simp [hline, hl, hk, h1, Nat.succ_le_of_lt h]

theorem cstr_val_eq_iff (b : Bytes) : (cstr b).val = b ↔ (0 : UInt8) ∉ b :=
  ⟨fun h h0 => (cstr b).nul_free (h.symm ▸ h0), cstr_val_of_nul_free⟩

theorem setKey_emptyDb_eq_iff (k k' v v' : Bytes) :
    setKey emptyDb k v = setKey emptyDb k' v' ↔ k = k' ∧ v = v' := by
  refine ⟨fun h => ?_, fun ⟨hk, hv⟩ => by rw [hk, hv]⟩
  have hat := congrFun h k
  by_cases hk : k = k'
  · subst hk
    exact ⟨rfl, by simpa [setKey] using hat⟩
  · simp [setKey, update_of_ne hk, emptyDb] at hat

section

variable (c : LogCmd) (hop : c.op = .set k v)
include c hop

/-- What either loader makes of the one record is the pair exactly when the text keeps it. -/
theorem restored_pair_iff :
    setKey emptyDb (cstr k).val ((sdssplitlen c.record.val).getD 6 []) = setKey emptyDb k v ↔ TextSafe k v := by
  rw [setKey_emptyDb_eq_iff, cstr_val_eq_iff]
  refine and_congr_right fun hk => ?_
  rw [c.record_valueLine hop hk, valueLine_eq_iff]

theorem get_indexRecords_set (j : CStr) :
    (indexRecords Multimap.empty [c]).get j = if cstr k = j then [c.record] else [] := by
  have hidx : indexRecords Multimap.empty [c] = ⟨[(cstr k, c.record)]⟩ := by
    simp only [indexRecords, map_cons, map_nil, LogCmd.indexOp, hop]
    rfl
  rw [hidx, Multimap.get]
  split_ifs with h <;> simp [h]

/-- A block is made for the value of a `SET`. -/
theorem fits_set (usable : ℕ → ℕ) : TextsFit usable [c.record] := by
  have hname : recordCommand c.record = SET_COMMAND := by rw [recordCommand_record, hop]; rfl
  simp [TextsFit, Sds.replayFits, hname]

theorem recovered_set (m : Allocator) : m.recovered (indexRecords Multimap.empty [c]) =
      setKey emptyDb (cstr k).val ((sdssplitlen c.record.val).getD 6 []) := by
  funext b
  rw [Allocator.recovered, Allocator.view, get_indexRecords_set c hop, setKey]
  by_cases hb : b = (cstr k).val
  · subst hb
    rw [cstr_val, if_pos rfl, if_pos rfl, if_neg (by simp), update_self, loaderValue_eq (fits_set c hop _),
      ← replayRecord_set c hop zeroText]
    rfl
  · rw [update_of_ne hb]
    by_cases hval : (cstr b).val = b
    · have hne : cstr k ≠ cstr b := fun hkey => hb (by rw [hkey, hval])
      rw [if_pos hval, if_neg hne, if_pos rfl]
      rfl
    · rw [if_neg hval]
      rfl

theorem loadRecord_set {s : Server} (hs : s.db = emptyDb) :
    (loadRecordFromIndexedLog (indexRecords Multimap.empty [c]) (cstr k) s).1.db =
      setKey emptyDb (cstr k).val ((sdssplitlen c.record.val).getD 6 []) := by
  have hget := get_indexRecords_set c hop (cstr k)
  rw [if_pos rfl] at hget
  rw [loadRecordFromIndexedLog, hget, if_neg (by simp)]
  simp only [addRestoredTuple, setIRCommand_db, hs, onDemandValue_eq (fits_set c hop _), foldl_cons, foldl_nil,
    replayRecord_set c hop]
  rfl

end

/-- `SET key value` written to the log, indexed at start-up and restored by the incremental
loader or on demand: sequential replay always gives the pair, the two loaders exactly when
key and value survive the text of the record. -/
theorem binary_safe_iff {c : LogCmd} {key value : Bytes} (hop : c.op = .set key value) {files : Files}
    {replicated : Bool} (haof : files.aof = catAppendOnlyGenericCommand [] c.argv)
    (hseek : (chooseStart files replicated).seek = 0)
    (hopen : (chooseStart files replicated).files.indexedLog.openW = some Multimap.empty) (aofLoadTruncated : Bool) :
    ∃ r idx, initialIndexesSequentialLogToIndexedLog files replicated = .returned r ∧
      r.result.files.indexedLog = .ok idx ∧
      loadAppendOnlyFile aofLoadTruncated files.aof emptyDb = .returned (setKey emptyDb key value) ∧
      (∀ m cur, idx.IsCursor cur → (loadDBFromIndexedLog m idx cur).loader.pc = .done ∧
        ((loadDBFromIndexedLog m idx cur).db = setKey emptyDb key value ↔ TextSafe key value)) ∧
      ∀ s : Server, s.db = emptyDb →
        ((loadRecordFromIndexedLog idx (cstr key) s).1.db = setKey emptyDb key value ↔ TextSafe key value) := by
  have hlog : files.aof = aofBytes [c] := by
    rw [haof]
    exact (append_nil _).symm
  obtain ⟨r, hrun, hidx, -⟩ :=
    initialIndexes_boundary (A := []) (B := [c]) hlog (by simpa [aofBytes] using hseek) hopen
  refine ⟨r, _, hrun, hidx, ?_, fun m cur hcur => ?_, fun s hs => ?_⟩
  · rw [hlog, loadAppendOnlyFile_aofBytes, map_singleton, hop]
    exact congrArg Outcome.returned (step_eq_update emptyDb (o := .set key value) rfl)
  · obtain ⟨hdone, hdb⟩ := loadDBFromIndexedLog_db m (redoable_indexRecords redoable_empty [c]) hcur
    rw [hdb, recovered_set c hop]
    exact ⟨hdone, restored_pair_iff c hop⟩
  · rw [loadRecord_set c hop hs]
    exact restored_pair_iff c hop

def crSet : LogCmd := Op.logged (.set (ascii ['k', '\r']) []) (by decide)

theorem binary_safe_cr : ∃ r idx, initialIndexesSequentialLogToIndexedLog (freshFiles [crSet]) false = .returned r ∧
      r.result.files.indexedLog = .ok idx ∧
      loadAppendOnlyFile true (freshFiles [crSet]).aof emptyDb = .returned (setKey emptyDb (ascii ['k', '\r']) []) ∧
      (∀ m cur, idx.IsCursor cur → (loadDBFromIndexedLog m idx cur).loader.pc = .done ∧
        ((loadDBFromIndexedLog m idx cur).db = setKey emptyDb (ascii ['k', '\r']) [] ↔
      TextSafe (ascii ['k', '\r']) [])) ∧ ∀ s : Server, s.db = emptyDb →
        ((loadRecordFromIndexedLog idx (cstr (ascii ['k', '\r'])) s).1.db = setKey emptyDb (ascii ['k', '\r']) [] ↔
          TextSafe (ascii ['k', '\r']) []) :=
  binary_safe_iff (c := crSet) rfl (append_nil _) rfl rfl true

def twoLines : LogCmd := Op.logged (.set (ascii ['k']) (ascii ['a', '\n', 'b'])) (by decide)

/-- Only the first line comes back. -/
theorem two_lines_cut :
    ∃ r idx, initialIndexesSequentialLogToIndexedLog (freshFiles [twoLines]) false = .returned r ∧
      r.result.files.indexedLog = .ok idx ∧ loadAppendOnlyFile true (aofBytes [twoLines]) emptyDb =
        .returned (setKey emptyDb (ascii ['k']) (ascii ['a', '\n', 'b'])) ∧
      (loadDBFromIndexedLog jemalloc idx idx.cursor).db (ascii ['k']) = some (ascii ['a']) ∧
      (loadRecordFromIndexedLog idx (cstr (ascii ['k'])) (.recovering jemalloc idx.cursor)).1.db (ascii ['k']) =
        some (ascii ['a']) := by
  obtain ⟨r, hrun, hidx, -⟩ := initialIndexes_boundary (A := []) (B := [twoLines])
    (show (freshFiles [twoLines]).aof = _ from rfl) (show (chooseStart (freshFiles [twoLines]) false).seek = _ from rfl)
    (show _ = some Multimap.empty from rfl)
  refine ⟨r, _, hrun, hidx, ?_, by decide +kernel, by decide +kernel⟩
  rw [loadAppendOnlyFile_aofBytes]
  exact congrArg Outcome.returned (step_eq_update emptyDb (o := .set (ascii ['k']) (ascii ['a', '\n', 'b'])) rfl)

end RedisIR
