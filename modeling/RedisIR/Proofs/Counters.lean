import RedisIR.Proofs.BinarySafety

/-! Counters. Redis increments a 64-bit integer and refuses to overflow, the loaders
increment an `int` that they read from the text of the last value. -/

namespace RedisIR

open CLib List Option

variable {idx : IndexedLog} {L : List LogCmd}
variable {k : Bytes} {start : Option ℤ}

/-! ### Increments in memory -/

theorem decimal_injective {i j : ℤ} (hi : LLONG_MIN ≤ i ∧ i ≤ LLONG_MAX)
    (hj : LLONG_MIN ≤ j ∧ j ≤ LLONG_MAX) (h : decimal i = decimal j) : i = j := by
  unfold LLONG_MIN LLONG_MAX at hi hj
  rw [← strtol_decimal (i := i) (by omega) (by omega), h, strtol_decimal (by omega) (by omega)]

theorem dbRun_cons (c : Cmd) (cs : List Cmd) (db : Db) :
    dbRun (c :: cs) db = ((dbRun cs (c.proc db).db).1, (c.proc db).reply :: (dbRun cs (c.proc db).db).2) := rfl

theorem incrCommand_counts {db : Db} {n : ℤ} (hn : getLongLongFromObject (db k) = some n)
    (hok : ∀ msg, (incrCommand k db).reply ≠ .error msg) :
    n < LLONG_MAX ∧ (incrCommand k db).db = setKey db k (decimal (n + 1)) := by
  unfold incrCommand incrDecrCommand at hok ⊢
  simp only [hn] at hok ⊢
  split_ifs at hok ⊢ with hover
  · exact absurd rfl (hok _)
  · refine ⟨?_, rfl⟩
    unfold LLONG_MAX at hover ⊢
    omega

theorem getLongLongFromObject_decimal (h : ∀ v ∈ start, LLONG_MIN ≤ v ∧ v ≤ LLONG_MAX) :
    getLongLongFromObject (start.map decimal) = some (start.getD 0) := by
  cases start with
  | none => rfl
  | some v => exact string2ll_decimal (h v rfl).1 (h v rfl).2

/-- Increments without an error reply: none has overflowed, and their number is added. -/
theorem dbRun_incr (j : ℕ) (hstart : ∀ v ∈ start, LLONG_MIN ≤ v ∧ v ≤ LLONG_MAX) {db : Db}
    (hdb : db k = start.map decimal) (hok : ∀ r ∈ (dbRun (replicate j (.incr k)) db).2, ∀ msg, r ≠ .error msg) :
    start.getD 0 + j ≤ LLONG_MAX ∧ (dbRun (replicate j (.incr k)) db).1 k =
        if j = 0 then start.map decimal else some (decimal (start.getD 0 + j)) := by
  induction j generalizing start db with
  | zero =>
    refine ⟨?_, hdb⟩
    cases start with
    | none => simp [LLONG_MAX]
    | some v => simpa using (hstart v rfl).2
  | succ j ih =>
    rw [replicate_succ, dbRun_cons] at hok ⊢
    obtain ⟨hlt, hset⟩ := incrCommand_counts (hdb ▸ getLongLongFromObject_decimal hstart) (hok _ mem_cons_self)
    have hmin : LLONG_MIN ≤ start.getD 0 := by
      cases start with
      | none => simp [LLONG_MIN]
      | some v => exact (hstart v rfl).1
    have hnext : ((Cmd.incr k).proc db).db k = (some (start.getD 0 + 1)).map decimal := by
      rw [Cmd.proc, hset, setKey, Function.update_self]
      rfl
    have hstart' : ∀ v ∈ some (start.getD 0 + 1), LLONG_MIN ≤ v ∧ v ≤ LLONG_MAX := by
      intro v hv
      obtain rfl := some.inj hv
      omega
    obtain ⟨hmax, hval⟩ := ih hstart' hnext (forall_mem_cons.mp hok).2
    rw [getD_some] at hmax hval
    refine ⟨by push_cast; omega, ?_⟩
    rw [hval, if_neg (Nat.succ_ne_zero j)]
    have hsum : start.getD 0 + 1 + j = start.getD 0 + (j + 1 : ℕ) := by push_cast; ring
    rw [hsum]
    split_ifs with hj
    · subst hj
      rfl
    · rfl

/-! ### Increments in the indexed log -/

theorem incrText_some (x : Bytes) : incrText (some x) = decimal (wrapInt (atoi x + 1)) := rfl

theorem foldl_incr (L : List LogCmd) (hL : ∀ c ∈ L, c.op = .incr k) (x : Bytes) :
    (L.map LogCmd.record).foldl replayRecord x = if L = [] then x else decimal (wrapInt (atoi x + L.length)) := by
  induction L generalizing x with
  | nil => rfl
  | cons c L ih =>
    rw [map_cons, foldl_cons, replayRecord_incr c (hL c (by simp)), ih (forall_mem_cons.mp hL).2,
      incrText_some, atoi_decimal_wrapInt, wrapInt_add, if_neg (by simp : c :: L ≠ [])]
    split_ifs with hnil
    · simp [hnil]
    · rw [length_cons, Nat.cast_succ, add_assoc, add_comm 1]

/-- What a loader brings in for the database key `k`. -/
def restoredValue (value : Allocator → List CStr → Bytes) (m : Allocator) (idx : IndexedLog) (k : Bytes) :
    Option Bytes :=
  if (cstr k).val = k ∧ idx.get (cstr k) ≠ [] then some (value m (idx.get (cstr k))) else none

theorem recovered_restored (m : Allocator) (idx : IndexedLog) (k : Bytes) :
    m.recovered idx k = restoredValue Allocator.loaderValue m idx k := by
  unfold Allocator.recovered restoredValue Allocator.view
  split_ifs <;> simp_all

theorem loadRecord_eq (idx : IndexedLog) {s : Server} (hs : s.db k = none) :
    (loadRecordFromIndexedLog idx (cstr k) s).1.db k =
      restoredValue Allocator.onDemandValue s.allocator idx k := by
  unfold loadRecordFromIndexedLog restoredValue
  by_cases hget : idx.get (cstr k) = []
  · simpa [hget, addRestoredTuple] using hs
  · by_cases hval : (cstr k).val = k
    · simp [hget, hval, addRestoredTuple, setIRCommand_db, hs]
    · simpa [hget, hval, addRestoredTuple] using (setIRCommand_ne _ _ _ (Ne.symm hval)).trans hs

/-- `SET k v` if there is a start value, then `j` times `INCR k`. -/
def counterOps (k : Bytes) (start : Option ℤ) (j : ℕ) : List Op :=
  (start.map fun v => Op.set k (decimal v)).toList ++ replicate j (.incr k)

/-- The text of the start value survives in its record if nothing is added to it; otherwise
its reading as an `int` does, and the result is an `int`. -/
def CounterSurvives (k : Bytes) : Option ℤ → ℕ → Prop
  | none, j => j = 0 ∨ (0 : UInt8) ∉ k ∧ (j : ℤ) < 2 ^ 31
  | some v, 0 => TextSafe k (decimal v)
  | some v, j + 1 => (0 : UInt8) ∉ k ∧ (2 : ℤ) ^ 32 ∣ atoi (valueLine k (decimal v)) - v ∧
      -2 ^ 31 ≤ v + (j + 1 : ℕ) ∧ v + (j + 1 : ℕ) < 2 ^ 31

theorem decimal_wrapInt_eq_iff {i n : ℤ} (hn : LLONG_MIN ≤ n ∧ n ≤ LLONG_MAX) :
    decimal (wrapInt i) = decimal n ↔ (2 : ℤ) ^ 32 ∣ i - n ∧ -2 ^ 31 ≤ n ∧ n < 2 ^ 31 := by
  have hrange := wrapInt_range i
  have hint : LLONG_MIN ≤ wrapInt i ∧ wrapInt i ≤ LLONG_MAX := by
    unfold LLONG_MIN LLONG_MAX
    omega
  refine ⟨fun h => ?_, fun ⟨hdvd, h1, h2⟩ => ?_⟩
  · obtain rfl := decimal_injective hint hn h
    refine ⟨?_, hrange⟩
    rw [← wrapInt_eq_iff]
    simpa using (wrapInt_add i 0).symm
  · rw [(wrapInt_eq_iff i n).mpr hdvd, wrapInt_eq h1 h2]

section

variable {j : ℕ} (hL : L.map LogCmd.op = counterOps k start j) (hget : idx.get (cstr k) = L.map LogCmd.record)
include hL hget

/-- What the records of a counter fold to, for a key that is a C string. -/
theorem view_counter (hk : (0 : UInt8) ∉ k) : view idx (cstr k) = match start with
      | none => if j = 0 then none else some (decimal (wrapInt j))
      | some v => some (if j = 0 then valueLine k (decimal v)
        else decimal (wrapInt (atoi (valueLine k (decimal v)) + j))) := by
  have hincr : ∀ M : List LogCmd, M.map LogCmd.op = replicate j (.incr k) →
      (∀ c ∈ M, c.op = .incr k) ∧ M.length = j ∧ (M = [] ↔ j = 0) := by
    intro M hM
    have hlen : M.length = j := by simpa using congrArg List.length hM
    refine ⟨fun c hc => ?_, hlen, by rw [← hlen, length_eq_zero_iff]⟩
    exact (mem_replicate.mp (hM ▸ mem_map_of_mem hc)).2
  rw [view, foldedValue, hget]
  cases start with
  | none =>
    obtain ⟨hops, hlen, hnil⟩ := hincr L (by simpa [counterOps] using hL)
    have hzero : atoi zeroText = 0 := by rw [zeroText_eq, atoi_decimal (by norm_num) (by norm_num)]
    simp only [map_eq_nil_iff, foldl_incr L hops, hnil, hlen, hzero, zero_add]
    split_ifs <;> rfl
  | some v =>
    obtain ⟨c, M, rfl⟩ : ∃ c M, L = c :: M := by
      cases L with
      | nil => simp [counterOps] at hL
      | cons c M => exact ⟨c, M, rfl⟩
    obtain ⟨hset, hM⟩ := List.cons.inj hL
    obtain ⟨hops, hlen, hnil⟩ := hincr M hM
    rw [map_cons, if_neg (by simp), foldl_cons, foldl_incr M hops, replayRecord_set c hset,
      c.record_valueLine hset hk, hlen]
    simp [hnil]

variable (hstart : ∀ v ∈ start, LLONG_MIN ≤ v ∧ v ≤ LLONG_MAX) (hmax : start.getD 0 + j ≤ LLONG_MAX)
include hstart hmax

/-- The value of the records of a counter is that of Redis, which has not overflowed, exactly when
the counter survives. -/
theorem recovered_counter_iff :
    recovered idx k = (if j = 0 then start.map decimal else some (decimal (start.getD 0 + j))) ↔
      CounterSurvives k start j := by
  rw [recovered]
  by_cases hk : (0 : UInt8) ∉ k
  · rw [if_pos (cstr_val_of_nul_free hk), view_counter hL hget hk]
    cases start with
    | none =>
      rcases Nat.eq_zero_or_pos j with rfl | hj
      · simp [CounterSurvives]
      · have hll : LLONG_MIN ≤ (j : ℤ) ∧ (j : ℤ) ≤ LLONG_MAX := by
          refine ⟨?_, by simpa using hmax⟩
          unfold LLONG_MIN
          omega
        simp only [if_neg hj.ne', some.injEq, getD_none, zero_add, decimal_wrapInt_eq_iff hll,
          CounterSurvives, hk, not_false_eq_true, true_and, sub_self, dvd_zero]
        omega
    | some v =>
      cases j with
      | zero => simp [CounterSurvives, TextSafe, hk, valueLine_eq_iff]
      | succ j =>
        have hll : LLONG_MIN ≤ v + (j + 1 : ℕ) ∧ v + (j + 1 : ℕ) ≤ LLONG_MAX := by
          have := (hstart v rfl).1
          refine ⟨by omega, by simpa using hmax⟩
        simp only [if_neg (Nat.succ_ne_zero j), some.injEq, getD_some, decimal_wrapInt_eq_iff hll,
          CounterSurvives, hk, not_false_eq_true, true_and, add_sub_add_right_eq_sub]
  · -- the loaders only know C strings
    rw [if_neg (by rwa [cstr_val_eq_iff])]
    cases start with
    | none => rcases Nat.eq_zero_or_pos j with rfl | hj <;> simp_all [CounterSurvives]
    | some v => cases j <;> simp_all [CounterSurvives, TextSafe]

/-- The same for what a loader makes of the records, with any memory behind the blocks. -/
theorem restored_counter_iff {value : Allocator → List CStr → Bytes} (hvalue : Loads value) (m : Allocator) :
    (∀ m' : Allocator, m'.usable = m.usable → restoredValue value m' idx k =
        if j = 0 then start.map decimal else some (decimal (start.getD 0 + j))) ↔
      CounterSurvives k start j ∧ TextsFit m.usable (L.map LogCmd.record) := by
  rw [← hget, ← recovered_counter_iff hL hget hstart hmax]
  by_cases hfits : TextsFit m.usable (idx.get (cstr k))
  · have hread : ∀ m' : Allocator, m'.usable = m.usable →
        restoredValue value m' idx k = recovered idx k := by
      intro m' hm
      rw [restoredValue, hvalue.eq (hm ▸ hfits), recovered, view, foldedValue]
      split_ifs <;> simp_all
    rw [and_iff_left hfits]
    exact ⟨fun h => hread m rfl ▸ h m rfl, fun h m' hm => (hread m' hm).trans h⟩
  · refine iff_of_false (fun h => ?_) fun h => hfits h.2
    have hne := ne_nil_of_not_fits hfits
    obtain ⟨m₁, m₂, h₁, h₂, hdiffers⟩ := hvalue.differs hfits
    by_cases hval : (cstr k).val = k
    · have hboth := (h m₁ h₁).trans (h m₂ h₂).symm
      simp only [restoredValue, hval, hne, ne_eq, not_false_eq_true, and_self, if_true, some.injEq] at hboth
      exact hdiffers hboth
    · -- a key with a zero byte is never brought in, and the increments have made it exist
      have hnone := h m rfl
      rw [restoredValue, if_neg fun hk => hval hk.1] at hnone
      cases start with
      | some v =>
        split_ifs at hnone
        cases hnone
      | none =>
        split_ifs at hnone with hj
        rw [hget, ne_eq, map_eq_nil_iff] at hne
        simp [counterOps, hj, hne] at hL

end

/-- The recovered value of a counter against the value that its increments have produced in
memory, for every key, start value and number of increments without an error. They are the same
with any memory behind the blocks exactly if the counter survives and its texts fit. -/
theorem counters_recovered_iff {k : Bytes} {start : Option ℤ} (hstart : ∀ v ∈ start, LLONG_MIN ≤ v ∧
    v ≤ LLONG_MAX) {db : Db} (hdb : db k = start.map decimal) {j : ℕ}
    (hok : ∀ r ∈ (dbRun (replicate j (.incr k)) db).2, ∀ msg, r ≠ .error msg) {L : List LogCmd}
    (hL : L.map LogCmd.op = counterOps k start j) {idx : IndexedLog} (hidx : Redoable idx)
    (hget : idx.get (cstr k) = L.map LogCmd.record) (m : Allocator) :
    ((∀ m' : Allocator, m'.usable = m.usable → ∀ cur, idx.IsCursor cur →
        (loadDBFromIndexedLog m' idx cur).db k = (dbRun (replicate j (.incr k)) db).1 k) ↔
      CounterSurvives k start j ∧ TextsFit m.usable (L.map LogCmd.record)) ∧
    ((∀ s : Server, s.allocator.usable = m.usable → s.db k = none →
        (loadRecordFromIndexedLog idx (cstr k) s).1.db k = (dbRun (replicate j (.incr k)) db).1 k) ↔
      CounterSurvives k start j ∧ TextsFit m.usable (L.map LogCmd.record)) := by
  obtain ⟨hmax, hval⟩ := dbRun_incr j hstart hdb hok
  rw [hval]
  refine ⟨?_, ?_⟩
  · rw [← restored_counter_iff hL hget hstart hmax loads_loader m]
    refine forall₂_congr fun m' _ => ⟨fun h => ?_, fun h cur hcur => ?_⟩
    · rw [← h _ idx.cursor_isCursor, (loadDBFromIndexedLog_db m' hidx idx.cursor_isCursor).2, recovered_restored]
    · rw [(loadDBFromIndexedLog_db m' hidx hcur).2, recovered_restored, h]
  · rw [← restored_counter_iff hL hget hstart hmax loads_onDemand m]
    refine ⟨fun h m' hm => ?_, fun h s hm hs => ?_⟩
    · rw [← h (.restarted m' []) hm rfl, loadRecord_eq idx rfl]
      rfl
    · rw [loadRecord_eq idx hs, h _ hm]

/-- The counter `n` set to nine and incremented once. -/
theorem counter_nine_recovered : (∀ cur, nineIncr.IsCursor cur →
      (loadDBFromIndexedLog jemalloc nineIncr cur).db (ascii ['n']) = some (decimal 10)) ∧
    ∀ s : Server, s.allocator = jemalloc → s.db (ascii ['n']) = none →
      (loadRecordFromIndexedLog nineIncr (cstr (ascii ['n'])) s).1.db (ascii ['n']) = some (decimal 10) := by
  have hstart : ∀ v ∈ some (9 : ℤ), LLONG_MIN ≤ v ∧ v ≤ LLONG_MAX := by simp [LLONG_MIN, LLONG_MAX]
  have hdb : setKey emptyDb (ascii ['n']) (decimal 9) (ascii ['n']) = (some (9 : ℤ)).map decimal := rfl
  have hreply : (dbRun (replicate 1 (.incr (ascii ['n']))) (setKey emptyDb (ascii ['n']) (decimal 9))).2 =
      [.int 10] := by decide +kernel
  have hok : ∀ r ∈ (dbRun (replicate 1 (.incr (ascii ['n']))) (setKey emptyDb (ascii ['n']) (decimal 9))).2,
      ∀ msg, r ≠ .error msg := by
    rw [hreply]
    simp
  have hten : (dbRun (replicate 1 (.incr (ascii ['n']))) (setKey emptyDb (ascii ['n']) (decimal 9))).1 (ascii ['n']) =
      some (decimal 10) := by decide +kernel
  have hL : [setCounter, incrCounter].map LogCmd.op = counterOps (ascii ['n']) (some 9) 1 := by decide +kernel
  have hfits : CounterSurvives (ascii ['n']) (some 9) 1 ∧
      TextsFit jemalloc.usable ([setCounter, incrCounter].map LogCmd.record) :=
    ⟨⟨by decide, by decide +kernel, by norm_num, by norm_num⟩, by decide +kernel⟩
  obtain ⟨hloader, honDemand⟩ := counters_recovered_iff hstart hdb hok hL
    (show Redoable nineIncr by decide +kernel) (by decide +kernel) jemalloc
  rw [hten] at hloader honDemand
  exact ⟨hloader.mpr hfits jemalloc rfl, fun s hs => honDemand.mpr hfits s (by rw [hs])⟩

def bigCounter : LogCmd := Op.logged (.set (ascii ['n']) (decimal (2 ^ 32))) (by decide +kernel)

/-- A counter of `2 ^ 32` is incremented to `2 ^ 32 + 1` in memory and comes back as one. -/
theorem big_counter_lost :
    (dbRun [.incr (ascii ['n'])] (setKey emptyDb (ascii ['n']) (decimal (2 ^ 32)))).1 (ascii ['n']) =
        some (decimal (2 ^ 32 + 1)) ∧
          (loadDBFromIndexedLog jemalloc (indexRecords Multimap.empty [bigCounter, incrCounter])
        (indexRecords Multimap.empty [bigCounter, incrCounter]).cursor).db (ascii ['n']) = some (decimal 1) := by
  decide +kernel

end RedisIR
