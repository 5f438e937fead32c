import RedisIR.Proofs.Interleaving

/-! Instant recovery against sequential recovery. The loaders count in `int` and keep
values as lines of text, Redis counts in `long long` and keeps bytes; on plain keys and
values and on counters in the range of `int` that fit into their blocks they compute the same
map. -/

namespace RedisIR

open CLib

variable {m : IndexedLog}

/-- What an `INCR` meets: no key, or a canonical decimal whose successor is an `int`. -/
def IncrOk (x : Option Bytes) : Prop :=
  ∀ v, x = some v → ∃ i : ℤ, -2 ^ 31 ≤ i ∧ i ≤ 2 ^ 31 - 2 ∧ v = decimal i

/-- Every `INCR` of the log meets such a value when the log is replayed. -/
def IncrsOk (L : List LogCmd) : Prop :=
  KeyedLog.Before (fun A c => ∀ k, c.op = .incr k → IncrOk (redisSem.replay emptyDb (A.map LogCmd.op) k)) L

theorem zeroText_eq : zeroText = decimal 0 := by decide +kernel

theorem incrText_decimal {i : ℤ} (h1 : -2 ^ 31 ≤ i) (h2 : i ≤ 2 ^ 31 - 2) :
    incrText (some (decimal i)) = decimal (i + 1) := by
  rw [incrText, Option.getD_some, atoi_decimal h1 (by omega), wrapInt_eq (by omega) (by omega)]

theorem incrText_none : incrText none = decimal 1 := by
  have h := incrText_decimal (i := 0) (by norm_num) (by norm_num)
  rwa [← zeroText_eq] at h

theorem incrValue_none : incrValue none = some (decimal 1) := by
  simp [incrValue, getLongLongFromObject, LLONG_MAX]

theorem incrValue_decimal {i : ℤ} (h1 : LLONG_MIN ≤ i) (h2 : i < LLONG_MAX) :
    incrValue (some (decimal i)) = some (decimal (i + 1)) := by
  simp only [incrValue, getLongLongFromObject, string2ll_decimal h1 h2.le]
  rw [if_neg (by omega)]

theorem incr_agree {x : Option Bytes} (h : IncrOk x) : some (incrText x) = incrValue x := by
  cases x with
  | none => rw [incrText_none, incrValue_none]
  | some v =>
    obtain ⟨i, h1, h2, rfl⟩ := h v rfl
    rw [incrText_decimal h1 h2, incrValue_decimal (by unfold LLONG_MIN; omega) (by unfold LLONG_MAX; omega)]

variable (k : CStr) (x : Option Bytes) (L : List LogCmd)

theorem touch_agree (c : LogCmd) (hplain : c.op.Plain) (x : Option Bytes)
    (hincr : c.op = .incr k.val → IncrOk x) : recordSem.touch k x c = redisSem.touch k.val x c.op := by
  rw [touch_int k c hplain]
  revert hincr
  cases c.op with
  | incr k' =>
    intro hincr
    simp only [KeyedLog.Sem.touch, intSem, redisSem, Option.some.injEq]
    split_ifs with h
    · exact incr_agree (hincr (by rw [h]))
    · rfl
  | _ => exact fun _ => rfl

theorem fold_agree (hplain : ∀ c ∈ L, c.op.Plain)
    (hincr : KeyedLog.Before (fun A c => c.op = .incr k.val → IncrOk (redisSem.fold k.val x (A.map LogCmd.op))) L) :
    recordSem.fold k x L = redisSem.fold k.val x (L.map LogCmd.op) := by
  apply KeyedLog.Sem.fold_congr
  rintro A c B hL y - rfl
  exact touch_agree k c (hplain c (by simp [hL])) _ (hincr A c B hL)

theorem fold_of_nul {b : Bytes} (hb : (cstr b).val ≠ b) (L : List LogCmd) (hplain : ∀ c ∈ L, c.op.Plain) :
    redisSem.fold b none (L.map LogCmd.op) = none := by
  apply redisSem.fold_of_untouched
  intro o ho hkey
  obtain ⟨c, hc, rfl⟩ := List.mem_map.mp ho
  have hfree : (0 : UInt8) ∉ b := by
    have hp := hplain c hc
    revert hp hkey
    cases c.op with
    | set k v => rintro ⟨⟩ h; exact h.1.2
    | incr k => rintro ⟨⟩ h; exact h.2
    | del k => rintro ⟨⟩ h; exact h.2
    | _ => rintro ⟨⟩
  exact hb (cstr_val_of_nul_free hfree)

/-! ### The records of an index made by the start-up indexer -/

theorem redoable_del (h : Redoable m) (k : CStr) : Redoable (m.del k) :=
  fun e he => h e (List.mem_filter.mp he).1

theorem redoable_put (h : Redoable m) (k : CStr) {d : CStr}
    (hd : recordCommand d = SET_COMMAND ∨ recordCommand d = INCR_COMMAND) : Redoable (m.put k d) := by
  intro e he
  rcases List.mem_append.mp he with he | he
  · exact h e he
  · rw [List.mem_singleton.mp he]
    exact hd

theorem redoable_applyRecord (h : Redoable m) (c : LogCmd) : Redoable (applyRecord m c.indexOp) := by
  have hname := recordCommand_record c
  unfold LogCmd.indexOp
  split
  · next k v hop =>
    rw [hop] at hname
    exact redoable_put (redoable_del h _) _ (.inl hname)
  · next k hop =>
    rw [hop] at hname
    exact redoable_put h _ (.inr hname)
  · exact redoable_del h _
  · exact h

theorem redoable_indexRecords (h : Redoable m) (L : List LogCmd) : Redoable (indexRecords m L) := by
  induction L generalizing m with
  | nil => exact h
  | cons c L ih => exact ih (redoable_applyRecord h c)

theorem redoable_empty : Redoable Multimap.empty := fun e he => by cases he

/-! ### The two recoveries -/

/-- Indexing a plain log from its beginning and loading the index gives the database of
replaying the log. -/
theorem recovered_indexRecords (hplain : ∀ c ∈ L, c.op.Plain) (hincr : IncrsOk L) :
    recovered (indexRecords Multimap.empty L) = redisSem.replay emptyDb (L.map LogCmd.op) := by
  funext b
  rw [recovered, redisSem.replay_apply]
  split_ifs with hb
  · have h := fold_agree (cstr b) none L hplain fun A c B hL hop => by
      have := hincr A c B hL _ hop
      rwa [redisSem.replay_apply] at this
    rw [view_indexRecords_apply, view_empty, h, hb]
    rfl
  · exact (fold_of_nul hb L hplain).symm

/-- Instant recovery equals sequential recovery: the start-up indexer from offset zero into an
empty indexed log, then the loader, against `loadAppendOnlyFile`. This is so with any memory behind
the blocks exactly if the counters fit. -/
theorem instant_recovery_eq_sequential_iff (hplain : ∀ c ∈ L, c.op.Plain) (hincr : IncrsOk L)
    {files : Files} {replicated : Bool} (haof : files.aof = aofBytes L)
    (hseek : (chooseStart files replicated).seek = 0)
    (hopen : (chooseStart files replicated).files.indexedLog.openW = some Multimap.empty) (aofLoadTruncated : Bool)
    (m : Allocator) : ∃ r idx, initialIndexesSequentialLogToIndexedLog files replicated = .returned r ∧
      r.result.files.indexedLog = .ok idx ∧
      (∀ c, idx.IsCursor c → (loadDBFromIndexedLog m idx c).loader.pc = .done) ∧
      ((∀ m' : Allocator, m'.usable = m.usable → ∀ c, idx.IsCursor c →
        loadAppendOnlyFile aofLoadTruncated files.aof emptyDb = .returned (loadDBFromIndexedLog m' idx c).db) ↔
          Roomy m.usable idx) := by
  obtain ⟨r, hrun, hidx, -⟩ :=
    initialIndexes_boundary (A := []) (B := L) haof (by simpa [aofBytes] using hseek) hopen
  have hredo := redoable_indexRecords redoable_empty L
  refine ⟨r, _, hrun, hidx, fun c hc => (loadDBFromIndexedLog_db m hredo hc).1, ?_⟩
  simp only [haof, loadAppendOnlyFile_aofBytes, Outcome.returned.injEq]
  refine ⟨fun h => roomy_of_loaded m hredo fun m' hm c hc => (h m' hm c hc).symm, fun hroom m' hm c hc => ?_⟩
  rw [(loadDBFromIndexedLog_db m' hredo hc).2, Allocator.recovered_eq (hm ▸ hroom),
    recovered_indexRecords L hplain hincr]

/-- A log that sets a counter, increments it, and deletes another key. -/
def counterLog : List LogCmd := [setCounter, incrCounter, Op.logged (.del (ascii ['k'])) (by decide)]

theorem incrsOk_counter {c : LogCmd} {i : ℤ} (hop : c.op = .set (ascii ['n']) (decimal i)) (h1 : -2 ^ 31 ≤ i)
    (h2 : i ≤ 2 ^ 31 - 2) {L : List LogCmd} (hL : ∀ d ∈ L, ∀ k, d.op ≠ .incr k) :
    IncrsOk (c :: incrCounter :: L) := by
  rw [IncrsOk, KeyedLog.before_cons, KeyedLog.before_cons]
  refine ⟨?_, ?_, ?_⟩
  · intro k hk
    rw [hop] at hk
    cases hk
  · rintro k ⟨⟩ v hv
    refine ⟨i, h1, h2, ?_⟩
    rw [List.map_singleton, hop] at hv
    exact (Option.some.inj hv).symm
  · intro A d B hd k hk
    exact absurd hk (hL d (by simp [hd]) k)

theorem counterLog_incrsOk : IncrsOk counterLog :=
  incrsOk_counter (i := 9) (by decide +kernel) (by norm_num) (by norm_num) (by simp [Op.logged])

/-- The files of a first start over the log `L`. -/
def freshFiles (L : List LogCmd) : Files where
  aof := aofBytes L
  finalLogSeek := some 0
  finalLogSeekReplica := none
  checkpointLogSeek := none
  indexedLog := .ok Multimap.empty
  replica := .missing

theorem instant_recovery_counterLog :
    ∃ r idx, initialIndexesSequentialLogToIndexedLog (freshFiles counterLog) false = .returned r ∧
      r.result.files.indexedLog = .ok idx ∧
      (∀ c, idx.IsCursor c → (loadDBFromIndexedLog jemalloc idx c).loader.pc = .done) ∧
      ((∀ m' : Allocator, m'.usable = jemalloc.usable → ∀ c, idx.IsCursor c →
        loadAppendOnlyFile true (aofBytes counterLog) emptyDb = .returned (loadDBFromIndexedLog m' idx c).db) ↔
          Roomy jemalloc.usable idx) :=
  instant_recovery_eq_sequential_iff counterLog (by decide) counterLog_incrsOk rfl rfl rfl true jemalloc

/-- `SET n 999999` and `INCR n`: the counter comes back with what lies behind its block. -/
theorem instant_recovery_overruns :
    (∀ c ∈ [sixNines, incrCounter], c.op.Plain) ∧ IncrsOk [sixNines, incrCounter] ∧
    ∃ r idx db, initialIndexesSequentialLogToIndexedLog (freshFiles [sixNines, incrCounter]) false = .returned r ∧
      r.result.files.indexedLog = .ok idx ∧
      loadAppendOnlyFile true (aofBytes [sixNines, incrCounter]) emptyDb = .returned db ∧
      db (ascii ['n']) = some (decimal 1000000) ∧
      (loadDBFromIndexedLog jemalloc idx idx.cursor).db (ascii ['n']) = some (decimal 1000000 ++ [1, 2, 1, 110]) := by
  obtain ⟨r, hrun, hidx, -⟩ := initialIndexes_boundary (A := []) (B := [sixNines, incrCounter])
    (show (freshFiles [sixNines, incrCounter]).aof = _ from rfl)
    (show (chooseStart (freshFiles [sixNines, incrCounter]) false).seek = _ from rfl)
    (show _ = some Multimap.empty from rfl)
  refine ⟨by decide, ?_, r, _, _, hrun, hidx, loadAppendOnlyFile_aofBytes .., by decide +kernel, by decide +kernel⟩
  exact incrsOk_counter (i := 999999) (by decide +kernel) (by norm_num) (by norm_num) (by simp)

end RedisIR
