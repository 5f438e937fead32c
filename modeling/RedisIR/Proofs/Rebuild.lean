import RedisIR.Proofs.Reindex

/-! Rebuilding a lost indexed log. A suffix of the sequential log gives a key its value
when it overwrites the key, when the key did not exist before it, or when it only counts
up from zero. -/

namespace RedisIR

open CLib

variable {B A : List LogCmd} {replicated : Bool}

/-- The value of `k` when the log is replayed from nothing. -/
def replayed (L : List LogCmd) (k : CStr) : Option Bytes := redisSem.replay emptyDb (L.map LogCmd.op) k.val

/-- After `A`, the commands `B` alone determine the value of `k`. -/
def Suffices (A B : List LogCmd) (k : CStr) : Prop :=
  Overwritten k B ∨ replayed A k = none ∨ (replayed A k = some zeroText ∧ 0 < incrCount k B)

/-- On plain logs with counters in range, the loaders fold what Redis replays. -/
theorem fold_eq_replayed {L : List LogCmd} (hplain : ∀ c ∈ L, c.op.Plain) (hincr : IncrsOk L) (k : CStr) :
    recordSem.fold k none L = replayed L k := by
  rw [replayed, redisSem.replay_apply]
  refine fold_agree k none L hplain fun A c B hL hop => ?_
  have := hincr A c B hL _ hop
  rwa [redisSem.replay_apply] at this

theorem counter_decimal {i : ℤ} (h1 : -2 ^ 31 ≤ i) (h2 : i < 2 ^ 31) : counter (some (decimal i)) = i :=
  atoi_decimal h1 h2

theorem exists_first_incr {k : CStr} (h : 0 < incrCount k B) :
    ∃ B₁ c B₂, B = B₁ ++ c :: B₂ ∧ incrCount k B₁ = 0 ∧ c.increments k = true := by
  induction B with
  | nil => simp [incrCount] at h
  | cons c B ih =>
    cases hinc : c.increments k with
    | true => exact ⟨[], c, B, rfl, rfl, hinc⟩
    | false =>
      obtain ⟨B₁, c', B₂, rfl, h0, hinc'⟩ := ih (by simpa [incrCount, hinc] using h)
      exact ⟨c :: B₁, c', B₂, rfl, by simpa [incrCount, hinc] using h0, hinc'⟩

/-- What the first increment of a log meets is a counter in range. -/
theorem incrOk_of_first {k : CStr} (hplain : ∀ c ∈ A ++ B, c.op.Plain) (hincr : IncrsOk (A ++ B))
    (hover : ¬ Overwritten k B) (hcount : 0 < incrCount k B) : IncrOk (replayed A k) := by
  obtain ⟨B₁, c, B₂, rfl, h0, hinc⟩ := exists_first_incr hcount
  have hover₁ : ¬ Overwritten k B₁ := fun ⟨c', hc', ho⟩ => hover ⟨c', by simp [hc'], ho⟩
  have hA : ∀ c ∈ A, c.op.Plain := fun c' hc' => hplain c' (by simp [hc'])
  have hAB : ∀ c ∈ A ++ B₁, c.op.Plain := by
    intro c' hc'
    rcases List.mem_append.mp hc' with h | h
    · exact hA c' h
    · exact hplain c' (by simp [h])
  have hsplit : A ++ (B₁ ++ c :: B₂) = (A ++ B₁) ++ c :: B₂ := by simp
  have hprefix : IncrsOk (A ++ B₁) := by
    rw [hsplit] at hincr
    exact hincr.of_append
  -- nothing between the end of `A` and this command touches `k`
  have hsame : replayed (A ++ B₁) k = replayed A k := by
    rw [← fold_eq_replayed hAB hprefix, recordSem.fold_append, fold_increments hover₁, if_pos h0,
      fold_eq_replayed hA hprefix.of_append]
  have hop : c.op = .incr k.val := by
    have hp := hplain c (by simp)
    revert hinc hp
    unfold LogCmd.increments
    cases c.op with
    | incr b =>
      intro hb hp
      rw [(cstr_eq_iff hp.2 k).mp (of_decide_eq_true hb)]
    | _ => rintro ⟨⟩
  rw [← hsame]
  exact hincr (A ++ B₁) c B₂ hsplit k.val hop

/-- An empty indexed log and the commands `B` fold to the value of the whole log exactly
when `B` suffices. -/
theorem fold_suffix_iff (hplain : ∀ c ∈ A ++ B, c.op.Plain) (hincr : IncrsOk (A ++ B)) (k : CStr) :
    recordSem.fold k none B = replayed (A ++ B) k ↔ Suffices A B k := by
  have hA : recordSem.fold k none A = replayed A k :=
    fold_eq_replayed (fun c hc => hplain c (by simp [hc])) hincr.of_append k
  rw [← fold_eq_replayed hplain hincr, recordSem.fold_append, hA, fold_eq_iff, Suffices]
  by_cases hover : Overwritten k B
  · simp [hover]
  · simp only [hover, false_or, counter_none, eq_comm (a := none)]
    refine or_congr_right' fun hsome => ?_
    by_cases h0 : 0 < incrCount k B
    · -- a counter that reads as zero is the text of zero
      obtain ⟨v, hv⟩ := Option.ne_none_iff_exists'.mp hsome
      obtain ⟨i, h1, h2, rfl⟩ := incrOk_of_first hplain hincr hover h0 v hv
      rw [hv, counter_decimal h1 (by omega), zeroText_eq, Option.some.injEq, and_iff_right h0, and_iff_left h0]
      refine ⟨fun h => by rw [← h], fun h => ?_⟩
      exact (decimal_injective_int h1 (by omega) (by norm_num) (by norm_num) h).symm
    · simp [h0]

/-! ### The start-up indexer without an indexed log -/

/-- Where a rebuild without a replica begins: at the last checkpoint if the indexed log is
replicated, at `FINAL_LOG_SEEK` if it is not. -/
def rebuildStart (files : Files) (replicated : Bool) : ℤ :=
  if replicated then checkpointStart files
  else if readFinalLogSeek files.finalLogSeek = -1 then 0 else readFinalLogSeek files.finalLogSeek

/-- No replica, or one that holds the records before its position. -/
def ReplicaConsistent (L : List LogCmd) (files : Files) : Prop :=
  files.replica = .missing ∨ ∃ A B idx, L = A ++ B ∧ files.replica = .ok idx ∧
    files.finalLogSeekReplica = some ((aofBytes A).length : ℤ) ∧
    ∀ k, view idx k = view (indexRecords Multimap.empty A) k

/-- The run leaves an indexed log from which every key folds to its replayed value. -/
def Rebuilt (L : List LogCmd) (r : InitialRun) : Prop :=
  ∃ idx, r.result.files.indexedLog = .ok idx ∧ ∀ k, view idx k = replayed L k

section

variable {files : Files} (hlost : files.indexedLog.openR = none)
include hlost

theorem chooseStart_unreplicated : chooseStart files false = ⟨rebuildStart files false, files, false⟩ := by
  simp [chooseStart, hlost, rebuildStart]

theorem chooseStart_no_replica (hrep : files.replica = .missing) :
    chooseStart files true = ⟨rebuildStart files true, { files with indexedLog := .missing }, true⟩ := by
  simp [chooseStart, hlost, rebuildStart, useReplica, hrep]

theorem chooseStart_replica {idx : IndexedLog} (hrep : files.replica = .ok idx) :
    chooseStart files true = ⟨readFinalLogSeek files.finalLogSeekReplica,
      { files with indexedLog := .ok idx, replica := .missing }, false⟩ := by
  simp [chooseStart, hlost, useReplica, hrep]

end

/-- A start from an empty store rebuilds the log exactly when what it reads suffices. -/
theorem rebuilt_iff_suffices (hplain : ∀ c ∈ A ++ B, c.op.Plain) (hincr : IncrsOk (A ++ B)) {r : InitialRun}
    (hres : r.result.files.indexedLog = .ok (indexRecords Multimap.empty B)) :
    Rebuilt (A ++ B) r ↔ ∀ k, Suffices A B k := by
  have hview : ∀ k, view (indexRecords Multimap.empty B) k = replayed (A ++ B) k ↔ Suffices A B k := by
    intro k
    rw [view_indexRecords_apply, view_empty]
    exact fold_suffix_iff hplain hincr k
  refine ⟨?_, ?_⟩
  · rintro ⟨idx, hidx, hall⟩ k
    obtain rfl : indexRecords Multimap.empty B = idx := DbFile.ok.inj (hres.symm.trans hidx)
    exact (hview k).mp (hall k)
  · exact fun h => ⟨_, hres, fun k => (hview k).mpr (h k)⟩

theorem rebuilt_from_empty (hplain : ∀ c ∈ A ++ B, c.op.Plain) (hincr : IncrsOk (A ++ B)) {files : Files}
    (hread : fseek files.aof (chooseStart files replicated).seek = aofBytes B)
    (hopen : (chooseStart files replicated).files.indexedLog.openW = some Multimap.empty) :
    ∃ r, initialIndexesSequentialLogToIndexedLog files replicated = .returned r ∧
      (Rebuilt (A ++ B) r ↔ ∀ k, Suffices A B k) := by
  obtain ⟨r, hrun, hres, -⟩ := initialIndexes_index hread hopen
  exact ⟨r, hrun, rebuilt_iff_suffices hplain hincr hres⟩

/-- A run that begins with a consistent replica at the replica's position. -/
theorem rebuilt_from_replica {L : List LogCmd} (hL : L = A ++ B) (hplain : ∀ c ∈ L, c.op.Plain) (hincr : IncrsOk L)
    {files : Files} (haof : files.aof = aofBytes L) {idx : IndexedLog}
    (hseek : (chooseStart files replicated).seek = (aofBytes A).length)
    (hopen : (chooseStart files replicated).files.indexedLog.openW = some idx)
    (hidx : ∀ k, view idx k = view (indexRecords Multimap.empty A) k) :
    ∃ r, initialIndexesSequentialLogToIndexedLog files replicated = .returned r ∧ Rebuilt L r := by
  obtain ⟨r, hrun, hres, -⟩ := initialIndexes_boundary (hL ▸ haof) hseek hopen
  refine ⟨r, hrun, _, hres, fun k => ?_⟩
  rw [view_indexRecords_apply, hidx k, view_indexRecords_apply, view_empty, ← recordSem.fold_append, ← hL]
  exact fold_eq_replayed hplain hincr k

/-- A run that cannot open the indexed log for writing leaves it as it is. -/
theorem not_rebuilt_of_damaged (L : List LogCmd) {files : Files}
    (hdamaged : (chooseStart files replicated).files.indexedLog = .damaged) :
    ∃ r, initialIndexesSequentialLogToIndexedLog files replicated = .returned r ∧ ¬ Rebuilt L r := by
  have hopen : (chooseStart files replicated).files.indexedLog.openW = none := by rw [hdamaged]; rfl
  simp only [initialIndexesSequentialLogToIndexedLog, hopen]
  refine ⟨_, rfl, ?_⟩
  rintro ⟨idx, hidx, -⟩
  rw [InitialRun.result, List.foldl_nil, hdamaged] at hidx
  cases hidx

/-- A lost indexed log is rebuilt exactly when a replica takes its place, or when the file
can be created anew and the log from the chosen position on suffices for every key. -/
theorem lost_index_rebuilt_iff {A B : List LogCmd} (hplain : ∀ c ∈ A ++ B, c.op.Plain)
    (hincr : IncrsOk (A ++ B)) {files : Files} {replicated : Bool} (haof : files.aof = aofBytes (A ++ B))
    (hlost : files.indexedLog.openR = none) (hreplica : ReplicaConsistent (A ++ B) files)
    (hstart : replicated = false ∨ files.replica = .missing →
      fseek files.aof (rebuildStart files replicated) = aofBytes B) :
    ∃ r, initialIndexesSequentialLogToIndexedLog files replicated = .returned r ∧
      (Rebuilt (A ++ B) r ↔ (replicated = true ∧ files.replica ≠ .missing) ∨
        ((replicated = true ∨ files.indexedLog = .missing) ∧ ∀ k, Suffices A B k)) := by
  cases replicated with
  | false =>
    have hchoose := chooseStart_unreplicated hlost
    cases hfile : files.indexedLog with
    | ok idx =>
      rw [hfile] at hlost
      cases hlost
    | damaged =>
      obtain ⟨r, hrun, hnot⟩ := not_rebuilt_of_damaged (A ++ B) (by rw [hchoose]; exact hfile)
      exact ⟨r, hrun, iff_of_false hnot (by simp)⟩
    | missing =>
      obtain ⟨r, hrun, hiff⟩ := rebuilt_from_empty hplain hincr (by rw [hchoose]; exact hstart (.inl rfl))
        (by rw [hchoose, hfile]; rfl)
      exact ⟨r, hrun, by simpa using hiff⟩
  | true =>
    rcases hreplica with hmissing | ⟨A', B', idx, hL, hok, hpos, hidx⟩
    · have hchoose := chooseStart_no_replica hlost hmissing
      obtain ⟨r, hrun, hiff⟩ := rebuilt_from_empty hplain hincr (by rw [hchoose]; exact hstart (.inr hmissing))
        (by rw [hchoose]; rfl)
      exact ⟨r, hrun, by simpa [hmissing] using hiff⟩
    · have hchoose := chooseStart_replica hlost hok
      obtain ⟨r, hrun, hrebuilt⟩ := rebuilt_from_replica hL hplain hincr haof (by rw [hchoose, hpos]; rfl)
        (by rw [hchoose]; rfl) hidx
      exact ⟨r, hrun, iff_of_true hrebuilt (.inl ⟨rfl, by simp [hok]⟩)⟩

/-- The files of a server whose indexed log is gone, with `FINAL_LOG_SEEK` at `seek`. -/
def lostFiles (L : List LogCmd) (seek : Option ℤ) : Files :=
  { freshFiles L with finalLogSeek := seek, indexedLog := .missing }

theorem lost_index_rebuilt_from_zero :
    ∃ r, initialIndexesSequentialLogToIndexedLog (lostFiles counterLog none) false = .returned r ∧
      (Rebuilt ([] ++ counterLog) r ↔ (false = true ∧ (lostFiles counterLog none).replica ≠ .missing) ∨
        ((false = true ∨ (lostFiles counterLog none).indexedLog = .missing) ∧ ∀ k, Suffices [] counterLog k)) :=
  lost_index_rebuilt_iff (A := []) (B := counterLog) (by decide) counterLog_incrsOk rfl rfl (.inl rfl)
    fun _ => rfl

/-- Without a replica the rebuild starts at the saved position, into an empty file: all
that was indexed before is lost. -/
theorem lost_index_not_rebuilt : ∃ r idx, initialIndexesSequentialLogToIndexedLog
        (lostFiles counterLog (some ((aofBytes counterLog).length : ℤ))) false = .returned r ∧
      r.result.files.indexedLog = .ok idx ∧ view idx (cstr (ascii ['n'])) = none ∧
      replayed counterLog (cstr (ascii ['n'])) = some (ascii ['1', '0']) := by
  obtain ⟨r, hrun, hres, -⟩ := initialIndexes_boundary (A := counterLog) (B := [])
    (show (lostFiles counterLog (some ((aofBytes counterLog).length : ℤ))).aof = _ by simp [lostFiles, freshFiles])
    (show (chooseStart (lostFiles counterLog (some ((aofBytes counterLog).length : ℤ))) false).seek = _ by
      rw [chooseStart_unreplicated rfl]
      decide +kernel)
    (show _ = some Multimap.empty by
      rw [chooseStart_unreplicated rfl]
      rfl)
  exact ⟨r, _, hrun, hres, by decide +kernel, by decide +kernel⟩

end RedisIR
