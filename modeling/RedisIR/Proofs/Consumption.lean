import RedisIR.Proofs.Equivalence
import RedisIR.Proofs.Indexer

/-! The online indexer consumes a growing log exactly once, as long as the words of the
commands fit the arrays of its queue. -/

namespace RedisIR

open CLib List Option

variable {e : Entry} {P : List Entry}

/-- The node has the words of the command, each up to its first zero byte. -/
structure RecordOf (e : Entry) (r : RecordToIndex) : Prop where
  command : r.command = e.command
  key : ∀ k ∈ e.argv[1]?, r.key = cstr k
  value : ∀ v ∈ e.argv[2]?, r.value = cstr v

theorem RecordOf.short {r : RecordToIndex} (h : RecordOf e r) : e.Short := by
  refine ⟨h.command ▸ r.command_fits, fun k hk => ?_, fun v hv => ?_⟩
  · rw [← h.key k hk]
    exact r.key_fits
  · rw [← h.value v hv]
    exact r.value_fits

theorem recordOf_of_queueNode {mem : NodeMemory} {r : RecordToIndex} (h : queueNode mem P e = some r) :
    RecordOf e r := by
  rw [queueNode, carriedBy_concat, addRecordToIndex] at h
  split_ifs at h
  obtain rfl := some.inj h
  refine ⟨rfl, fun k hk => ?_, fun v hv => ?_⟩
  · simp [Entry.carry, mem_def.mp hk]
  · simp [Entry.carry, mem_def.mp hv]

theorem recordOf_of_queueNodes {mem : NodeMemory} {R : List Entry} {rs : List RecordToIndex}
    (h : queueNodes mem P R = rs.map some) : List.Forall₂ RecordOf R rs := by
  induction R generalizing P rs with
  | nil =>
    obtain rfl : rs = [] := map_eq_nil_iff.mp h.symm
    exact .nil
  | cons e R ih =>
    cases rs with
    | nil => simp [queueNodes] at h
    | cons r rs =>
      obtain ⟨hr, hrs⟩ := List.cons.inj h
      exact .cons (recordOf_of_queueNode hr) (ih hrs)

/-- The nodes of all batches and of the queue are the commands `P` behind the log `A`, once
each and in order, and each batch comes with the position of the end of its last command. -/
structure ConsumedOnce (A P : List Entry) (bs : List Batch) (pending : List RecordToIndex) : Prop where
  records : List.Forall₂ RecordOf P (bs.flatMap Batch.records ++ pending)
  positions : EndsAt (entryBytes A) P 0 bs

theorem ConsumedOnce.short {A : List Entry} {bs : List Batch} {pending : List RecordToIndex}
    (h : ConsumedOnce A P bs pending) : ∀ e ∈ P, e.Short := by
  intro e he
  obtain ⟨i, hi, rfl⟩ := getElem_of_mem he
  exact (h.records.get hi (h.records.length_eq ▸ hi)).short

/-- A thread that begins at the end of `A` and sees in each round some first bytes of the
log reads the commands that are whole in what it sees, each once, exactly when their words
fit the queue. -/
theorem consumed_once_iff (mem : NodeMemory) {A B : List Entry} {files : Files}
    (hseek : files.finalLogSeek = some ((entryBytes A).length : ℤ)) (dbp : IndexedLog) {polls : List Bytes}
    (hpolls : ∀ file ∈ polls, file <+: entryBytes (A ++ B)) :
    (∃ s bs, indexerTrace mem polls (Indexer.start files dbp) = .returned (s, bs) ∧
        ConsumedOnce A (completeIn (reach polls - (entryBytes A).length) B) bs s.pending) ↔
      ∀ e ∈ completeIn (reach polls - (entryBytes A).length) B, e.Short := by
  refine ⟨fun ⟨_, _, _, h⟩ => h.short, fun hshort => ?_⟩
  have hnil : (entryBytes A ++ entryBytes []).length = (entryBytes A).length := by simp [entryBytes]
  obtain ⟨s, bs, _, -, htrace, hprog, -, hends⟩ :=
    indexerTrace_progress (entryBytes A) polls (P := []) (by simpa [entryBytes_append] using hpolls)
      (by rw [hnil]; simpa using hshort) (progress_start hseek mem dbp B) fun _ => rfl
  rw [hnil] at hprog hends
  exact ⟨s, bs, htrace, recordOf_of_queueNodes hprog.records, hends⟩

/-- The log is seen up to the middle of its first command, then up to the middle of its
second, then whole. -/
def counterPolls : List Bytes := [(aofBytes counterLog).take 10, (aofBytes counterLog).take 30, aofBytes counterLog]

theorem counterPolls_prefix : ∀ file ∈ counterPolls, file <+: entryBytes ([] ++ counterLog.map LogCmd.entry) := by
  intro file hfile
  rw [nil_append, ← aofBytes_entry]
  simp only [counterPolls, mem_cons, not_mem_nil, or_false] at hfile
  rcases hfile with rfl | rfl | rfl
  · exact take_prefix _ _
  · exact take_prefix _ _
  · exact prefix_refl _

theorem consumed_once_counterLog :
    ∃ s bs, indexerTrace (fun _ => (0, 0)) counterPolls (Indexer.start (freshFiles counterLog) Multimap.empty) =
        .returned (s, bs) ∧
      ConsumedOnce [] (completeIn (reach counterPolls - (entryBytes []).length) (counterLog.map LogCmd.entry)) bs
        s.pending := by
  refine (consumed_once_iff (fun _ => (0, 0)) rfl Multimap.empty counterPolls_prefix).mpr fun e he => ?_
  obtain ⟨c, hc, rfl⟩ := List.mem_map.mp ((completeIn_initial _ _).subset he)
  have hshort : ∀ c ∈ counterLog, c.op.Short := by decide
  exact LogCmd.short_entry (hshort c hc)

theorem indexerScan_long (mem : NodeMemory) (h : ¬ e.Short) (rest : Bytes) (fuel : ℕ) (s : Indexer) :
    indexerScan mem (fuel + 1) (e.bytes ++ rest) s = .overflowed := by
  have hnode : addRecordToIndex e.command (e.carry ⟨s.key, s.value⟩).key (e.carry ⟨s.key, s.value⟩).value
      (mem s.nodes) = none := by
    refine dif_neg fun hfits => h ⟨hfits.1, fun k hk => ?_, fun v hv => ?_⟩
    · simpa [Entry.carry, mem_def.mp hk] using hfits.2.1
    · simpa [Entry.carry, mem_def.mp hv] using hfits.2.2
  rw [indexerScan, if_neg (by simp [e.bytes_ne_nil]), e.readHeader_bytes]
  simp [e.indexerArgs_argv, hnode]

/-- `SET` of a key of fifty bytes, one more than the array of a node has room for. -/
def longSet : LogCmd := Op.logged (.set (replicate 50 107) (ascii ['v'])) (by decide)

theorem longSet_not_short : ¬ longSet.entry.Short := by
  intro h
  have hkey := h.2.1 (replicate 50 107) rfl
  exact absurd hkey (by decide)

/-- The thread reads the command and copies its key past the end of the array. -/
theorem long_key_overflows :
    indexerTrace (fun _ => (0, 0)) [aofBytes [longSet]] (Indexer.start (freshFiles [longSet]) Multimap.empty) =
      .overflowed := by
  have hbytes : aofBytes [longSet] = longSet.entry.bytes := by simp [aofBytes_entry, entryBytes]
  have hscan := indexerScan_long (fun _ => (0, 0)) longSet_not_short []
  rw [append_nil] at hscan
  have hpoll : indexerPoll (fun _ => (0, 0)) (Indexer.start (freshFiles [longSet]) Multimap.empty)
      longSet.entry.bytes = .overflowed := by
    rw [indexerPoll, show fseek longSet.entry.bytes (Indexer.start (freshFiles [longSet]) Multimap.empty).seek =
      longSet.entry.bytes from rfl, if_neg longSet.entry.bytes_ne_nil, hscan]
  rw [hbytes, indexerTrace, hpoll]

end RedisIR
