import RedisIR.Proofs.Durability
import RedisIR.Proofs.Position
import RedisIR.Proofs.Rebuild
import RedisIR.Spec.Replica

/-! The replica of the indexed log. A start-up run adds to it what it adds to the indexed
log, the commands from `FINAL_LOG_SEEK` on, and moves its position to the end of the log;
what the online indexer has written in between is missing from the replica. -/

namespace RedisIR

open CLib List Machine Option

variable {R : IndexedLog} {L : List LogCmd} {file : Option ℤ} {n : ℕ}

/-! ### A start-up run with a replica -/

theorem exec_records_replica (s : Indexing) (os : List (Option IndexOp)) :
    ((os.map Effect.record).foldl Effect.exec s).dbpReplica = s.dbpReplica.map fun m => os.foldl applyRecord m := by
  induction os generalizing s with
  | nil => simp
  | cons o os ih =>
    rw [map_cons, foldl_cons, ih]
    simp only [Effect.exec, Option.map_map]
    rfl

section

variable {files : Files} {dbp : IndexedLog} (hrep : (chooseStart files true).replicated = true)
  (hopen : (chooseStart files true).files.indexedLog.openW = some dbp)
  (hopenR : (chooseStart files true).files.replica.openW = some R)

include hrep hopen hopenR

/-- Both indexed logs get the commands that were read, and both positions the end. -/
theorem initialIndexes_replica {B : List LogCmd} (hne : files.aof ≠ [])
    (hread : fseek files.aof (chooseStart files true).seek = aofBytes B) :
    ∃ r, initialIndexesSequentialLogToIndexedLog files true = .returned r ∧
      r.result.files =
        { (chooseStart files true).files with
          finalLogSeek := some ((chooseStart files true).seek + (aofBytes B).length)
          indexedLog := .ok (indexRecords dbp B)
          finalLogSeekReplica := some ((chooseStart files true).seek + (aofBytes B).length)
          replica := .ok (indexRecords R B) } := by
  rw [aofBytes_entry] at hread ⊢
  refine ⟨_, initialIndexes_entries (keyed_entries B) hread hopen hne, ?_⟩
  have hrecs := exec_records ((chooseStart files true).opened dbp) (B.map LogCmd.indexOp)
  have hrecsR := exec_records_replica ((chooseStart files true).opened dbp) (B.map LogCmd.indexOp)
  have hopened : ((chooseStart files true).opened dbp).dbpReplica = some R := by
    simp [Start.opened, hrep, hopenR]
  rw [hopened] at hrecsR
  rw [InitialRun.result, indexOp_entries, foldl_append, initialFinish, hrep]
  simp only [if_true, cons_append, nil_append, foldl_cons, foldl_nil, Effect.exec, hrecs.1, hrecs.2,
    hrecsR]
  rfl

theorem initialIndexes_replica_nil (hnil : files.aof = []) :
    ∃ r, initialIndexesSequentialLogToIndexedLog files true = .returned r ∧
      r.result.files =
        { (chooseStart files true).files with
          finalLogSeek := some 0
          indexedLog := .ok dbp
          replica := .ok R } := by
  refine ⟨⟨(chooseStart files true).opened dbp, [.writeFinalLogSeek 0, .close],
    (chooseStart files true).replicated, 0⟩,
    ?_, ?_⟩
  · simp only [initialIndexesSequentialLogToIndexedLog, hopen, if_pos hnil]
    rfl
  · simp [InitialRun.result, Start.opened, foldl_cons, foldl_nil, Effect.exec, hrep, hopenR, elim_some]

end

/-! ### Positions -/

/-- The position file holds the end of the first `n` commands, or does not exist. -/
def Placed (L : List LogCmd) (file : Option ℤ) (n : ℕ) : Prop :=
  file = none ∧ n = 0 ∨ n ≤ L.length ∧ file = some (offset L n : ℤ)

theorem commandsBefore_neg (L : List LogCmd) : commandsBefore L (-1) = 0 := by
  rw [commandsBefore, countP_eq_zero]
  intro i _ h
  have := (of_decide_eq_true h).2
  omega

theorem Placed.commandsBefore_eq (h : Placed L file n) : commandsBefore L (readFinalLogSeek file) = n := by
  rcases h with ⟨rfl, rfl⟩ | ⟨hn, rfl⟩
  · exact commandsBefore_neg L
  · exact commandsBefore_offset hn

theorem Placed.le (h : Placed L file n) : n ≤ L.length := by
  rcases h with ⟨-, rfl⟩ | ⟨hn, -⟩
  · exact Nat.zero_le _
  · exact hn

theorem Placed.append (h : Placed L file n) (M : List LogCmd) : Placed (L ++ M) file n := by
  rcases h with h | ⟨hn, hfile⟩
  · exact .inl h
  · exact .inr ⟨by rw [length_append]; omega, by rw [hfile, offset_append hn]⟩

theorem placed_offset (L : List LogCmd) (n : ℕ) : Placed L (some (offset L n : ℤ)) (min n L.length) := by
  have htake : L.take (min n L.length) = L.take n := by
    rw [take_eq_take_iff]
    omega
  exact .inr ⟨Nat.min_le_right _ _, by rw [offset, offset, htake]⟩

/-! ### Safe runs -/

/-- The replica folds, for every key, to the replay of the log up to its position. -/
def Site.ReplicaComplete (s : Site) : Prop :=
  ∀ seek, s.files.finalLogSeekReplica = some seek →
    ∃ idx, s.files.replica = .ok idx ∧ ∀ k, view idx k = replayed (s.log.take (commandsBefore s.log seek)) k

/-- What the online indexer has indexed since the last start-up does not show in the replica
after the next one: each key is overwritten by the commands that are still to be indexed, or
it has the same value with and without the commands missed, or it is a counter that reads
the same and is incremented. -/
def Site.ReplicaSafe (s : Site) : Prop :=
  ∀ k, Overwritten k (s.log.drop s.indexed) ∨
    replayed (s.log.take s.replicated) k = replayed (s.log.take s.indexed) k ∨
    (0 < incrCount k (s.log.drop s.indexed) ∧
      counter (replayed (s.log.take s.replicated) k) = counter (replayed (s.log.take s.indexed) k))

/-- Logged commands are plain and increment `int`s, and start-ups miss nothing. -/
def SiteEvent.Safe (s : Site) : SiteEvent → Prop
  | .append c => c.op.Plain ∧ ∀ k, c.op = .incr k → IncrOk (redisSem.replay emptyDb (s.log.map LogCmd.op) k)
  | .startup => s.ReplicaSafe
  | _ => True

structure Site.Sound (s : Site) : Prop where
  aof : s.files.aof = aofBytes s.log
  plain : ∀ c ∈ s.log, c.op.Plain
  incrs : IncrsOk s.log
  position : ∃ p, Placed s.log s.files.finalLogSeek p
  opened : s.files.finalLogSeek = none ∧ s.files.replica = .missing ∧ s.files.checkpointLogSeek = none ∨
    s.files.finalLogSeek ≠ none ∧ ∃ idx, s.files.indexedLog = .ok idx
  replicaPosition : ∃ q, Placed s.log s.files.finalLogSeekReplica q
  replicaOpened : s.files.finalLogSeekReplica = none ∨ s.files.replica ≠ .missing
  replica : ∃ R, s.files.replica.openW = some R ∧ ∀ k, view R k = replayed (s.log.take s.replicated) k

theorem sound_new : Site.new.Sound where
  aof := rfl
  plain := by simp [Site.new]
  incrs := KeyedLog.before_nil _
  position := ⟨0, .inl ⟨rfl, rfl⟩⟩
  opened := .inl ⟨rfl, rfl, rfl⟩
  replicaPosition := ⟨0, .inl ⟨rfl, rfl⟩⟩
  replicaOpened := .inl rfl
  replica := ⟨Multimap.empty, rfl, fun k => by simp [Site.new, replayed, view_empty, KeyedLog.Sem.replay, emptyDb]⟩

variable {s : Site}

theorem Site.Sound.indexed_eq (h : s.Sound) : Placed s.log s.files.finalLogSeek s.indexed := by
  obtain ⟨p, hp⟩ := h.position
  rwa [Site.indexed, hp.commandsBefore_eq]

theorem Site.Sound.replicated_eq (h : s.Sound) : Placed s.log s.files.finalLogSeekReplica s.replicated := by
  obtain ⟨q, hq⟩ := h.replicaPosition
  rwa [Site.replicated, hq.commandsBefore_eq]

theorem Site.Sound.complete (h : s.Sound) : s.ReplicaComplete := by
  intro seek hseek
  obtain ⟨R, hR, hview⟩ := h.replica
  have hok : s.files.replica = .ok R := by
    rcases h.replicaOpened with hnone | hmissing
    · rw [hnone] at hseek
      cases hseek
    · revert hR hmissing
      cases s.files.replica with
      | missing => exact fun _ hm => absurd rfl hm
      | damaged => exact fun hR _ => by cases hR
      | ok m => exact fun hR _ => by rw [some.inj hR]
  refine ⟨R, hok, ?_⟩
  have hread : readFinalLogSeek s.files.finalLogSeekReplica = seek := by rw [hseek]; rfl
  rw [← hread]
  exact hview

/-! ### Events -/

theorem Site.Sound.append (h : s.Sound) {c : LogCmd} (hc : (SiteEvent.append c).Safe s) :
    ((SiteEvent.append c).exec s).Sound := by
  have hp := h.indexed_eq
  have hq := h.replicated_eq
  refine ⟨rfl, fun d hd => ?_, ?_, ⟨_, hp.append [c]⟩, h.opened, ⟨_, hq.append [c]⟩, h.replicaOpened, ?_⟩
  · rcases mem_append.mp hd with hd | hd
    · exact h.plain d hd
    · rw [mem_singleton.mp hd]
      exact hc.1
  · exact KeyedLog.before_concat h.incrs hc.2
  · obtain ⟨R, hR, hview⟩ := h.replica
    refine ⟨R, hR, fun k => ?_⟩
    have hsame : ((SiteEvent.append c).exec s).replicated = s.replicated := (hq.append [c]).commandsBefore_eq
    rw [hsame, hview]
    exact congrArg (replayed · k) (take_append_of_le_length hq.le).symm

/-- A batch writes the indexed log and its position, and nothing else. -/
theorem exec_writeToIndexedLog_files (ri : List RecordToIndex) (seek : ℤ) (stop : Option ℕ) (d : Indexing) :
    ∃ m, ((writeToIndexedLog ri seek stop).effects.foldl Effect.exec d).files =
      { d.files with indexedLog := .ok m, finalLogSeek := some seek } := by
  have hrecs := exec_records d ((handled stop ri).map RecordToIndex.indexOp)
  rw [writeToIndexedLog_effects, foldl_append]
  simp only [foldl_cons, foldl_nil, Effect.exec, hrecs.2]
  exact ⟨_, rfl⟩

section

variable (h : s.Sound)
include h

theorem Site.Sound.batch (ri : List RecordToIndex) (stop : Option ℕ) : ((SiteEvent.batch ri stop).exec s).Sound := by
  rw [SiteEvent.exec]
  cases hopen : s.files.indexedLog.openW with
  | none => exact h
  | some dbp =>
    dsimp only
    obtain ⟨m, hfiles⟩ := exec_writeToIndexedLog_files ri (offset s.log
      (commandsBefore s.log (readFinalLogSeek s.files.finalLogSeek) + ri.length)) stop ⟨s.files, dbp, none⟩
    rw [hfiles]
    exact ⟨h.aof, h.plain, h.incrs, ⟨_, placed_offset _ _⟩, .inr ⟨by simp, m, rfl⟩, h.replicaPosition,
      h.replicaOpened, h.replica⟩

theorem Site.Sound.chooseStart_eq :
    ∃ f dbp, chooseStart s.files true = ⟨offset s.log s.indexed, f, true⟩ ∧ f.indexedLog.openW = some dbp ∧
      f.replica = s.files.replica ∧ f.aof = s.files.aof ∧ f.finalLogSeekReplica = s.files.finalLogSeekReplica := by
  have hp := h.indexed_eq
  rcases h.opened with ⟨hnone, hrep, hcheck⟩ | ⟨hsome, idx, hidx⟩
  · rcases hp with ⟨-, h0⟩ | ⟨-, hsome⟩
    · refine ⟨{ s.files with indexedLog := .missing }, Multimap.empty, ?_, rfl, rfl, rfl, rfl⟩
      rw [h0]
      simp [chooseStart, hnone, hrep, hcheck, useReplica, readFinalLogSeek, checkpointStart, offset, aofBytes]
    · rw [hnone] at hsome
      cases hsome
  · rcases hp with ⟨hnone, -⟩ | ⟨-, hseek⟩
    · exact absurd hnone hsome
    · exact ⟨s.files, idx, chooseStart_ok s.files true hseek hidx, by rw [hidx]; rfl, rfl, rfl, rfl⟩

/-- After the commands `B` the replica has the value of the whole log exactly when the
commands it has missed do not show. -/
theorem Site.Sound.view_startup_iff (hR : ∀ k, view R k = replayed (s.log.take s.replicated) k)
    (k : CStr) :
    view (indexRecords R (s.log.drop s.indexed)) k = replayed s.log k ↔
      Overwritten k (s.log.drop s.indexed) ∨
        replayed (s.log.take s.replicated) k = replayed (s.log.take s.indexed) k ∨
        (0 < incrCount k (s.log.drop s.indexed) ∧
          counter (replayed (s.log.take s.replicated) k) = counter (replayed (s.log.take s.indexed) k)) := by
  have hsplit := take_append_drop s.indexed s.log
  have htake : recordSem.fold k none (s.log.take s.indexed) = replayed (s.log.take s.indexed) k := by
    refine fold_eq_replayed (fun c hc => h.plain c (mem_of_mem_take hc)) ?_ k
    have hincrs := h.incrs
    rw [← hsplit] at hincrs
    exact hincrs.of_append
  have hall : replayed s.log k = recordSem.fold k (replayed (s.log.take s.indexed) k) (s.log.drop s.indexed) := by
    rw [← fold_eq_replayed h.plain h.incrs, ← htake, ← recordSem.fold_append, hsplit]
  rw [view_indexRecords_apply, hR k, hall, fold_eq_iff]

/-- What a start-up run leaves: every command is indexed, and the replica has got those from
`FINAL_LOG_SEEK` on. -/
theorem Site.Sound.startup_exec :
    ∃ R f, (∀ k, view R k = replayed (s.log.take s.replicated) k) ∧ SiteEvent.startup.exec s = ⟨s.log, f⟩ ∧
      f.aof = aofBytes s.log ∧ f.finalLogSeek = some (offset s.log s.log.length : ℤ) ∧
      (∃ idx, f.indexedLog = .ok idx) ∧ f.replica = .ok (indexRecords R (s.log.drop s.indexed)) ∧
      (s.log = [] ∧ f.finalLogSeekReplica = s.files.finalLogSeekReplica ∨
        f.finalLogSeekReplica = some (offset s.log s.log.length : ℤ)) := by
  obtain ⟨f, dbp, hstart, hopen, hrep, haof, hseekR⟩ := h.chooseStart_eq
  obtain ⟨R, hR, hview⟩ := h.replica
  have hfiles : (chooseStart s.files true).files = f := by rw [hstart]
  have hflag : (chooseStart s.files true).replicated = true := by rw [hstart]
  have hseek : (chooseStart s.files true).seek = offset s.log s.indexed := by rw [hstart]
  rw [← hrep, ← hfiles] at hR
  rw [← hfiles] at hopen
  by_cases hnil : s.log = []
  · have hempty : s.files.aof = [] := by rw [h.aof, hnil]; rfl
    obtain ⟨r, hrun, hres⟩ := initialIndexes_replica_nil hflag hopen hR hempty
    refine ⟨R, _, hview, by rw [SiteEvent.exec, hrun], ?_, ?_, ?_, ?_, ?_⟩
    · rw [hres, hfiles, ← h.aof]
      exact haof
    · rw [hres, hnil]
      rfl
    · rw [hres]
      exact ⟨_, rfl⟩
    · rw [hres, hnil, drop_nil]
      rfl
    · rw [hres, hfiles]
      exact .inl ⟨hnil, hseekR⟩
  · have hne : s.files.aof ≠ [] := fun hempty => hnil (aofBytes_eq_nil (h.aof ▸ hempty))
    have hsplit := take_append_drop s.indexed s.log
    have hread : fseek s.files.aof (chooseStart s.files true).seek = aofBytes (s.log.drop s.indexed) := by
      have := fseek_aofBytes (s.log.take s.indexed) (s.log.drop s.indexed)
      rw [hsplit] at this
      rw [hseek, h.aof]
      exact this
    have hend : (chooseStart s.files true).seek + ((aofBytes (s.log.drop s.indexed)).length : ℤ) =
        offset s.log s.log.length := by
      rw [hseek, offset_length]
      conv_rhs => rw [← hsplit, aofBytes_append, length_append, Nat.cast_add]
      rfl
    obtain ⟨r, hrun, hres⟩ := initialIndexes_replica hflag hopen hR hne hread
    rw [hend] at hres
    refine ⟨R, _, hview, by rw [SiteEvent.exec, hrun], ?_, ?_, ?_, ?_, ?_⟩
    · rw [hres, hfiles, ← h.aof]
      exact haof
    · rw [hres]
    · rw [hres]
      exact ⟨_, rfl⟩
    · rw [hres]
    · rw [hres]
      exact .inr rfl

theorem Site.Sound.startup (hsafe : s.ReplicaSafe) : (SiteEvent.startup.exec s).Sound := by
  obtain ⟨R, f, hview, hexec, haof, hseek, hidx, hrep, hseekR⟩ := h.startup_exec
  rw [hexec]
  have hall : ∀ k, view (indexRecords R (s.log.drop s.indexed)) k = replayed s.log k := fun k =>
    (h.view_startup_iff hview k).mpr (hsafe k)
  have hplaced : Placed s.log f.finalLogSeekReplica s.log.length := by
    rcases hseekR with ⟨hnil, hsame⟩ | hend
    · have hq := h.replicated_eq
      have hzero : s.replicated = s.log.length := by
        have := hq.le
        rw [hnil] at this ⊢
        exact Nat.le_zero.mp this
      rw [hsame, ← hzero]
      exact hq
    · rw [hend]
      exact .inr ⟨le_rfl, rfl⟩
  refine ⟨haof, h.plain, h.incrs, ⟨_, .inr ⟨le_rfl, hseek⟩⟩, .inr ⟨by simp [hseek], hidx⟩,
    ⟨_, hplaced⟩, .inr (by simp [hrep]), ⟨_, by rw [hrep]; rfl, fun k => ?_⟩⟩
  rw [hall k, Site.replicated, hplaced.commandsBefore_eq, take_length]

/-- A start-up that is not safe leaves a replica that is not complete. -/
theorem Site.Sound.startup_iff : (SiteEvent.startup.exec s).ReplicaComplete ↔ s.ReplicaSafe := by
  refine ⟨fun hcomplete k => ?_, fun hsafe => (h.startup hsafe).complete⟩
  obtain ⟨R, f, hview, hexec, -, -, -, hrep, hseekR⟩ := h.startup_exec
  rw [hexec] at hcomplete
  rcases hseekR with ⟨hnil, -⟩ | hend
  · -- nothing is logged, so nothing is missed
    simp [hnil]
  · obtain ⟨idx, hidx, hfold⟩ := hcomplete _ hend
    obtain rfl := DbFile.ok.inj (hrep.symm.trans hidx)
    have hk := hfold k
    dsimp only at hk
    rw [commandsBefore_offset le_rfl, take_length] at hk
    exact (h.view_startup_iff hview k).mp hk

theorem Site.Sound.exec {e : SiteEvent} (hsafe : e.Safe s) : (e.exec s).Sound := by
  cases e with
  | append c => exact h.append hsafe
  | startup => exact h.startup hsafe
  | batch ri stop => exact h.batch ri stop
  | shutdown => exact h

end

/-- In every run of a new server whose events are safe, the replica is as complete as its
position says, and the next start-up keeps it so exactly when it is safe. -/
theorem replica_complete (es : List SiteEvent) (hsafe : Along siteStep (fun s e => e.Safe s) es Site.new) :
    (run siteStep es Site.new).1.ReplicaComplete ∧
      ((SiteEvent.startup.exec (run siteStep es Site.new).1).ReplicaComplete ↔
        (run siteStep es Site.new).1.ReplicaSafe) := by
  have hsound : (run siteStep es Site.new).1.Sound :=
    invariant (fun s e hs he => hs.exec he) sound_new hsafe
  exact ⟨hsound.complete, hsound.startup_iff⟩

/-- The online indexer repeats in one indexed log what both have. -/
def repeatedBatch : List SiteEvent :=
  [.append setCounter, .startup, .append setCounter, .batch [setNode] none, .startup]

theorem replica_complete_repeatedBatch :
    (run siteStep repeatedBatch Site.new).1.ReplicaComplete ∧
      ((SiteEvent.startup.exec (run siteStep repeatedBatch Site.new).1).ReplicaComplete ↔
        (run siteStep repeatedBatch Site.new).1.ReplicaSafe) := by
  have hset : ∀ s : Site, (SiteEvent.append setCounter).Safe s := fun s => ⟨by decide, by rintro k ⟨⟩⟩
  have hsame : ∀ k, replayed [setCounter] k = replayed [setCounter, setCounter] k := by
    intro k
    have hop : setCounter.op = .set (ascii ['n']) (ascii ['9']) := by decide
    simp only [replayed, map_cons, map_nil, hop, redisSem.replay_apply]
    simp only [KeyedLog.Sem.fold, foldl_cons, foldl_nil, KeyedLog.Sem.touch]
    split <;> rfl
  have hfirst : ∀ s : Site, s.log.take s.replicated = s.log.take s.indexed → s.ReplicaSafe :=
    fun s h k => .inr (.inl (by rw [h]))
  exact replica_complete repeatedBatch
    ⟨hset _, hfirst _ rfl, hset _, trivial, fun k => .inr (.inl (hsame k)), trivial⟩

/-- The online indexer writes a command that the replica then never gets. -/
def missedBatch : List SiteEvent :=
  [.append incrCounter, .startup, .append setCounter, .batch [setNode] none, .startup]

/-- The position of the replica is the end of the log, its counter is that of the first
command. -/
theorem replica_misses_batch :
    (run siteStep missedBatch Site.new).1.files.finalLogSeekReplica =
        some (aofBytes [incrCounter, setCounter]).length ∧
      (run siteStep missedBatch Site.new).1.files.replica.openR.map (fun idx => view idx (cstr (ascii ['n']))) =
        some (some (ascii ['1'])) ∧
      replayed [incrCounter, setCounter] (cstr (ascii ['n'])) = some (ascii ['9']) := by
  decide +kernel

end RedisIR
