import RedisIR.Proofs.Rebuild
import RedisIR.Spec.Checkpoint

/-! What a checkpoint is worth for a rebuild. The position it saves is the end of a
command, but the start-up indexer, which does the rebuild, skips the `SETCHECKPOINT`
records that the checkpoint has logged after it. -/

namespace RedisIR

open CLib List Machine

/-- The position is the end of a command of the log, or its beginning. -/
def Boundary (L : List LogCmd) (seek : ℕ) : Prop := ∃ A B, L = A ++ B ∧ seek = (aofBytes A).length

theorem Boundary.extend {L L' : List LogCmd} {seek : ℕ} (h : Boundary L seek) (hL : L <+: L') : Boundary L' seek := by
  obtain ⟨A, B, rfl, hseek⟩ := h
  obtain ⟨E, rfl⟩ := hL
  exact ⟨A, B ++ E, by simp, hseek⟩

variable (s : Checkpointing) (L : List LogCmd)

theorem boundary_offset (n : ℕ) : Boundary L (offset L n) :=
  ⟨L.take n, L.drop n, (take_append_drop n L).symm, rfl⟩

/-- The checkpointer's `seek_log_file`. -/
def CheckpointPc.seek : CheckpointPc → Option ℕ
  | .idle => none
  | .visiting seek _ => some seek
  | .ended seek => some seek

/-- The positions of the indexer and of the checkpointer are at command ends. -/
structure Checkpointing.AtBoundaries (s : Checkpointing) : Prop where
  indexer : Boundary s.log s.seekLogFile
  checkpointer : ∀ seek, s.checkpointer.seek = some seek → Boundary s.log seek

/-! ### One event -/

theorem logOperation_grows (o : Op) : L <+: logOperation L o := by
  unfold logOperation
  split_ifs
  · exact prefix_append _ _
  · exact prefix_refl _

theorem issue_log_grows (c : Cmd) : s.log <+: (s.issue c).log := by
  simp only [Checkpointing.issue]
  cases (call s.indexedLog c s.server).propagated.bind Cmd.logOp with
  | none => exact prefix_refl _
  | some o => exact logOperation_grows _ _

/-- What an event can do: it appends to the log, the indexer's position moves to a command
end, and the checkpointer keeps its position or takes over the indexer's. -/
structure Moves (s s' : Checkpointing) : Prop where
  log : s.log <+: s'.log
  indexer : s'.seekLogFile = s.seekLogFile ∨ ∃ n, s'.seekLogFile = offset s.log n
  checkpointer : ∀ seek, s'.checkpointer.seek = some seek → s.checkpointer.seek = some seek ∨ seek = s.seekLogFile

theorem Moves.of_log {s s' : Checkpointing} (hlog : s.log <+: s'.log) (hseek : s'.seekLogFile = s.seekLogFile)
    (hpc : s'.checkpointer.seek = s.checkpointer.seek) : Moves s s' :=
  ⟨hlog, .inl hseek, fun _ h => .inl (hpc ▸ h)⟩

theorem Moves.refl : Moves s s := .of_log (prefix_refl _) rfl rfl

theorem moves_exec (e : CheckpointEvent) : Moves s (e.exec s) := by
  cases e with
  | client c =>
    refine .of_log ?_ rfl rfl
    simp only [CheckpointEvent.exec]
    split_ifs
    · exact prefix_append _ _
    · exact prefix_refl _
  | loader | switch on => exact .of_log (prefix_refl _) rfl rfl
  | select => exact .of_log (logOperation_grows s.log .select) rfl rfl
  | indexed n idx => exact ⟨prefix_refl _, .inr ⟨n, rfl⟩, fun _ h => .inl h⟩
  | begin keys =>
    simp only [CheckpointEvent.exec]
    split
    · split_ifs
      · exact ⟨prefix_refl _, .inl rfl, fun _ h => .inr (Option.some.inj h).symm⟩
      · exact .refl s
    · exact .refl s
  | visit =>
    simp only [CheckpointEvent.exec]
    split
    · next seek k keys hpc =>
      split_ifs
      · exact .of_log (issue_log_grows s (.setCheckpoint (cstr k).val NULL_ARG)) rfl (by rw [hpc]; rfl)
      · exact .of_log (prefix_refl _) rfl (by rw [hpc]; rfl)
    · exact .refl s
  | visitNew k =>
    simp only [CheckpointEvent.exec]
    split
    · split_ifs
      · exact .of_log (issue_log_grows s (.setCheckpoint (cstr k).val NULL_ARG)) rfl rfl
      · exact .refl s
    · exact .refl s
  | finish id =>
    simp only [CheckpointEvent.exec]
    split
    · next seek hpc =>
      exact .of_log (issue_log_grows s (.checkpointEnd (decimal id) NULL_ARG)) rfl (by rw [hpc]; rfl)
    · exact .refl s
  | store =>
    simp only [CheckpointEvent.exec]
    split
    · exact ⟨prefix_refl _, .inl rfl, fun _ h => by cases h⟩
    · exact .refl s

theorem Checkpointing.AtBoundaries.step {s s' : Checkpointing} (h : s.AtBoundaries) (hmoves : Moves s s') :
    s'.AtBoundaries := by
  refine ⟨?_, ?_⟩
  · rcases hmoves.indexer with hsame | ⟨n, hn⟩
    · rw [hsame]
      exact h.indexer.extend hmoves.log
    · rw [hn]
      exact (boundary_offset s.log n).extend hmoves.log
  · intro seek hseek
    rcases hmoves.checkpointer seek hseek with hsame | rfl
    · exact (h.checkpointer seek hsame).extend hmoves.log
    · exact h.indexer.extend hmoves.log

/-! ### The saved position -/

/-- Whatever is logged after `L`, a start-up run that begins at `seek` with an empty indexed
log brings back the value of every key. -/
def SuffixSufficient (L : List LogCmd) (seek : ℕ) : Prop :=
  ∀ E : List LogCmd, (∀ c ∈ L ++ E, c.op.Plain) → IncrsOk (L ++ E) → ∀ (files : Files) (replicated : Bool),
    files.aof = aofBytes (L ++ E) → (chooseStart files replicated).seek = seek →
    (chooseStart files replicated).files.indexedLog.openW = some Multimap.empty →
    ∃ r, initialIndexesSequentialLogToIndexedLog files replicated = .returned r ∧ Rebuilt (L ++ E) r

theorem Suffices.extend {A B : List LogCmd} {k : CStr} (h : Suffices A B k) (E : List LogCmd) :
    Suffices A (B ++ E) k := by
  rcases h with ⟨c, hc, hover⟩ | hnone | ⟨hzero, hcount⟩
  · exact .inl ⟨c, by simp [hc], hover⟩
  · exact .inr (.inl hnone)
  · refine .inr (.inr ⟨hzero, ?_⟩)
    simp only [incrCount, countP_append] at hcount ⊢
    omega

/-- The files of a server whose indexed log and its replica are lost after a checkpoint. -/
def checkpointedFiles (L : List LogCmd) (seek : ℕ) : Files :=
  { freshFiles L with checkpointLogSeek := some (seek : ℤ), indexedLog := .missing }

theorem chooseStart_checkpointed (seek : ℕ) :
    chooseStart (checkpointedFiles L seek) true = ⟨seek, checkpointedFiles L seek, true⟩ := by
  have hne : (seek : ℤ) ≠ -1 := by omega
  simp [chooseStart, checkpointedFiles, freshFiles, readFinalLogSeek, DbFile.openR, useReplica, checkpointStart, hne]

/-- The suffix from the end of `A` suffices for every later log exactly when it suffices
for the present one. -/
theorem suffixSufficient_iff {A B : List LogCmd} (hplain : ∀ c ∈ A ++ B, c.op.Plain) (hincr : IncrsOk (A ++ B)) :
    SuffixSufficient (A ++ B) (aofBytes A).length ↔ ∀ k, Suffices A B k := by
  refine ⟨?_, ?_⟩
  · intro h
    have hstart := chooseStart_checkpointed (A ++ B ++ []) (aofBytes A).length
    obtain ⟨r, hrun, hrebuilt⟩ := h [] (by simpa using hplain) (by simpa using hincr)
      (checkpointedFiles (A ++ B ++ []) (aofBytes A).length) true rfl (by rw [hstart]) (by rw [hstart]; rfl)
    obtain ⟨r', hrun', hres, -⟩ := initialIndexes_boundary (A := A) (B := B ++ [])
      (show (checkpointedFiles (A ++ B ++ []) (aofBytes A).length).aof = _ by rw [← append_assoc]; rfl)
      (by rw [hstart]) (by rw [hstart]; rfl)
    rw [hrun] at hrun'
    obtain rfl := Outcome.returned.inj hrun'
    rw [append_nil] at hres hrebuilt
    exact (rebuilt_iff_suffices hplain hincr hres).mp hrebuilt
  · intro h E hplain' hincr' files replicated haof hseek hopen
    rw [append_assoc] at hplain' hincr' haof ⊢
    obtain ⟨r, hrun, hres, -⟩ := initialIndexes_boundary haof hseek hopen
    exact ⟨r, hrun, (rebuilt_iff_suffices hplain' hincr' hres).mpr fun k => (h k).extend E⟩

/-- Whenever `checkpointProcess` stores its position in `CHECKPOINT_LOG_SEEK`, the log from
there on brings back every key, now and later, exactly when the commands logged since then
suffice for every key without the checkpoint's own records. -/
theorem checkpoint_suffix_iff {s : Checkpointing} (hs : s.AtBoundaries) {es : List CheckpointEvent}
    (hes : Along checkpointStep (fun s e => e.Enabled s) es s) {seek : ℕ}
    (hended : (run checkpointStep es s).1.checkpointer = .ended seek)
    (hon : (run checkpointStep es s).1.checkpointState = true)
    (hplain : ∀ c ∈ (run checkpointStep es s).1.log, c.op.Plain)
    (hincr : IncrsOk (run checkpointStep es s).1.log) :
    (CheckpointEvent.store.exec (run checkpointStep es s).1).checkpointLogSeek = some (seek : ℤ) ∧
      ∃ A B, (run checkpointStep es s).1.log = A ++ B ∧ seek = (aofBytes A).length ∧
        (SuffixSufficient (run checkpointStep es s).1.log seek ↔ ∀ k, Suffices A B k) := by
  have hat : (run checkpointStep es s).1.AtBoundaries :=
    invariant (fun s e hs _ => hs.step (moves_exec s e)) hs hes
  refine ⟨?_, ?_⟩
  · simp only [CheckpointEvent.exec, hended, hon, if_true]
  · obtain ⟨A, B, hlog, rfl⟩ := hat.checkpointer seek (by rw [hended]; rfl)
    refine ⟨A, B, hlog, rfl, ?_⟩
    rw [hlog] at hplain hincr ⊢
    exact suffixSufficient_iff hplain hincr

theorem fresh_atBoundaries (m : Allocator) : (Checkpointing.fresh m).AtBoundaries :=
  ⟨⟨[], [], rfl, rfl⟩, fun _ h => by cases h⟩

/-- A client sets a key, the online indexer catches up, and a checkpoint runs to its end. -/
def checkpointRun : List CheckpointEvent :=
  [.client setCounter, .indexed 1 Multimap.empty, .begin [ascii ['n']], .visit, .finish 1]

/-- The log that it leaves: the `SET`, a `SETCHECKPOINT` and a `CHECKPOINTEND`. -/
def checkpointLog : List LogCmd := (run checkpointStep checkpointRun (.fresh jemalloc)).1.log

theorem checkpointRun_enabled :
    Along checkpointStep (fun s e => e.Enabled s) checkpointRun (.fresh jemalloc) := by
  refine ⟨trivial, le_refl 1, ⟨by decide, fun k => ?_⟩, trivial, trivial, trivial⟩
  have hdb : ∀ db : Db, db = setKey emptyDb (ascii ['n']) (ascii ['9']) →
    (k ∈ [ascii ['n']] ↔ (db k).isSome) := by
    rintro db rfl
    by_cases hk : k = ascii ['n'] <;> simp [setKey, emptyDb, hk]
  exact hdb _ rfl

theorem incrsOk_of_no_incr {L : List LogCmd} (h : ∀ c ∈ L, c.op.name ≠ INCR_COMMAND) : IncrsOk L := by
  intro A c B hL k hop
  refine absurd ?_ (h c (by simp [hL]))
  rw [hop]
  rfl

theorem checkpoint_suffix_checkpointRun :
    (CheckpointEvent.store.exec (run checkpointStep checkpointRun (.fresh jemalloc)).1).checkpointLogSeek =
        some ((27 : ℕ) : ℤ) ∧ ∃ A B, (run checkpointStep checkpointRun (.fresh jemalloc)).1.log = A ++ B ∧
        27 = (aofBytes A).length ∧
        (SuffixSufficient (run checkpointStep checkpointRun (.fresh jemalloc)).1.log 27 ↔
          ∀ k, Suffices A B k) :=
  checkpoint_suffix_iff (fresh_atBoundaries jemalloc) checkpointRun_enabled (by decide +kernel) (by decide +kernel)
    (by decide +kernel) (incrsOk_of_no_incr (by decide +kernel))

/-- The checkpoint is complete and its position saved, but a rebuild from there loses the
key that it has visited. -/
theorem checkpoint_loses_key :
    (CheckpointEvent.store.exec (run checkpointStep checkpointRun (.fresh jemalloc)).1).checkpointLogSeek =
        some 27 ∧
      ∃ r idx, initialIndexesSequentialLogToIndexedLog (checkpointedFiles checkpointLog 27) true = .returned r ∧
        r.result.files.indexedLog = .ok idx ∧ view idx (cstr (ascii ['n'])) = none ∧
        replayed checkpointLog (cstr (ascii ['n'])) = some (ascii ['9']) := by
  have hstart := chooseStart_checkpointed checkpointLog 27
  obtain ⟨r, hrun, hres, -⟩ := initialIndexes_boundary (A := checkpointLog.take 1) (B := checkpointLog.drop 1)
    (show (checkpointedFiles checkpointLog 27).aof = _ by rw [take_append_drop]; rfl)
    (by rw [hstart]; decide +kernel) (by rw [hstart]; rfl)
  exact ⟨by decide +kernel, r, _, hrun, hres, by decide +kernel, by decide +kernel⟩

end RedisIR
