import RedisIR.Proofs.Equivalence
import RedisIR.Proofs.Indexer
import RedisIR.Spec.Durability

/-! Crashes of the two indexers. A batch syncs the indexed log before it writes the
position; the start-up indexer writes the position before it closes the indexed log, and a
crash between the two leaves the position ahead. -/

namespace RedisIR

open CLib List Machine

variable {L P R : List LogCmd}
variable {n : ℕ} {replicated : Bool}

/-! ### Tracked effects -/

/-- Operations for the commands from number `n` on. -/
def numbered : ℕ → List (Option IndexOp) → List Applied
  | _, [] => []
  | n, o :: os => ⟨n, o⟩ :: numbered (n + 1) os

theorem map_op_numbered (n : ℕ) (os : List (Option IndexOp)) : (numbered n os).map Applied.op = os := by
  induction os generalizing n with
  | nil => rfl
  | cons o os ih => rw [numbered, map_cons, ih]

theorem exists_mem_numbered {i : ℕ} {os : List (Option IndexOp)} (h1 : n ≤ i) (h2 : i < n + os.length) :
    ∃ a ∈ numbered n os, a.number = i := by
  induction os generalizing n with
  | nil => simp at h2; omega
  | cons o os ih =>
    rcases Nat.eq_or_lt_of_le h1 with rfl | hlt
    · exact ⟨⟨n, o⟩, by simp [numbered], rfl⟩
    · obtain ⟨a, ha, hi⟩ := ih hlt (by simp at h2; omega)
      exact ⟨a, by simp [numbered, ha], hi⟩

variable (s : ℤ) (es : List Effect)

theorem tracked_indexing (t : Tracked) : (es.foldl Tracked.exec t).indexing = es.foldl Effect.exec t.indexing := by
  induction es generalizing t with
  | nil => rfl
  | cons e es ih =>
    rw [foldl_cons, ih]
    cases e <;> rfl

theorem tracked_records (os : List (Option IndexOp)) (t : Tracked) :
    (os.map Effect.record).foldl Tracked.exec t =
      ⟨(os.map Effect.record).foldl Effect.exec t.indexing, t.next + os.length, t.opened ++ numbered t.next os,
        t.durable⟩ := by
  induction os generalizing t with
  | nil => simp [numbered]
  | cons o os ih =>
    rw [map_cons, foldl_cons, ih]
    simp [Tracked.exec, numbered]
    omega

theorem tracked_onReplica {rest : List Effect} (h : ∀ e ∈ rest, e.OnReplica) (t : Tracked) :
    (rest.foldl Tracked.exec t).durable = t.durable := by
  induction rest generalizing t with
  | nil => rfl
  | cons e rest ih =>
    rw [foldl_cons, ih fun e' he' => h e' (by simp [he'])]
    have he := h e (by simp)
    cases e with
    | writeFinalLogSeekReplica seek => rfl
    | closeReplica => rfl
    | _ => exact he.elim

/-! ### Crash points -/

variable {d : Disk} {seek : ℤ} {start : Indexing} {os : List (Option IndexOp)} {point : ℕ}

theorem crash_records (h : point ≤ os.length) :
    d.crash seek start (os.map Effect.record ++ es) point = ⟨d.log, start.files, d.durable⟩ := by
  have htake : (os.map Effect.record ++ es).take point = (os.take point).map Effect.record := by
    rw [take_append_of_le_length (by simpa using h), map_take]
  simp only [Disk.crash, htake, tracked_records, (exec_records start (os.take point)).2]

theorem crash_after (h : os.length ≤ point) :
    d.crash seek start (os.map Effect.record ++ es) point =
      let t := (es.take (point - os.length)).foldl Tracked.exec
        ⟨(os.map Effect.record).foldl Effect.exec start, commandsBefore d.log seek + os.length,
          d.durable ++ numbered (commandsBefore d.log seek) os, d.durable⟩
      ⟨d.log, t.indexing.files, t.durable⟩ := by
  have htake : (os.map Effect.record ++ es).take point =
      os.map Effect.record ++ es.take (point - os.length) := by
    rw [take_append, length_map, take_of_length_le (by simpa using h)]
  simp [Disk.crash, htake, foldl_append, tracked_records]

theorem crash_startup_written (rest : List Effect) :
    d.crash seek start (startupEffects os s rest) (os.length + 1) =
      ⟨d.log, { start.files with finalLogSeek := some s }, d.durable⟩ := by
  rw [startupEffects, crash_after _ (by omega), Nat.add_sub_cancel_left]
  simp [take_succ_cons, take_zero, foldl_cons, foldl_nil, Tracked.exec, Effect.exec,
    (exec_records start os).2]

theorem crash_startup_closed {rest : List Effect} (hrest : ∀ e ∈ rest, e.OnReplica)
    (h : os.length + 2 ≤ point) :
    ∃ f, d.crash seek start (startupEffects os s rest) point =
        ⟨d.log, f, d.durable ++ numbered (commandsBefore d.log seek) os⟩ ∧
      f.primary = (start.files.aof, some s, start.files.checkpointLogSeek, .ok (os.foldl applyRecord start.dbp)) := by
  obtain ⟨k, rfl⟩ : ∃ k, point = os.length + (k + 2) := ⟨point - os.length - 2, by omega⟩
  have hrest' : ∀ e ∈ rest.take k, e.OnReplica := fun e he => hrest e (mem_of_mem_take he)
  have hexec := exec_startupEffects os s hrest' start
  rw [startupEffects, foldl_append] at hexec
  have hdurable : ∀ t : Tracked,
      ((.writeFinalLogSeek s :: .close :: rest.take k).foldl Tracked.exec t).durable = t.opened := by
    intro t
    rw [foldl_cons, foldl_cons, tracked_onReplica hrest']
    rfl
  rw [startupEffects, crash_after _ (by omega), Nat.add_sub_cancel_left]
  simp only [take_succ_cons, tracked_indexing, hdurable]
  exact ⟨_, rfl, hexec⟩

def batchEffects (os : List (Option IndexOp)) (seek : ℤ) : List Effect :=
  os.map Effect.record ++ [.sync, .writeFinalLogSeek seek]

/-- A crash of a batch after its records are in the file: the position may still be the
old one. -/
theorem crash_batch_synced (h : os.length < point) :
    ∃ f, d.crash seek start (batchEffects os s) point =
        ⟨d.log, f, d.durable ++ numbered (commandsBefore d.log seek) os⟩ ∧ f.aof = start.files.aof ∧
      f.checkpointLogSeek = start.files.checkpointLogSeek ∧
      f.indexedLog = .ok (os.foldl applyRecord start.dbp) ∧
      (f.finalLogSeek = start.files.finalLogSeek ∨ f.finalLogSeek = some s) := by
  have hrecs := exec_records start os
  obtain ⟨k, rfl⟩ : ∃ k, point = os.length + (k + 1) := ⟨point - os.length - 1, by omega⟩
  rw [batchEffects, crash_after _ (by omega), Nat.add_sub_cancel_left]
  cases k with
  | zero =>
    simp only [take_succ_cons, take_zero, foldl_cons, foldl_nil, Tracked.exec, Effect.exec,
      hrecs.1, hrecs.2]
    exact ⟨_, rfl, rfl, rfl, rfl, .inl rfl⟩
  | succ k =>
    simp only [take_succ_cons, take_nil, foldl_cons, foldl_nil, Tracked.exec, Effect.exec,
      hrecs.1, hrecs.2]
    exact ⟨_, rfl, rfl, rfl, rfl, .inr rfl⟩

/-! ### Sound disks -/

/-- What one of the indexers does for the command `c`. -/
def RecordFor (o : Option IndexOp) (c : LogCmd) : Prop :=
  o = c.indexOp ∨ ∃ r : RecordToIndex, r.command = cstr c.op.name ∧ r.key = cstr c.op.arg1 ∧ o = r.indexOp

/-- The disk between runs: the indexed log is what the tracked operations make of an empty
one, each of them comes from its command, and `FINAL_LOG_SEEK`, if there is one, is the end
of a command up to which the indexed log has everything. -/
structure Disk.Sound (d : Disk) : Prop where
  aof : d.files.aof = aofBytes d.log
  store : d.files.indexedLog.openW = some ((d.durable.map Applied.op).foldl applyRecord Multimap.empty)
  meant : ∀ a ∈ d.durable, ∃ c, d.log[a.number]? = some c ∧ RecordFor a.op c
  position : (d.files.finalLogSeek = none ∧ d.files.checkpointLogSeek = none) ∨
    ∃ n ≤ d.log.length, d.files.finalLogSeek = some (offset d.log n : ℤ) ∧
      (∃ idx, d.files.indexedLog = .ok idx) ∧ ∀ i < n, d.Contains i

theorem Disk.Sound.consistent (h : d.Sound) : d.Consistent := by
  intro seek hseek i hi
  rcases h.position with ⟨hnone, -⟩ | ⟨n, hn, hsome, -, hall⟩
  · rw [hnone] at hseek
    cases hseek
  · rw [hsome] at hseek
    obtain rfl := Option.some.inj hseek
    exact hall i ((liesBefore_offset hn i).mp hi)

theorem numbered_meant {A : List LogCmd} (hL : L = A ++ P ++ R) (hos : List.Forall₂ RecordFor os P) :
    ∀ a ∈ numbered A.length os, ∃ c, L[a.number]? = some c ∧ RecordFor a.op c := by
  induction hos generalizing A with
  | nil => simp [numbered]
  | @cons o c os P hoc _ ih =>
    intro a ha
    rcases mem_cons.mp ha with rfl | ha
    · refine ⟨c, ?_, hoc⟩
      simp [hL]
    · have hnum : numbered (A.length + 1) os = numbered (A ++ [c]).length os := by simp
      exact ih (A := A ++ [c]) (by simp [hL]) a (hnum ▸ ha)

theorem countP_lt_range (n m : ℕ) : (List.range m).countP (· < n) = min n m := by
  induction m with
  | zero => simp
  | succ m ih =>
    rw [range_succ, countP_append, ih]
    by_cases h : m < n
    · simp [h]
      omega
    · simp [h]
      omega

theorem commandsBefore_offset (hn : n ≤ L.length) : commandsBefore L (offset L n) = n := by
  have hlt : ∀ i, decide (LiesBefore L (offset L n) i) = decide (i < n) := fun i =>
    decide_eq_decide.mpr (liesBefore_offset hn i)
  simp [commandsBefore, hlt, countP_lt_range, Nat.min_eq_left hn]

/-- The indexer has opened the indexed log of the disk, or created it. -/
structure Disk.Opened (d : Disk) (start : Indexing) : Prop where
  aof : start.files.aof = d.files.aof
  finalLogSeek : start.files.finalLogSeek = d.files.finalLogSeek
  checkpointLogSeek : start.files.checkpointLogSeek = d.files.checkpointLogSeek
  indexedLog : start.files.indexedLog = .ok start.dbp
  dbp : start.dbp = (d.durable.map Applied.op).foldl applyRecord Multimap.empty

section

variable (h : d.Sound) (ho : d.Opened start) (hn : n ≤ d.log.length) (hall : ∀ i < n, d.Contains i)
include h ho hn hall

/-- A run that began at the command `n` has added the records `os` to the indexed log and
left the position alone or moved it behind them: the disk is sound again. -/
theorem Disk.Sound.indexed (hdrop : d.log.drop n = P ++ R) (hos : List.Forall₂ RecordFor os P) {f : Files}
    (haof : f.aof = start.files.aof) (hcheck : f.checkpointLogSeek = start.files.checkpointLogSeek)
    (hidx : f.indexedLog = .ok (os.foldl applyRecord start.dbp))
    (hseek : f.finalLogSeek = start.files.finalLogSeek ∨ f.finalLogSeek = some (offset d.log (n + os.length) : ℤ)) :
    Disk.Sound ⟨d.log, f, d.durable ++ numbered n os⟩ := by
  have hlog : d.log = d.log.take n ++ P ++ R := by rw [append_assoc, ← hdrop, take_append_drop]
  have htake : (d.log.take n).length = n := by simp [hn]
  have hcontains : ∀ i < n + os.length, Disk.Contains ⟨d.log, f, d.durable ++ numbered n os⟩ i := by
    intro i hi
    by_cases hlt : i < n
    · obtain ⟨a, ha, hnum⟩ := hall i hlt
      exact ⟨a, mem_append_left _ ha, hnum⟩
    · obtain ⟨a, ha, hnum⟩ := exists_mem_numbered (not_lt.mp hlt) hi
      exact ⟨a, mem_append_right _ ha, hnum⟩
  refine ⟨(haof.trans ho.aof).trans h.aof, ?_, fun a ha => ?_, ?_⟩
  · rw [map_append, foldl_append, map_op_numbered, hidx, ho.dbp]
    rfl
  · rcases mem_append.mp ha with ha | ha
    · exact h.meant a ha
    · exact numbered_meant hlog hos a (by rwa [htake])
  · rcases hseek with hold | hnew
    · rcases h.position with ⟨hnone, hnone'⟩ | ⟨m, hm, hsome, -, hall'⟩
      · exact .inl ⟨(hold.trans ho.finalLogSeek).trans hnone, (hcheck.trans ho.checkpointLogSeek).trans hnone'⟩
      · refine .inr ⟨m, hm, (hold.trans ho.finalLogSeek).trans hsome, ⟨_, hidx⟩, fun i hi => ?_⟩
        obtain ⟨a, ha, hnum⟩ := hall' i hi
        exact ⟨a, mem_append_left _ ha, hnum⟩
    · refine .inr ⟨n + os.length, ?_, hnew, ⟨_, hidx⟩, hcontains⟩
      have h1 := congrArg List.length hdrop
      have h2 := hos.length_eq
      rw [length_drop, length_append] at h1
      dsimp only
      omega

theorem Disk.Sound.unindexed {f : Files} (haof : f.aof = start.files.aof)
    (hcheck : f.checkpointLogSeek = start.files.checkpointLogSeek) (hidx : f.indexedLog = start.files.indexedLog)
    (hseek : f.finalLogSeek = start.files.finalLogSeek ∨ f.finalLogSeek = some (offset d.log n : ℤ)) :
    Disk.Sound ⟨d.log, f, d.durable⟩ := by
  have hsound := h.indexed ho hn hall (nil_append _).symm List.Forall₂.nil haof hcheck
    (hidx.trans ho.indexedLog) hseek
  simpa [numbered] using hsound

end

/-! ### Histories -/

/-- A start-up without a position does not look for a replica, and the queue of a batch
holds the next commands of the log. -/
def DiskEvent.Enabled (d : Disk) : DiskEvent → Prop
  | .append _ => True
  | .startup replicated _ => d.files.finalLogSeek = none → replicated = false
  | .batch ri _ => d.files.finalLogSeek ≠ none ∧ ∃ P R,
      d.log.drop (commandsBefore d.log (readFinalLogSeek d.files.finalLogSeek)) = P ++ R ∧
      List.Forall₂ (fun r c => r.command = cstr c.op.name ∧ r.key = cstr c.op.arg1) ri P

/-- A start-up run does not crash right after it has written the position, except when the
indexed log already has every command. -/
def DiskEvent.CrashSafe (d : Disk) : DiskEvent → Prop
  | .startup replicated point =>
    point ≠ d.log.length - commandsBefore d.log (chooseStart d.files replicated).seek + 1 ∨
      ∀ i < d.log.length, d.Contains i
  | _ => True

theorem Disk.Sound.chooseStart_eq (h : d.Sound) (hen : d.files.finalLogSeek = none → replicated = false) :
    ∃ n ≤ d.log.length, chooseStart d.files replicated = ⟨offset d.log n, d.files, replicated⟩ ∧
      ∀ i < n, d.Contains i := by
  rcases h.position with ⟨hnone, hcheck⟩ | ⟨n, hn, hsome, ⟨idx, hidx⟩, hall⟩
  · refine ⟨0, Nat.zero_le _, ?_, by simp⟩
    rw [hen hnone]
    simp [chooseStart, hnone, hcheck, readFinalLogSeek, checkpointStart, offset, aofBytes]
  · exact ⟨n, hn, chooseStart_ok d.files replicated hsome hidx, hall⟩

theorem Disk.Sound.startup_run (h : d.Sound)
    (hstart : chooseStart d.files replicated = ⟨offset d.log n, d.files, replicated⟩) :
    ∃ r rest, initialIndexesSequentialLogToIndexedLog d.files replicated = .returned r ∧
      r.effects = startupEffects ((d.log.drop n).map LogCmd.indexOp) (offset d.log d.log.length) rest ∧
      (∀ e ∈ rest, e.OnReplica) ∧ d.Opened r.start := by
  have hread : fseek d.files.aof (chooseStart d.files replicated).seek = aofBytes (d.log.drop n) := by
    have hsplit := fseek_aofBytes (d.log.take n) (d.log.drop n)
    rw [take_append_drop] at hsplit
    rw [hstart, h.aof]
    exact hsplit
  obtain ⟨r, rest, hrun, heffects, hrest, hdbp, hfiles⟩ :=
    initialIndexes_reads hread (by rw [hstart]; exact h.store)
  have hend : (if d.files.aof = [] then 0 else
      (chooseStart d.files replicated).seek + (aofBytes (d.log.drop n)).length) =
        (offset d.log d.log.length : ℤ) := by
    rw [offset_length, h.aof, hstart]
    split_ifs with hnil
    · rw [hnil]
      rfl
    · have hsplit := aofBytes_append (d.log.take n) (d.log.drop n)
      rw [take_append_drop] at hsplit
      rw [hsplit, length_append, Nat.cast_add]
      rfl
  rw [hend] at heffects
  rw [hstart, ← hdbp] at hfiles
  simp only [Files.primary, Prod.mk.injEq] at hfiles
  obtain ⟨haof, hseek, hcheck, hidx⟩ := hfiles
  exact ⟨r, rest, hrun, heffects, hrest, haof, hseek, hcheck, hidx, hdbp⟩

theorem recordFor_indexOp (P : List LogCmd) : List.Forall₂ RecordFor (P.map LogCmd.indexOp) P := by
  rw [forall₂_map_left_iff]
  exact forall₂_same.mpr fun c _ => .inl rfl

/-- A start-up run on a sound disk: it leaves a sound disk, or the position is at the end
of the log while the indexed log is still the old one. -/
theorem Disk.Sound.startup (h : d.Sound) (hen : d.files.finalLogSeek = none → replicated = false) (point : ℕ) :
    (point ≠ d.log.length - commandsBefore d.log (chooseStart d.files replicated).seek + 1 →
        ((DiskEvent.startup replicated point).exec d).Sound) ∧
      (point = d.log.length - commandsBefore d.log (chooseStart d.files replicated).seek + 1 →
        ∃ start, d.Opened start ∧ (DiskEvent.startup replicated point).exec d =
          ⟨d.log, { start.files with finalLogSeek := some (offset d.log d.log.length : ℤ) }, d.durable⟩) := by
  obtain ⟨n, hn, hstart, hall⟩ := h.chooseStart_eq hen
  obtain ⟨r, rest, hrun, heffects, hrest, ho⟩ := h.startup_run hstart
  have hbefore : commandsBefore d.log (chooseStart d.files replicated).seek = n := by
    rw [hstart]
    exact commandsBefore_offset hn
  have hlen : ((d.log.drop n).map LogCmd.indexOp).length = d.log.length - n := by simp
  have hexec : (DiskEvent.startup replicated point).exec d =
      d.crash (chooseStart d.files replicated).seek r.start r.effects point := by
    simp [DiskEvent.exec, hrun]
  rw [hbefore, hexec, heffects]
  refine ⟨fun hpoint => ?_, ?_⟩
  · rcases Nat.lt_or_ge (d.log.length - n) point with hlt | hge
    · -- everything is in the file, and only then can the position be read
      have hclosed : ((d.log.drop n).map LogCmd.indexOp).length + 2 ≤ point := by
        rw [hlen]
        omega
      obtain ⟨f, hcrash, hprimary⟩ := crash_startup_closed (d := d)
        (offset d.log d.log.length) hrest hclosed
      simp only [Files.primary, Prod.mk.injEq] at hprimary
      obtain ⟨haof, hseek, hcheck, hidx⟩ := hprimary
      rw [hcrash, hbefore]
      refine h.indexed ho hn hall (append_nil _).symm (recordFor_indexOp _) haof hcheck hidx (.inr ?_)
      rw [hseek, hlen, Nat.add_sub_cancel' hn]
    · rw [startupEffects, crash_records _ (by rw [hlen]; exact hge)]
      exact h.unindexed ho hn hall rfl rfl rfl (.inl rfl)
  · rintro rfl
    rw [← hlen, crash_startup_written]
    exact ⟨r.start, ho, rfl⟩

/-- A batch on a sound disk leaves a sound disk, wherever it crashes. -/
theorem Disk.Sound.batch (h : d.Sound) {ri : List RecordToIndex} (hen : (DiskEvent.batch ri point).Enabled d) :
    ((DiskEvent.batch ri point).exec d).Sound := by
  obtain ⟨hne, P, R, hdrop, hqueue⟩ := hen
  obtain ⟨hnone, -⟩ | ⟨n, hn, hsome, ⟨idx, hidx⟩, hall⟩ := h.position
  · exact absurd hnone hne
  have hbefore : commandsBefore d.log (readFinalLogSeek d.files.finalLogSeek) = n := by
    rw [hsome]
    exact commandsBefore_offset hn
  rw [hbefore] at hdrop
  have hos : List.Forall₂ RecordFor (ri.map RecordToIndex.indexOp) P := by
    rw [forall₂_map_left_iff]
    exact hqueue.imp fun r c hrc => .inr ⟨r, hrc.1, hrc.2, rfl⟩
  have hlen : (ri.map RecordToIndex.indexOp).length = ri.length := length_map _
  have hdbp : idx = (d.durable.map Applied.op).foldl applyRecord Multimap.empty := by
    have hstore := h.store
    rw [hidx] at hstore
    exact Option.some.inj hstore
  have ho : d.Opened ⟨d.files, idx, none⟩ := ⟨rfl, rfl, rfl, hidx, hdbp⟩
  have hexec : (DiskEvent.batch ri point).exec d = d.crash (readFinalLogSeek d.files.finalLogSeek)
      ⟨d.files, idx, none⟩ (batchEffects (ri.map RecordToIndex.indexOp) (offset d.log (n + ri.length))) point := by
    simp only [DiskEvent.exec, hidx, DbFile.openW, hbefore, writeToIndexedLog_effects]
    rfl
  rw [hexec]
  rcases Nat.lt_or_ge ri.length point with hlt | hge
  · obtain ⟨f, hcrash, haof, hcheck, hidx', hseek⟩ := crash_batch_synced (d := d)
      (offset d.log (n + ri.length)) (by rw [hlen]; exact hlt)
    rw [hcrash, hbefore]
    exact h.indexed ho hn hall hdrop hos haof hcheck hidx' (by rwa [hlen])
  · rw [batchEffects, crash_records _ (by rw [hlen]; exact hge)]
    exact h

theorem Disk.Sound.append (h : d.Sound) (c : LogCmd) : ((DiskEvent.append c).exec d).Sound := by
  refine ⟨rfl, h.store, fun a ha => ?_, ?_⟩
  · obtain ⟨c', hc', hfor⟩ := h.meant a ha
    obtain ⟨hlt, -⟩ := List.getElem?_eq_some_iff.mp hc'
    exact ⟨c', by rw [DiskEvent.exec, List.getElem?_append_left hlt, hc'], hfor⟩
  · rcases h.position with hnone | ⟨n, hn, hsome, hidx, hall⟩
    · exact .inl hnone
    · refine .inr ⟨n, ?_, ?_, hidx, hall⟩
      · simp only [DiskEvent.exec, length_append]
        omega
      · simp only [DiskEvent.exec, offset_append hn]
        exact hsome

/-! ### One more event -/

theorem Disk.Sound.step (h : d.Sound) {e : DiskEvent} (hen : e.Enabled d) (hsafe : e.CrashSafe d) :
    (e.exec d).Sound := by
  cases e with
  | append c => exact h.append c
  | batch ri point => exact h.batch hen
  | startup replicated point =>
    obtain ⟨hsound, hcrash⟩ := h.startup hen point
    by_cases hpoint : point = d.log.length - commandsBefore d.log (chooseStart d.files replicated).seek + 1
    · have hall := hsafe.resolve_left (not_not.mpr hpoint)
      obtain ⟨start, ho, hexec⟩ := hcrash hpoint
      rw [hexec]
      exact h.unindexed ho le_rfl hall rfl rfl rfl (.inr rfl)
    · exact hsound hpoint

/-- An event keeps the position behind the indexed log exactly when its crash is safe. -/
theorem Disk.Sound.consistent_iff (h : d.Sound) {e : DiskEvent} (hen : e.Enabled d) :
    (e.exec d).Consistent ↔ e.CrashSafe d := by
  refine ⟨?_, ?_⟩
  · intro hcons
    cases e with
    | append c => trivial
    | batch ri point => trivial
    | startup replicated point =>
      refine or_iff_not_imp_left.mpr fun hpoint => ?_
      obtain ⟨start, -, hexec⟩ := (h.startup hen point).2 (not_not.mp hpoint)
      rw [hexec] at hcons
      exact fun i hi => hcons _ rfl i ((liesBefore_offset le_rfl i).mpr hi)
  · exact fun hsafe => (h.step hen hsafe).consistent

/-- Histories of logged commands, start-up runs and complete batches with crashes at any of
their effects. As long as no start-up run crashes right after it has written the position
(or the indexed log had everything before), `FINAL_LOG_SEEK` stays behind the indexed log,
and the first such crash puts it ahead. -/
theorem crash_consistent_iff (h : d.Sound) {es : List DiskEvent}
    (hes : Along diskStep (fun d e => e.Enabled d ∧ e.CrashSafe d) es d) {e : DiskEvent}
    (hen : e.Enabled (run diskStep es d).1) :
    (run diskStep es d).1.Consistent ∧
      ((e.exec (run diskStep es d).1).Consistent ↔ e.CrashSafe (run diskStep es d).1) := by
  have hsound : (run diskStep es d).1.Sound :=
    invariant (fun d e hd he => hd.step he.1 he.2) h hes
  exact ⟨hsound.consistent, hsound.consistent_iff hen⟩

/-- The disk of a server that has a log but has never indexed it. -/
def freshDisk (L : List LogCmd) : Disk :=
  ⟨L, { freshFiles L with finalLogSeek := none, indexedLog := .missing }, []⟩

theorem freshDisk_sound (L : List LogCmd) : (freshDisk L).Sound :=
  ⟨rfl, rfl, by simp [freshDisk], .inl ⟨rfl, rfl⟩⟩

theorem crash_consistent_first_run :
    (run diskStep [.startup false 5] (freshDisk counterLog)).1.Consistent ∧
      (((DiskEvent.startup false 2).exec (run diskStep [.startup false 5] (freshDisk counterLog)).1).Consistent ↔
        (DiskEvent.startup false 2).CrashSafe (run diskStep [.startup false 5] (freshDisk counterLog)).1) := by
  have hes : Along diskStep (fun d e => e.Enabled d ∧ e.CrashSafe d) [.startup false 5]
      (freshDisk counterLog) := ⟨⟨fun _ => rfl, .inl (by decide +kernel)⟩, trivial⟩
  exact crash_consistent_iff (freshDisk_sound counterLog) hes fun _ => rfl

/-- A first start-up that crashes between the write of the position and the close: the
position is at the end of the log and the indexed log is empty. -/
theorem crash_position_ahead :
    ((DiskEvent.startup false 4).exec (freshDisk counterLog)).files.finalLogSeek =
        some ((aofBytes counterLog).length : ℤ) ∧
      ((DiskEvent.startup false 4).exec (freshDisk counterLog)).files.indexedLog.openR = some Multimap.empty ∧
      ¬ ((DiskEvent.startup false 4).exec (freshDisk counterLog)).Consistent := by
  have hseek : ((DiskEvent.startup false 4).exec (freshDisk counterLog)).files.finalLogSeek =
      some ((aofBytes counterLog).length : ℤ) := by decide +kernel
  refine ⟨hseek, by rfl, fun h => ?_⟩
  have hzero := h _ hseek 0 (by decide +kernel)
  revert hzero
  decide +kernel

end RedisIR
