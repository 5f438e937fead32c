import RedisIR.Spec.Rewrite

/-! Every byte fed during a rewrite is, at any moment, in exactly one of three places: the
child's copy of the differences, the pipe, or the blocks of the parent, and in this order they
are all that was fed. -/

namespace RedisIR.Rewrite

open CLib List Machine

/-! ### The rewrite buffer -/

def contents (blocks : List AofRwBlock) : Bytes := blocks.flatMap AofRwBlock.buf

@[simp] theorem contents_nil : contents [] = [] := rfl

@[simp] theorem contents_cons (block : AofRwBlock) (blocks : List AofRwBlock) :
    contents (block :: blocks) = block.buf ++ contents blocks := rfl

@[simp] theorem contents_append (bs cs : List AofRwBlock) : contents (bs ++ cs) = contents bs ++ contents cs :=
  flatMap_append

@[simp] theorem new_buf : AofRwBlock.new.buf = [] := rfl

theorem fill_append (block : AofRwBlock) (s : Bytes) : (block.fill s).buf ++ s.drop block.free = block.buf ++ s := by
  rw [AofRwBlock.fill, append_assoc, take_append_drop]

theorem appendLoop_snoc (fuel : ℕ) (bs : List AofRwBlock) (block : AofRwBlock) {s : Bytes} (hs : s ≠ []) :
    appendLoop (fuel + 1) (bs ++ [block]) s = if s.drop block.free = [] then bs ++ [block.fill s]
      else appendLoop fuel (bs ++ [block.fill s] ++ [.new]) (s.drop block.free) := by
  rw [appendLoop, if_neg hs]
  simp

/-- When the last block has room each round writes a byte at least. -/
theorem contents_appendLoop {fuel : ℕ} {bs : List AofRwBlock} {block : AofRwBlock} {s : Bytes}
    (hfree : 0 < block.free)
    (hfuel : s.length ≤ fuel) : contents (appendLoop fuel (bs ++ [block]) s) = contents (bs ++ [block]) ++ s := by
  induction fuel generalizing bs block s with
  | zero =>
    obtain rfl : s = [] := length_eq_zero_iff.mp (by omega)
    simp [appendLoop]
  | succ fuel ih =>
    by_cases hs : s = []
    · simp [appendLoop, hs]
    rw [appendLoop_snoc fuel bs block hs]
    have hfill := fill_append block s
    split_ifs with hdone
    · rw [hdone, append_nil] at hfill
      simp [hfill]
    · rw [ih (by decide) (by rw [length_drop]; omega)]
      simp [hfill]

theorem contents_aofRewriteBufferAppend (blocks : List AofRwBlock) (s : Bytes) :
    contents (aofRewriteBufferAppend blocks s) = contents blocks ++ s := by
  rw [aofRewriteBufferAppend]
  by_cases hs : s = []
  · simp [appendLoop, hs]
  rcases eq_nil_or_concat blocks with rfl | ⟨bs, block, rfl⟩
  · rw [appendLoop, if_neg hs]
    exact contents_appendLoop (by decide) (le_refl _)
  · rw [concat_eq_append, appendLoop_snoc _ bs block hs]
    have hfill := fill_append block s
    split_ifs with hdone
    · rw [hdone, append_nil] at hfill
      simp [hfill]
    · rw [contents_appendLoop (by decide) (by rw [length_drop]; omega)]
      simp [hfill]

theorem aofRewriteBufferWrite_eq {writes : List ℕ} {blocks : List AofRwBlock} {file file' : Bytes}
    (h : aofRewriteBufferWrite writes blocks file = some file') : file' = file ++ contents blocks := by
  induction blocks generalizing writes file with
  | nil =>
    cases writes <;> simp_all [aofRewriteBufferWrite]
  | cons block blocks ih =>
    cases writes with
    | nil =>
      rw [aofRewriteBufferWrite] at h
      rw [ih h, contents_cons, append_assoc]
    | cons n writes =>
      rw [aofRewriteBufferWrite] at h
      split_ifs at h with hempty hshort
      · rw [ih h, contents_cons, hempty, nil_append]
      · rw [ih h, contents_cons, append_assoc]

/-! ### The invariant -/

/-- A rewrite of `snapshot` during which `w` was fed. -/
structure Holds (snapshot w : Bytes) (s : System) (c : Child) : Prop where
  child : s.child = some c
  copied : c.snapshot = snapshot
  bytes : c.diff ++ s.dataPipe ++ contents s.blocks = w
  /-- an acknowledgement is only sent by a parent that no longer sends differences -/
  ack : s.ackPipe ≠ [] → s.stopSendingDiff = true
  acked : c.phase = .acked → s.stopSendingDiff = true
  finished : c.phase = .exited 0 0 → s.stopSendingDiff = true ∧ s.dataPipe = [] ∧
    s.tmpfile = some (snapshot ++ c.diff)

variable {snapshot w : Bytes} {s : System} {c : Child}

section

variable (h : Holds snapshot w s c)
include h

theorem feed_holds (dictid : ℕ) (buf : Bytes) : Holds snapshot (w ++ buf) (feedAppendOnlyFile dictid buf s) c := by
  simp only [feedAppendOnlyFile, h.child, Option.isSome_some, if_true]
  exact ⟨rfl, h.copied, by simp [contents_aofRewriteBufferAppend, ← h.bytes], h.ack, h.acked, h.finished⟩

/-- Bytes go from the first block to the end of the pipe, unless the child has the answer. -/
theorem writable_holds (n : ℕ) : Holds snapshot w (aofChildWriteDiffData n s) c := by
  unfold aofChildWriteDiffData
  cases hblocks : s.blocks with
  | nil => exact ⟨h.child, h.copied, by simpa [hblocks] using h.bytes, h.ack, h.acked, h.finished⟩
  | cons block blocks =>
    by_cases hstop : s.stopSendingDiff = true
    · simp only [if_pos hstop]
      exact ⟨h.child, h.copied, by simpa [hblocks] using h.bytes, h.ack, h.acked, h.finished⟩
    simp only [if_neg hstop]
    have hcontents :
        block.buf.take n ++ contents (if (block.consume n).buf = [] then blocks else block.consume n :: blocks) =
        contents s.blocks := by
      rw [hblocks, contents_cons]
      split_ifs with hrest
      · have hall : block.buf.take n = block.buf := by
          have := take_append_drop n block.buf
          rwa [show block.buf.drop n = [] from hrest, append_nil] at this
        rw [hall]
      · rw [contents_cons, ← append_assoc]
        congr 1
        exact take_append_drop n block.buf
    refine ⟨h.child, h.copied, ?_, h.ack, h.acked, fun hphase => absurd (h.finished hphase).1 hstop⟩
    rw [← append_assoc, append_assoc _ (block.buf.take n), hcontents, h.bytes]

theorem stopReadable_holds (ackOk : Bool) : Holds snapshot w (aofChildPipeReadable ackOk s) c := by
  unfold aofChildPipeReadable
  cases hstop : s.stopPipe with
  | nil => exact ⟨h.child, h.copied, h.bytes, h.ack, h.acked, h.finished⟩
  | cons byte stopPipe =>
    by_cases hbyte : byte = BANG
    · simp only [if_pos hbyte]
      exact ⟨h.child, h.copied, h.bytes, fun _ => rfl, fun _ => rfl, fun hphase => ⟨rfl, (h.finished hphase).2⟩⟩
    · simp only [if_neg hbyte]
      exact ⟨h.child, h.copied, h.bytes, h.ack, h.acked, h.finished⟩

/-- Bytes go from the pipe to the differences of a child that has not ended. -/
theorem read_holds (n : ℕ) : ∃ c', Holds snapshot w (c.read n s) c' := by
  have hmoved : c.diff ++ s.dataPipe.take n ++ s.dataPipe.drop n ++ contents s.blocks = w := by
    rw [append_assoc c.diff, take_append_drop, h.bytes]
  unfold Child.read
  cases hphase : c.phase with
  | exited exitcode bysignal => exact ⟨c, h⟩
  | rewriting | asked =>
    exact ⟨_, rfl, h.copied, hmoved, h.ack, by simp, by simp⟩
  | acked => exact ⟨_, rfl, h.copied, hmoved, h.ack, fun _ => h.acked hphase, by simp⟩

theorem child_holds (a : Step) : ∃ c', Holds snapshot w (c.step s a) c' := by
  cases a with
  | childRead n => exact read_holds h n
  | childAsk =>
    rw [Child.step]
    split_ifs
    · exact ⟨_, rfl, h.copied, h.bytes, h.ack, by simp, by simp⟩
    · exact ⟨c, h⟩
  | childAck =>
    rw [Child.step]
    split
    · rename_i byte ackPipe hphase hack
      have hstop := h.ack (by simp [hack])
      refine ⟨_, rfl, h.copied, h.bytes, fun _ => hstop, fun _ => hstop, ?_⟩
      split_ifs <;> simp
    · exact ⟨c, h⟩
  | childFinish =>
    rw [Child.step]
    split_ifs with hready
    · have hstop := h.acked hready.1
      exact ⟨_, rfl, h.copied, h.bytes, h.ack, by simp, fun _ => ⟨hstop, hready.2, by rw [h.copied]⟩⟩
    · exact ⟨c, h⟩
  | childFail exitcode bysignal =>
    rw [Child.step]
    split
    · exact ⟨c, h⟩
    · split_ifs with hzero
      · exact ⟨c, h⟩
      · exact ⟨_, rfl, h.copied, h.bytes, h.ack, by simp, by simp_all⟩
  | _ => exact ⟨c, h⟩

theorem step_holds {a : Step} (ha : ¬ a.Ends) : ∃ c', Holds snapshot (w ++ a.appended) (step a s).1 c' := by
  cases a with
  | fork snapshot' rdbChild pipesOk forkOk =>
    refine ⟨c, ?_⟩
    simpa [step, rewriteAppendOnlyFileBackground, h.child, Step.appended] using h
  | feed dictid buf => exact ⟨c, feed_holds h dictid buf⟩
  | flush =>
    refine ⟨c, ?_⟩
    simp only [Step.appended, append_nil, step]
    split_ifs
    · exact ⟨h.child, h.copied, h.bytes, h.ack, h.acked, h.finished⟩
    · exact h
  | writable n =>
    refine ⟨c, ?_⟩
    simp only [Step.appended, append_nil, step]
    split_ifs
    · exact writable_holds h n
    · exact h
  | stopReadable ackOk =>
    refine ⟨c, ?_⟩
    simp only [Step.appended, append_nil, step]
    split_ifs
    · exact stopReadable_holds h ackOk
    · exact h
  | kill => exact absurd trivial ha
  | done env => exact absurd trivial ha
  | childRead n => simpa [step, h.child, Step.appended] using child_holds h (.childRead n)
  | childAsk => simpa [step, h.child, Step.appended] using child_holds h .childAsk
  | childAck => simpa [step, h.child, Step.appended] using child_holds h .childAck
  | childFinish => simpa [step, h.child, Step.appended] using child_holds h .childFinish
  | childFail exitcode bysignal =>
    simpa [step, h.child, Step.appended] using child_holds h (.childFail exitcode bysignal)

theorem run_holds {mid : List Step} (hmid : ∀ a ∈ mid, ¬ a.Ends) :
    ∃ c', Holds snapshot (w ++ mid.flatMap Step.appended) (run step mid s).1 c' := by
  induction mid generalizing w s c with
  | nil => exact ⟨c, by simpa [run] using h⟩
  | cons a mid ih =>
    obtain ⟨c1, h1⟩ := step_holds h (hmid a (by simp))
    obtain ⟨c2, h2⟩ := ih h1 (forall_mem_cons.mp hmid).2
    exact ⟨c2, by simpa [run, append_assoc] using h2⟩

end

/-! ### Outside a rewrite -/

def Idle (s : System) : Prop := s.child = none → s.blocks = []

theorem done_blocks (exitcode bysignal : ℕ) (env : DoneEnv) (s : System) :
    (backgroundRewriteDoneHandler exitcode bysignal env s).1.blocks = [] := by
  unfold backgroundRewriteDoneHandler
  cases residualWritten env s with
  | none => split_ifs <;> rfl
  | some file => split_ifs <;> rfl

theorem writable_idle (n : ℕ) (h : Idle s) : Idle (aofChildWriteDiffData n s) := by
  unfold aofChildWriteDiffData
  cases hblocks : s.blocks with
  | nil => exact fun _ => rfl
  | cons block blocks =>
    have hchild : s.child ≠ none := fun hnone => by simp [h hnone] at hblocks
    by_cases hstop : s.stopSendingDiff = true
    · simp only [if_pos hstop]
      exact fun hnone => absurd hnone hchild
    · simp only [if_neg hstop]
      exact fun hnone => absurd hnone hchild

theorem stopReadable_idle (ackOk : Bool) (h : Idle s) : Idle (aofChildPipeReadable ackOk s) := by
  unfold aofChildPipeReadable
  cases s.stopPipe with
  | nil => exact h
  | cons byte stopPipe =>
    by_cases hbyte : byte = BANG
    · simp only [if_pos hbyte]
      exact h
    · simp only [if_neg hbyte]
      exact h

theorem feed_idle (dictid : ℕ) (buf : Bytes) (h : Idle s) : Idle (feedAppendOnlyFile dictid buf s) := by
  unfold feedAppendOnlyFile
  cases hchild : s.child with
  | none => exact fun _ => h hchild
  | some c => exact fun hnone => absurd hnone (by simp)

theorem fork_idle (snapshot : Bytes) (rdbChild pipesOk forkOk : Bool) (h : Idle s) :
    Idle (rewriteAppendOnlyFileBackground snapshot rdbChild pipesOk forkOk s) := by
  unfold rewriteAppendOnlyFileBackground
  by_cases hbusy : s.child.isSome = true ∨ rdbChild = true
  · rw [if_pos hbusy]
    exact h
  rw [if_neg hbusy]
  cases pipesOk with
  | false => exact h
  | true =>
    cases forkOk with
    | false => exact h
    | true => exact fun hnone => absurd hnone (by simp)

theorem child_step_isSome (a : Step) (h : s.child = some c) : (c.step s a).child ≠ none := by
  cases a <;> simp only [Child.step, Child.read] <;> repeat' split
  all_goals simp [h]

theorem step_idle (a : Step) (h : Idle s) : Idle (step a s).1 := by
  cases a with
  | fork snapshot rdbChild pipesOk forkOk => exact fork_idle snapshot rdbChild pipesOk forkOk h
  | feed dictid buf => exact feed_idle dictid buf h
  | flush =>
    simp only [step]
    split_ifs <;> exact h
  | writable n =>
    simp only [step]
    split_ifs
    · exact writable_idle n h
    · exact h
  | stopReadable ackOk =>
    simp only [step]
    split_ifs
    · exact stopReadable_idle ackOk h
    · exact h
  | kill =>
    simp only [step]
    split_ifs
    · exact fun _ => rfl
    · exact h
  | done env =>
    simp only [step]
    split
    · exact fun _ => done_blocks ..
    · exact h
  | childRead | childAsk | childAck | childFinish | childFail =>
    simp only [step]
    cases hc : s.child with
    | none => exact fun _ => h hc
    | some c => exact fun hnone => absurd hnone (child_step_isSome _ hc)

theorem run_idle (as : List Step) (h : Idle s) : Idle (run step as s).1 := by
  induction as generalizing s with
  | nil => exact h
  | cons a as ih => exact ih (step_idle a h)

theorem fork_holds (h : Idle s) (hchild : s.child = none) (snapshot : Bytes) :
    Holds snapshot [] (rewriteAppendOnlyFileBackground snapshot false true true s) ⟨.rewriting, snapshot, []⟩ := by
  simp only [rewriteAppendOnlyFileBackground, hchild, Option.isSome_none, Bool.false_eq_true, or_self, if_false,
    not_true_eq_false]
  exact ⟨rfl, rfl, by simp [h hchild], by simp, by simp, by simp⟩

/-! ### The rewritten file -/

/-- When the handler reports success the log is the snapshot and what was fed. -/
theorem done_file (h : Holds snapshot w s c) {env : DoneEnv} (hdone : true ∈ (step (.done env) s).2) :
    (step (.done env) s).1.file = snapshot ++ w := by
  obtain ⟨phase, snapshot', diff⟩ := c
  cases phase with
  | rewriting | asked | acked => simp [step, h.child] at hdone
  | exited exitcode bysignal =>
    simp only [step, h.child, mem_singleton] at hdone ⊢
    unfold backgroundRewriteDoneHandler at hdone ⊢
    by_cases hok : bysignal = 0 ∧ exitcode = 0
    · obtain ⟨rfl, rfl⟩ := hok
      obtain ⟨-, hpipe, htmp⟩ := h.finished rfl
      simp only [and_self, if_true] at hdone ⊢
      cases hfile : residualWritten env s with
      | none => simp [hfile] at hdone
      | some file =>
        have hall : file = snapshot ++ w := by
          unfold residualWritten at hfile
          rw [htmp] at hfile
          split_ifs at hfile
          rw [aofRewriteBufferWrite_eq hfile, ← h.bytes, hpipe]
          simp
        simp only [hfile] at hdone ⊢
        cases hrename : env.renameOk with
        | false => simp [hrename] at hdone
        | true =>
          simp only [not_true_eq_false, if_false]
          rw [← hall]
          split_ifs <;> rfl
    · simp [if_neg hok] at hdone

/-- Whatever happened before the fork, and however the steps of the two processes are
interleaved after it: if the handler reports success, the log is the snapshot of the child
followed by what was appended to the rewrite buffer since the fork. -/
theorem rewrite_loses_nothing {start : System} (hblocks : start.blocks = []) {pre mid : List Step}
    (snapshot : Bytes) (hidle : (run step pre start).1.child = none) (hmid : ∀ a ∈ mid, ¬ a.Ends)
    {env : DoneEnv}
    (hdone : true ∈ (step (.done env) (run step (pre ++ .fork snapshot false true true :: mid) start).1).2) :
    (step (.done env) (run step (pre ++ .fork snapshot false true true :: mid) start).1).1.file =
      snapshot ++ mid.flatMap Step.appended := by
  have hpre := run_idle pre (fun _ => hblocks : Idle start)
  obtain ⟨c, h⟩ := run_holds (fork_holds hpre hidle snapshot) hmid
  rw [run_append] at hdone ⊢
  exact done_file h hdone

def logging : System :=
  ⟨[1, 1], ⟨.on, [], 0⟩, true, 2, [], false, false, false, none, none, [], [], [], true⟩

def handover : List Step :=
  [.feed 0 [1, 2, 3], .writable 2, .childRead 1, .feed 0 [4], .childAsk, .stopReadable true, .feed 0 [5], .writable 9,
    .childAck, .childRead 4, .childFinish, .feed 0 [6]]

theorem rewrite_handover :
    (step (.done ⟨true, [], true⟩) (run step (.fork [9] false true true :: handover) logging).1).1.file =
      [9, 1, 2, 3, 4, 5, 6] :=
  @rewrite_loses_nothing logging rfl [] handover [9] rfl (by simp [handover, Step.Ends])
    ⟨true, [], true⟩ (by decide)

end RedisIR.Rewrite
