import RedisIR.Spec.SentinelElection

/-! One Sentinel leads the failover of an epoch, unless a Sentinel counts votes when its current epoch is
not the epoch of its failover any more: the votes of the others are those for the current epoch then,
and its own is the one for the failover. -/

namespace RedisIR.Sentinel

open Votes List Function Machine

variable {n : ℕ} {past : List (Fin n × ℕ × Fin n)} {s : State n} {i c : Fin n} {x : Node n}
variable {quorum : ℕ}

/-- The votes are as the Sentinels have reported them, and those of `past` are among them. -/
structure Safe (past : List (Fin n × ℕ × Fin n)) (s : State n) : Prop where
  kept : past ⊆ s.votes
  oneVote : OneVote s.votes
  voted : ∀ i e c, (i, e, c) ∈ s.votes → e ≤ (s.nodes i).leaderEpoch
  leader : ∀ i c, (s.nodes i).leader = some c → (i, (s.nodes i).leaderEpoch, c) ∈ s.votes
  known : ∀ i j e c, (s.nodes i).known j = (some c, e) → (j, e, c) ∈ s.votes
  replies : ∀ i j e c, .reply j i (some c) e ∈ s.sent → (j, e, c) ∈ s.votes

theorem safe_initial : Safe [] (initial : State n) where
  kept := nil_subset _
  oneVote _ _ _ _ h := by cases h
  voted _ _ _ h := by cases h
  leader _ _ h := by cases h
  known _ _ _ _ h := by cases h
  replies _ _ _ _ h := by cases h

theorem Safe.start (h : Safe past s) :
    Safe s.votes s := ⟨List.Subset.refl _, h.oneVote, h.voted, h.leader, h.known, h.replies⟩

/-- A Sentinel that has not voted again, or has voted for `c` in a later epoch. -/
def Follows (c : Fin n) (x x' : Node n) : Prop :=
  (∀ c', x'.leader = some c' → x.leader = some c') ∧ x'.leaderEpoch = x.leaderEpoch ∨
    x'.leader = some c ∧ x.leaderEpoch < x'.leaderEpoch

theorem follows_sentinelVoteLeader (epoch : ℕ) (c : Fin n) (x : Node n) :
    Follows c x (sentinelVoteLeader epoch c x) := by
  unfold sentinelVoteLeader
  dsimp only
  split_ifs with h
  · exact Or.inr ⟨rfl, h.1.trans_le (le_max_right _ _)⟩
  · exact Or.inl ⟨fun _ => id, rfl⟩

theorem votes_setNode_subset (s : State n) (i c : Fin n) (x : Node n) : s.votes ⊆ (s.setNode i c x).votes := by
  unfold State.setNode
  dsimp only
  split_ifs
  · exact List.Subset.refl _
  · exact subset_append_left _ _

section

variable (h : Safe past s)
include h

theorem Safe.setNode (hx : Follows c (s.nodes i) x)
    (hknown : ∀ j e c', x.known j = (some c', e) → (j, e, c') ∈ s.votes) : Safe past (s.setNode i c x) := by
  have hsub := votes_setNode_subset s i c x
  have hvote : (s.setNode i c x).votes = s.votes ∧
        (∀ c', x.leader = some c' → (s.nodes i).leader = some c') ∧ x.leaderEpoch = (s.nodes i).leaderEpoch ∨
      (s.setNode i c x).votes = s.votes ++ [(i, x.leaderEpoch, c)] ∧ x.leader = some c ∧
        (s.nodes i).leaderEpoch < x.leaderEpoch := by
    rcases hx with ⟨hleader, hepoch⟩ | ⟨hleader, hlt⟩
    · exact Or.inl ⟨if_pos hepoch, hleader, hepoch⟩
    · exact Or.inr ⟨if_neg hlt.ne', hleader, hlt⟩
  refine ⟨List.Subset.trans h.kept hsub, ?_, fun i' e c' hmem => ?_, fun i' c' hleader => ?_,
    fun i' j e c' hk => ?_, fun i' j e c' hm => ?_⟩
  · rcases hvote with ⟨hvotes, -⟩ | ⟨hvotes, -, hlt⟩
    · rw [hvotes]
      exact h.oneVote
    · rw [hvotes]
      refine h.oneVote.snoc (fun c' hmem => ?_) c
      have := h.voted i x.leaderEpoch c' hmem
      omega
  · have hold (hmem : (i', e, c') ∈ s.votes) : e ≤ ((s.setNode i c x).nodes i').leaderEpoch := by
      have := h.voted i' e c' hmem
      simp only [State.setNode, update_apply]
      split_ifs with hi
      · subst hi
        omega
      · exact this
    rcases hvote with ⟨hvotes, -⟩ | ⟨hvotes, -⟩
    · rw [hvotes] at hmem
      exact hold hmem
    · rw [hvotes, mem_append, mem_singleton] at hmem
      rcases hmem with hmem | hmem
      · exact hold hmem
      · cases hmem
        simp [State.setNode]
  · by_cases hi : i' = i
    · subst hi
      simp only [State.setNode, update_self] at hleader ⊢
      rcases hvote with ⟨hvotes, hsame, hepoch⟩ | ⟨hvotes, hnew, hlt⟩
      · rw [if_pos hepoch, hepoch]
        exact h.leader i' c' (hsame c' hleader)
      · cases hleader.symm.trans hnew
        rw [if_neg hlt.ne']
        exact mem_append_right _ (mem_singleton_self _)
    · simp only [State.setNode, update_of_ne hi] at hleader ⊢
      exact hsub (h.leader i' c' hleader)
  · simp only [State.setNode, update_apply] at hk
    split_ifs at hk
    · exact hsub (hknown j e c' hk)
    · exact hsub (h.known i' j e c' hk)
  · exact hsub (h.replies i' j e c' hm)

theorem Safe.same (i c : Fin n) {x : Node n} (hleader : ∀ c', x.leader = some c' → (s.nodes i).leader = some c')
    (hepoch : x.leaderEpoch = (s.nodes i).leaderEpoch) (hknown : ∀ j e c', x.known j = (some c', e) →
    (s.nodes i).known j = (some c', e)) : Safe past (s.setNode i c x) :=
  h.setNode (Or.inl ⟨hleader, hepoch⟩) fun j e c' hk => h.known i j e c' (hknown j e c' hk)

theorem Safe.vote (i c : Fin n) (epoch : ℕ) : Safe past (s.setNode i c (sentinelVoteLeader epoch c (s.nodes i))) := by
  refine h.setNode (follows_sentinelVoteLeader epoch c _) fun j e c' hk => h.known i j e c' ?_
  unfold sentinelVoteLeader at hk
  dsimp only at hk
  split_ifs at hk <;> exact hk

theorem Safe.send {m : Message n} (hm : ∀ i j e c, m = .reply j i (some c) e → (j, e, c) ∈ s.votes) :
    Safe past { s with sent := m :: s.sent } := by
  refine ⟨h.kept, h.oneVote, h.voted, h.leader, h.known, fun i j e c hmem => ?_⟩
  rcases mem_cons.mp hmem with heq | hmem
  · exact hm i j e c heq.symm
  · exact h.replies i j e c hmem

theorem Safe.answer (sender receiver : Fin n) (epoch : ℕ) (runid : Option (Fin n)) :
    Safe past (s.answer sender receiver epoch runid) := by
  cases runid with
  | none => exact h.send fun i j e c heq => by simp at heq
  | some runid =>
    have hvote := h.vote receiver runid epoch
    refine hvote.send fun i j e c heq => ?_
    obtain ⟨rfl, -, hleader, rfl⟩ := (Message.reply.injEq ..).mp heq
    have hmem := hvote.leader receiver c
    simp only [State.setNode, update_self] at hmem
    exact hmem hleader

theorem Safe.receive (monitored : Bool) {m : Message n} (hm : m ∈ s.sent) : Safe past (s.receive monitored m) := by
  cases m with
  | hello receiver epoch => exact h.same receiver receiver (fun _ => id) rfl fun _ _ _ => id
  | request sender receiver epoch runid =>
    unfold State.receive
    dsimp only
    by_cases hepoch : 2 ^ 63 ≤ epoch
    · rw [if_pos hepoch]
      exact h
    · rw [if_neg hepoch]
      exact h.answer sender receiver epoch _
  | reply sender receiver leader epoch =>
    cases leader with
    | none => exact h
    | some leader =>
      refine h.setNode (Or.inl ⟨fun _ => id, rfl⟩) fun j e c hk => ?_
      simp only [update_apply] at hk
      split_ifs at hk with hj
      · cases hk
        exact hj ▸ h.replies receiver sender epoch leader hm
      · exact h.known receiver j e c hk

end

/-! ### Counting -/

theorem mostVoted_eq (votes : Fin n → ℕ) (order : List (Fin n)) {c : Fin n}
    (h : (mostVoted votes order).1 = some c) : (mostVoted votes order).2 = votes c := by
  have hfold :
      ∀ (order : List (Fin n)) (w : Option (Fin n) × ℕ), (∀ c, w.1 = some c → w.2 = votes c) → ∀ c,
      (order.foldl (fun w c => if votes c > w.2 then (some c, votes c) else w) w).1 = some c →
      (order.foldl (fun w c => if votes c > w.2 then (some c, votes c) else w) w).2 = votes c := by
    intro order
    induction order with
    | nil => exact fun w hw => hw
    | cons c' order ih =>
      intro w hw
      refine ih _ fun c hc => ?_
      dsimp only at hc ⊢
      split_ifs at hc ⊢
      · cases hc
        rfl
      · exact hw c hc
  exact hfold order _ (fun c hc => by cases hc) c h

/-- A winner has a majority of the votes that are recorded and the own one. -/
theorem sentinelGetLeader_votes {epoch : ℕ} {order : List (Fin n)} {me : Fin n}
    (h : (sentinelGetLeader quorum order me epoch x).2 = some c) :
    n / 2 + 1 ≤ recorded me x c + if (sentinelGetLeader quorum order me epoch x).1.leader = some c ∧
      (sentinelGetLeader quorum order me epoch x).1.leaderEpoch = epoch then 1 else 0 := by
  unfold sentinelGetLeader at h ⊢
  dsimp only at h ⊢
  set x1 := sentinelVoteLeader epoch ((mostVoted (recorded me x) order).1.getD me) x
  split_ifs at h with hless
  have hbest : (mostVoted (recorded me x) order).1 = some c → (mostVoted (recorded me x) order).2 = recorded me x c :=
    mostVoted_eq _ _
  cases hvote : x1.leader with
  | none =>
    simp only [hvote] at h hless
    rw [hbest h] at hless
    omega
  | some myvote =>
    simp only [hvote] at h hless
    split_ifs at h hless with hown
    · cases h
      rw [if_pos ⟨rfl, hown.1⟩]
      dsimp only at hless
      omega
    · rw [hbest h] at hless
      omega

/-- In the epoch of its failover, what a Sentinel counts are votes in that epoch. -/
theorem Safe.won {order : List (Fin n)} (h : Safe past s)
    (hepoch : (s.nodes i).currentEpoch = (s.nodes i).failoverEpoch)
    (hwin : (sentinelGetLeader quorum order i (s.nodes i).failoverEpoch (s.nodes i)).2 = some i) :
    Won (s.setNode i ((mostVoted (recorded i (s.nodes i)) order).1.getD i)
      (sentinelGetLeader quorum order i (s.nodes i).failoverEpoch (s.nodes i)).1).votes i
        (s.nodes i).failoverEpoch := by
  have hcount := sentinelGetLeader_votes hwin
  set r := sentinelGetLeader quorum order i (s.nodes i).failoverEpoch (s.nodes i)
  set s1 := s.setNode i ((mostVoted (recorded i (s.nodes i)) order).1.getD i) r.1
  have hs1 : Safe past s1 := h.vote i _ _
  set others := (List.finRange n).filter fun j => j ≠ i ∧
    (s.nodes i).known j = (some i, (s.nodes i).currentEpoch) with hothers
  have hcard : others.toFinset.card = recorded i (s.nodes i) i :=
    toFinset_card_of_nodup ((nodup_finRange n).filter _)
  have hmem : ∀ j ∈ others.toFinset, j ≠ i ∧ (j, (s.nodes i).failoverEpoch, i) ∈ s1.votes := by
    intro j hj
    simp only [hothers, mem_toFinset, mem_filter, decide_eq_true_eq] at hj
    exact ⟨hj.2.1, votes_setNode_subset _ _ _ _ (hepoch ▸ h.known i j _ i hj.2.2)⟩
  split_ifs at hcount with hown
  · have hi : i ∉ others.toFinset := fun hi => (hmem i hi).1 rfl
    refine ⟨others.toFinset.cons i hi, ?_, fun j hj => ?_⟩
    · rw [Finset.card_cons, hcard, Fintype.card_fin]
      exact hcount
    · rcases Finset.mem_cons.mp hj with rfl | hj
      · have hleader := hs1.leader j j
        simp only [s1, State.setNode, update_self] at hleader
        rw [← hown.2]
        exact hleader hown.1
      · exact (hmem j hj).2
  · exact ⟨others.toFinset, by rw [hcard, Fintype.card_fin]; exact hcount, fun j hj => (hmem j hj).2⟩

/-! ### The election -/

theorem Safe.step (h : Safe past s) (quorum : ℕ) (a : Action n) : Safe past (step quorum a s).1 := by
  cases a with
  | publish i j => exact h.send fun i j e c heq => by cases heq
  | start i =>
    unfold Sentinel.step
    dsimp only
    split_ifs
    · exact h.same i i (fun _ => id) rfl fun _ _ _ => id
    · exact h
  | ask i j => exact h.send fun i j e c heq => by cases heq
  | forget i j =>
    refine h.same i i (fun _ => id) rfl fun j' e c hk => ?_
    simp only [update_apply] at hk
    split_ifs at hk
    · cases hk
    · exact hk
  | deliver m monitored =>
    unfold Sentinel.step
    dsimp only
    split_ifs with hm
    · exact h.receive monitored (contains_iff_mem.mp hm)
    · exact h
  | check i order =>
    have hvote : Safe past (s.setNode i _ (sentinelGetLeader quorum order i (s.nodes i).failoverEpoch (s.nodes i)).1) :=
      h.vote i ((mostVoted (recorded i (s.nodes i)) order).1.getD i) (s.nodes i).failoverEpoch
    unfold Sentinel.step
    dsimp only
    split_ifs
    · exact h
    · have hstart :=
        hvote.same i i (x := { (sentinelGetLeader quorum order i (s.nodes i).failoverEpoch (s.nodes i)).1 with
        failoverState := .started }) (fun c hc => ?_) ?_ fun j e c hk => ?_
      · simpa [State.setNode] using hstart
      · simpa [State.setNode] using hc
      · simp [State.setNode]
      · simpa [State.setNode] using hk
    · exact hvote
  | abort i => exact h.same i i (fun _ => id) rfl fun _ _ _ => id
  | resetMaster i => exact h.same i i (fun _ hc => by cases hc) rfl fun _ _ _ => id

structure Elected (s : State n) (won : List (Fin n × ℕ)) : Prop where
  safe : Safe [] s
  won : ∀ i e, (i, e) ∈ won → Won s.votes i e

/-- A Sentinel looks for the leader in the epoch of its failover. -/
def InEpoch (s : State n) : Action n → Prop
  | .check i _ => (s.nodes i).failoverState = .waitStart → (s.nodes i).currentEpoch = (s.nodes i).failoverEpoch
  | _ => True

theorem Safe.won_step (h : Safe past s) {a : Action n} (ha : InEpoch s a) {e : ℕ}
    (hwin : (i, e) ∈ (Sentinel.step quorum a s).2) : Won (Sentinel.step quorum a s).1.votes i e := by
  cases a with
  | check j order =>
    unfold Sentinel.step at hwin ⊢
    dsimp only at hwin ⊢
    split_ifs at hwin ⊢ with hstate hlead
    · cases hwin
    · cases mem_singleton.mp hwin
      exact h.won (ha (not_not.mp hstate)) hlead
    · cases hwin
  | _ => cases hwin

theorem Elected.step {won : List (Fin n × ℕ)} (h : Elected s won) (quorum : ℕ) (a : Action n) (ha : InEpoch s a) :
    Elected (Sentinel.step quorum a s).1 (won ++ (Sentinel.step quorum a s).2) := by
  refine ⟨h.safe.step quorum a, fun i e hmem => ?_⟩
  rcases mem_append.mp hmem with hmem | hmem
  · exact (h.won i e hmem).mono (h.safe.start.step quorum a).kept
  · exact h.safe.won_step ha hmem

/-- While each Sentinel looks for the leader in the epoch of its failover, no two pass the check for the
same epoch. -/
theorem one_leader_per_epoch (quorum : ℕ) (actions : List (Action n))
    (h : Along (step quorum) InEpoch actions initial) (i i' : Fin n) (e : ℕ)
    (hi : (i, e) ∈ (run (step quorum) actions initial).2)
    (hi' : (i', e) ∈ (run (step quorum) actions initial).2) : i = i' := by
  have hrun := trace_invariant (I := Elected) (fun s T a hT ha => hT.step quorum a ha)
    (s := initial) ⟨safe_initial, fun _ _ hmem => absurd hmem not_mem_nil⟩ h
  exact hrun.safe.oneVote.won_unique (hrun.won i e hi) (hrun.won i' e hi')

instance decidableInEpoch (s : State n) : ∀ a, Decidable (InEpoch s a)
  | .check i _ =>
    inferInstanceAs (Decidable ((s.nodes i).failoverState = .waitStart →
      (s.nodes i).currentEpoch = (s.nodes i).failoverEpoch))
  | .publish .. | .start _ | .ask .. | .forget .. | .deliver .. | .abort _ | .resetMaster _ => instDecidableTrue

/-- `i` asks `j` for its vote in the epoch, and gets it. -/
def asks (i j : Fin n) (epoch : ℕ) : List (Action n) :=
  [.ask i j, .deliver (.request i j epoch (some i)) true, .deliver (.reply j i (some i) epoch) true]

/-- Five Sentinels, and `1` leads the failover of epoch 1. -/
def oneFailover : List (Action 5) := .start 1 :: (asks 1 2 1 ++ asks 1 3 1 ++ [.check 1 [1]])

theorem oneFailover_leads : (1, 1) ∈ (run (step 2) oneFailover initial).2 ∧
    (∀ i, (i, 1) ∈ (run (step 2) oneFailover initial).2 → i = 1) := by
  have hlead : (1, 1) ∈ (run (step 2) oneFailover initial).2 := by decide +kernel
  exact ⟨hlead, fun i hi => one_leader_per_epoch 2 oneFailover (by decide +kernel) i 1 1 hi hlead⟩

/-- `0` has voted for itself in epoch 1, which is the epoch of its failover. Then it hears of epoch 2 and
asks for the votes of that epoch. -/
def mixedEpochs : List (Action 5) :=
  [.start 0, .check 0 []] ++ oneFailover ++
    [.publish 0 4, .deliver (.hello 4 1) true, .start 4, .publish 4 0, .deliver (.hello 0 2) true] ++
    asks 0 2 2 ++ asks 0 3 2 ++ [.check 0 [0]]

theorem mixedEpochs_two_leaders : (run (step 2) mixedEpochs initial).2 = [(1, 1), (0, 1)] := by
  decide +kernel

/-- Without any condition, so also where two lead in one epoch: a Sentinel votes once in an epoch, and no
vote is known that was not given. -/
theorem one_vote_per_epoch (quorum : ℕ) (actions : List (Action n)) :
    let s := (run (step quorum) actions initial).1
    OneVote s.votes ∧ ∀ i j e c, (s.nodes i).known j = (some c, e) → (j, e, c) ∈ s.votes := by
  have h := invariant (fun s a (h : Safe [] s) _ => h.step quorum a) safe_initial (along_true actions _)
  exact ⟨h.oneVote, h.known⟩

end RedisIR.Sentinel
