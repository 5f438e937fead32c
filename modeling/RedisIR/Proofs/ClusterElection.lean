import RedisIR.Spec.ClusterElection

/-! An election has one winner in an epoch, unless a vote of an earlier election comes in between the
moment a replica schedules an election and the moment it asks for votes: it is counted then, and the
count is not reset any more. -/

namespace RedisIR.Cluster

open Votes List Function Machine

variable {size : ℕ} {R : Type} [DecidableEq R] {s : State size R} {m : Fin size} {r : R} {v : Voter} {x : Replica}
variable {e : ℕ} {won : List (R × ℕ)}

structure Voter.Ok (v : Voter) : Prop where
  saved : v.saved.lastVoteEpoch ≤ v.saved.currentEpoch
  voted : v.saved.lastVoteEpoch ≤ v.mem.lastVoteEpoch
  mem : v.mem.lastVoteEpoch ≤ v.mem.currentEpoch

def Replica.Asked (x : Replica) (epoch : ℕ) : Prop :=
  epoch ≤ x.savedEpoch ∧ (x.failoverAuthSent = true → epoch ≤ x.failoverAuthEpoch)

/-- A replica has counted masters that have voted for it in its election and of which the votes are not
on their way any more. -/
def Counted (s : State size R) (r : R) : Prop :=
  ∃ S : Finset (Fin size), (s.replicas r).failoverAuthCount = S.card ∧ ∀ m ∈ S,
    (m, (s.replicas r).failoverAuthEpoch, r) ∈ s.votes ∧ .authAck m r (s.replicas r).failoverAuthEpoch ∉ s.net

structure Safe (s : State size R) : Prop where
  voters : ∀ m, (s.voters m).Ok
  epochs : ∀ r, (s.replicas r).savedEpoch ≤ (s.replicas r).currentEpoch
  scheduled : ∀ r, (s.replicas r).failoverAuthSent = false → (s.replicas r).failoverAuthCount = 0
  oneVote : OneVote s.votes
  voted : ∀ m e r, (m, e, r) ∈ s.votes → e ≤ (s.voters m).saved.lastVoteEpoch ∧ (s.replicas r).Asked e
  requests : ∀ r m e, .authRequest r m e ∈ s.net → (s.replicas r).Asked e
  acks : ∀ m r e, .authAck m r e ∈ s.net → (m, e, r) ∈ s.votes
  once : ∀ m r e, s.net.count (.authAck m r e) ≤ 1
  counted : ∀ r, Counted s r

theorem safe_initial : Safe (initial : State size R) where
  voters _ := ⟨le_rfl, le_rfl, le_rfl⟩
  epochs _ := le_rfl
  scheduled _ _ := rfl
  oneVote _ _ _ _ h := by cases h
  voted _ _ _ h := by cases h
  requests _ _ _ h := by cases h
  acks _ _ _ h := by cases h
  once _ _ _ := Nat.zero_le 1
  counted _ := ⟨∅, rfl, by simp⟩

/-! ### What a step changes -/

section

variable (h : Safe s)
include h

theorem Safe.setVoter (hv : v.Ok) (hle : (s.voters m).saved.lastVoteEpoch ≤ v.saved.lastVoteEpoch) :
    Safe (s.setVoter m v) := by
  refine ⟨fun m' => ?_, h.epochs, h.scheduled, h.oneVote, fun m' e r hvote => ?_, h.requests, h.acks, h.once,
    h.counted⟩
  · simp only [State.setVoter, update_apply]
    split_ifs
    · exact hv
    · exact h.voters m'
  · obtain ⟨hvoted, hasked⟩ := h.voted m' e r hvote
    refine ⟨?_, hasked⟩
    simp only [State.setVoter, update_apply]
    split_ifs with hm
    · subst hm
      exact hvoted.trans hle
    · exact hvoted

theorem Safe.setReplica (hepochs : x.savedEpoch ≤ x.currentEpoch)
    (hscheduled : x.failoverAuthSent = false → x.failoverAuthCount = 0)
    (hasked : ∀ e, (s.replicas r).Asked e → x.Asked e) (hcounted : Counted (s.setReplica r x) r) :
    Safe (s.setReplica r x) := by
  have hcase {P : Replica → R → Prop} (hx : P x r) (hother : ∀ r', P (s.replicas r') r') (r' : R) :
      P ((s.setReplica r x).replicas r') r' := by
    simp only [State.setReplica, update_apply]
    split_ifs with hr
    · subst hr
      exact hx
    · exact hother r'
  have hgrow (e : ℕ) (r' : R) : (s.replicas r').Asked e → ((s.setReplica r x).replicas r').Asked e :=
    hcase (P := fun x r' => (s.replicas r').Asked e → x.Asked e) (hasked e) (fun _ => id) r'
  refine ⟨h.voters, hcase (P := fun x _ => x.savedEpoch ≤ x.currentEpoch) hepochs h.epochs,
    hcase (P := fun x _ => x.failoverAuthSent = false → x.failoverAuthCount = 0) hscheduled h.scheduled, h.oneVote,
    fun m e r' hvote => ?_, fun r' m e hp => hgrow e r' (h.requests r' m e hp), h.acks, h.once, fun r' => ?_⟩
  · exact ⟨(h.voted m e r' hvote).1, hgrow e r' (h.voted m e r' hvote).2⟩
  · by_cases hr : r' = r
    · subst hr
      exact hcounted
    · simpa [Counted, State.setReplica, hr] using h.counted r'

theorem Safe.keepElection (hepochs : x.savedEpoch ≤ x.currentEpoch)
    (hsaved : (s.replicas r).savedEpoch ≤ x.savedEpoch)
    (hepoch : x.failoverAuthEpoch = (s.replicas r).failoverAuthEpoch)
    (hcount : x.failoverAuthCount = (s.replicas r).failoverAuthCount)
    (hsent : x.failoverAuthSent = (s.replicas r).failoverAuthSent) : Safe (s.setReplica r x) := by
  refine h.setReplica hepochs (fun hx => ?_) (fun e he => ⟨he.1.trans hsaved, fun hx => ?_⟩) ?_
  · rw [hcount]
    exact h.scheduled r (hsent ▸ hx)
  · rw [hepoch]
    exact he.2 (hsent ▸ hx)
  · simpa [Counted, State.setReplica, hepoch, hcount] using h.counted r

theorem Safe.leaveElection (hepochs : x.savedEpoch ≤ x.currentEpoch)
    (hsaved : (s.replicas r).savedEpoch ≤ x.savedEpoch) (hcount : x.failoverAuthCount = 0)
    (hsent : x.failoverAuthSent = false) : Safe (s.setReplica r x) := by
  refine h.setReplica hepochs (fun _ => hcount) (fun e he => ⟨he.1.trans hsaved, fun hx => ?_⟩)
    ⟨∅, ?_, by simp⟩
  · rw [hsent] at hx
    cases hx
  · simpa [State.setReplica] using hcount

theorem Safe.erase (p : Packet size R) : Safe { s with net := s.net.erase p } := by
  refine ⟨h.voters, h.epochs, h.scheduled, h.oneVote, h.voted, fun r m e hp => h.requests r m e (mem_of_mem_erase hp),
    fun m r e hp => h.acks m r e (mem_of_mem_erase hp), fun m r e => ?_, fun r => ?_⟩
  · exact ((erase_sublist).count_le _).trans (h.once m r e)
  · obtain ⟨S, hcard, hS⟩ := h.counted r
    exact ⟨S, hcard, fun m hm => ⟨(hS m hm).1, fun hp => (hS m hm).2 (mem_of_mem_erase hp)⟩⟩

theorem Safe.vote (hasked : (s.replicas r).Asked e) (hv : v.Ok)
    (hnew : (s.voters m).saved.lastVoteEpoch < e) (hsaved : v.saved.lastVoteEpoch = e) :
    Safe { s.setVoter m v with net := .authAck m r e :: s.net, votes := s.votes ++ [(m, e, r)] } := by
  have hfresh (r' : R) : (m, e, r') ∉ s.votes := fun hvote => by
    have := (h.voted m e r' hvote).1
    omega
  have h' := h.setVoter (m := m) hv (by omega)
  refine ⟨h'.voters, h.epochs, h.scheduled, h.oneVote.snoc hfresh r, fun m' e' r' hvote => ?_, fun r' m' e' hp => ?_,
    fun m' r' e' hp => ?_, fun m' r' e' => ?_, fun r' => ?_⟩
  · rcases mem_append.mp hvote with hvote | hvote
    · exact h'.voted m' e' r' hvote
    · cases mem_singleton.mp hvote
      exact ⟨by simp [State.setVoter, hsaved], hasked⟩
  · exact h.requests r' m' e' (by simpa using hp)
  · rcases mem_cons.mp hp with hp | hp
    · cases hp
      exact mem_append_right _ (mem_singleton_self _)
    · exact mem_append_left _ (h.acks m' r' e' hp)
  · by_cases hp : Packet.authAck m r e = .authAck m' r' e'
    · cases hp
      have hnone : s.net.count (.authAck m r e) = 0 := count_eq_zero.mpr fun hp => hfresh r (h.acks m r e hp)
      rw [count_cons_self, hnone]
    · rw [count_cons_of_ne hp]
      exact h.once m' r' e'
  · obtain ⟨S, hcard, hS⟩ := h.counted r'
    refine ⟨S, hcard, fun m' hm' => ⟨mem_append_left _ (hS m' hm').1, fun hp => ?_⟩⟩
    rcases mem_cons.mp hp with hp | hp
    · obtain ⟨rfl, rfl, he⟩ := Packet.authAck.inj hp
      exact hfresh r' (he ▸ (hS m' hm').1)
    · exact (hS m' hm').2 hp

theorem Safe.receive_request (hasked : (s.replicas r).Asked e) (mayVote : Bool) :
    Safe (s.receive (.authRequest r m e) mayVote) := by
  obtain ⟨hsaved, hvoted, hmem⟩ := h.voters m
  have hheader : ((s.voters m).header e).Ok := ⟨hsaved, hvoted, hmem.trans (le_max_left _ _)⟩
  unfold State.receive clusterSendFailoverAuthIfNeeded
  dsimp only
  split_ifs with hold hsame hmay
  · exact h.setVoter hheader le_rfl
  · exact h.setVoter hheader le_rfl
  · exact h.setVoter hheader le_rfl
  · -- the epoch of the request is that of the master now
    have hepoch : ((s.voters m).header e).mem.currentEpoch = e := max_eq_right (by simpa [Voter.header] using hold)
    have hlt : (s.voters m).mem.lastVoteEpoch ≠ e := fun he => hsame (he.trans hepoch.symm)
    have hle : (s.voters m).mem.currentEpoch ≤ e := by simpa [Voter.header] using hold
    dsimp only
    rw [hepoch]
    exact h.vote hasked ⟨le_rfl, le_rfl, le_rfl⟩ (by omega) rfl

theorem Safe.receive_ack (hp : .authAck m r e ∈ s.net)
    (hsent : (s.replicas r).failoverAuthEpoch ≤ e → (s.replicas r).failoverAuthSent = true) (mayVote : Bool) :
    Safe ({ s with net := s.net.erase (.authAck m r e) }.receive (.authAck m r e) mayVote) := by
  have hle : (s.replicas r).savedEpoch ≤ max (s.replicas r).currentEpoch e := (h.epochs r).trans (le_max_left _ _)
  have hvote := h.acks m r e hp
  unfold State.receive countAck
  dsimp only
  split_ifs with hcount
  · replace hcount : (s.replicas r).failoverAuthEpoch ≤ e := hcount
    have hepoch : (s.replicas r).failoverAuthEpoch = e := le_antisymm hcount ((h.voted m e r hvote).2.2 (hsent hcount))
    refine (h.erase _).setReplica hle (fun hx => ?_) (fun e he => he) ?_
    · exact absurd ((hsent hcount).symm.trans hx) (by decide)
    · obtain ⟨S, hcard, hS⟩ := h.counted r
      have hm : m ∉ S := fun hm => (hS m hm).2 (hepoch ▸ hp)
      have hgone : .authAck m r e ∉ s.net.erase (.authAck m r e) := by
        rw [← count_eq_zero, count_erase_self]
        exact Nat.sub_eq_zero_of_le (h.once m r e)
      refine ⟨S.cons m hm, ?_, fun m' hm' => ?_⟩
      · simp only [State.setReplica, update_self, Replica.header, hcard, Finset.card_cons]
      · simp only [State.setReplica, update_self, Replica.header, hepoch]
        rw [hepoch] at hS
        rcases Finset.mem_cons.mp hm' with rfl | hm'
        · exact ⟨hvote, hgone⟩
        · exact ⟨(hS m' hm').1, fun hp' => (hS m' hm').2 (mem_of_mem_erase hp')⟩
  · exact (h.erase _).keepElection hle le_rfl rfl rfl rfl

/-- A replica asks for votes in an epoch that it has never been in. -/
theorem Safe.request (hsent : (s.replicas r).failoverAuthSent = false) :
    Safe { s.setReplica r { s.replicas r with
        currentEpoch := (s.replicas r).currentEpoch + 1, savedEpoch := (s.replicas r).currentEpoch + 1
        failoverAuthEpoch := (s.replicas r).currentEpoch + 1, failoverAuthSent := true } with
      net := (List.finRange size).map (.authRequest r · ((s.replicas r).currentEpoch + 1)) ++ s.net } := by
  have hepochs := h.epochs r
  have h1 := h.setReplica (r := r) (x := { s.replicas r with
      currentEpoch := (s.replicas r).currentEpoch + 1, savedEpoch := (s.replicas r).currentEpoch + 1
      failoverAuthEpoch := (s.replicas r).currentEpoch + 1, failoverAuthSent := true }) le_rfl (fun hx => by cases hx)
    (fun e he => by
      have hle : e ≤ (s.replicas r).currentEpoch + 1 := by
        have := he.1
        omega
      exact ⟨hle, fun _ => hle⟩)
    ⟨∅, by simpa [State.setReplica] using h.scheduled r hsent, by simp⟩
  refine ⟨h1.voters, h1.epochs, h1.scheduled, h1.oneVote, h1.voted, fun r' m e hp => ?_, fun m r' e hp => ?_,
    fun m r' e => ?_, fun r' => ?_⟩
  · rcases mem_append.mp hp with hp | hp
    · obtain ⟨m', -, heq⟩ := mem_map.mp hp
      obtain ⟨rfl, -, rfl⟩ := Packet.authRequest.inj heq
      simp [State.setReplica, Replica.Asked]
    · exact h1.requests r' m e hp
  · exact h.acks m r' e (by simpa using hp)
  · have hnone : ((List.finRange size).map (Packet.authRequest r · ((s.replicas r).currentEpoch + 1))).count
        (.authAck m r' e) = 0 := count_eq_zero.mpr (by simp)
    rw [count_append, hnone, Nat.zero_add]
    exact h1.once m r' e
  · obtain ⟨S, hcard, hS⟩ := h1.counted r'
    exact ⟨S, hcard, fun m hm => ⟨(hS m hm).1, fun hp => (hS m hm).2 (by simpa using hp : _ ∈ s.net)⟩⟩

end

/-! ### Runs -/

/-- A vote that is counted comes when the replica has asked for votes, and no epoch wraps around. -/
def InTime (s : State size R) : Action size R → Prop
  | .deliver (.authAck _ r epoch) _ =>
    (s.replicas r).failoverAuthEpoch ≤ epoch → (s.replicas r).failoverAuthSent = true
  | .cron r _ => (s.replicas r).currentEpoch + 1 < 2 ^ 64
  | .collision m => (s.voters m).mem.currentEpoch + 1 < 2 ^ 64
  | _ => True

def Elected (s : State size R) (won : List (R × ℕ)) : Prop := Safe s ∧ ∀ r e, (r, e) ∈ won → Won s.votes r e

theorem Elected.quiet {s' : State size R} (h : Elected s won) (hs' : Safe s') (hvotes : s'.votes = s.votes) :
    Elected s' (won ++ []) := by
  rw [append_nil]
  exact ⟨hs', fun r e hmem => hvotes ▸ h.2 r e hmem⟩

theorem Elected.cron (h : Elected s won) (r : R) (t : Moment) (hwrap : (s.replicas r).currentEpoch + 1 < 2 ^ 64) :
    Elected (step (.cron r t) s).1 (won ++ (step (.cron r t) s).2) := by
  obtain ⟨hs, hwon⟩ := id h
  have hsame : Safe (s.setReplica r (s.replicas r)) := hs.keepElection (hs.epochs r) le_rfl rfl rfl rfl
  unfold step clusterHandleSlaveFailover
  dsimp only
  split_ifs with hreason hretry hwait hsent hquorum
  · exact h.quiet hsame rfl
  · exact h.quiet (hs.leaveElection (hs.epochs r) le_rfl rfl rfl) rfl
  · exact h.quiet hsame rfl
  · rw [Nat.mod_eq_of_lt hwrap]
    exact h.quiet (hs.request (by simpa using hsent)) rfl
  · refine ⟨hs.keepElection (hs.epochs r) le_rfl rfl rfl rfl, fun r' e hmem => ?_⟩
    rcases mem_append.mp hmem with hmem | hmem
    · exact hwon r' e hmem
    · cases mem_singleton.mp hmem
      obtain ⟨S, hcard, hS⟩ := hs.counted r
      exact ⟨S, by rw [Fintype.card_fin, ← hcard]; exact hquorum, fun m hm => (hS m hm).1⟩
  · exact h.quiet hsame rfl

theorem Elected.step (h : Elected s won) (a : Action size R) (ha : InTime s a) :
    Elected (step a s).1 (won ++ (step a s).2) := by
  obtain ⟨hs, hwon⟩ := id h
  cases a with
  | cron r t => exact h.cron r t ha
  | deliver p mayVote =>
    dsimp only [Cluster.step]
    rw [append_nil]
    split_ifs with hp
    · rw [contains_iff_mem] at hp
      cases p with
      | authRequest r m e =>
        refine ⟨(hs.erase _).receive_request (hs.requests r m e hp) mayVote,
          fun r' e' hmem => (hwon r' e' hmem).mono ?_⟩
        unfold State.receive
        dsimp only
        split
        · exact List.Subset.refl _
        · exact subset_append_left _ _
      | authAck m r e => exact ⟨hs.receive_ack hp ha mayVote, hwon⟩
    · exact h
  | lose p => exact h.quiet (hs.erase p) rfl
  | header x e =>
    cases x with
    | inl m =>
      obtain ⟨hsaved, hvoted, hmem⟩ := hs.voters m
      exact h.quiet (hs.setVoter ⟨hsaved, hvoted, hmem.trans (le_max_left _ _)⟩ le_rfl) rfl
    | inr r => exact h.quiet (hs.keepElection ((hs.epochs r).trans (le_max_left _ _)) le_rfl rfl rfl rfl) rfl
  | collision m =>
    obtain ⟨hsaved, hvoted, hmem⟩ := hs.voters m
    refine h.quiet (hs.setVoter ⟨hsaved, hvoted, ?_⟩ le_rfl) rfl
    dsimp only
    rw [Nat.mod_eq_of_lt ha]
    omega
  | save x =>
    cases x with
    | inl m => exact h.quiet (hs.setVoter ⟨(hs.voters m).mem, le_rfl, (hs.voters m).mem⟩ (hs.voters m).voted) rfl
    | inr r => exact h.quiet (hs.keepElection le_rfl (hs.epochs r) rfl rfl rfl) rfl
  | restart x =>
    cases x with
    | inl m => exact h.quiet (hs.setVoter ⟨(hs.voters m).saved, le_rfl, (hs.voters m).saved⟩ le_rfl) rfl
    | inr r => exact h.quiet (hs.leaveElection le_rfl le_rfl rfl rfl) rfl

/-- No two replicas win an election in the same epoch, as long as no vote is counted between the
scheduling of an election and its requests, and no epoch wraps around. -/
theorem one_winner_per_epoch (size : ℕ) (actions : List (Action size R))
    (h : Along step InTime actions initial) (r r' : R) (e : ℕ)
    (hr : (r, e) ∈ (run step actions initial).2) (hr' : (r', e) ∈ (run step actions initial).2) : r = r' := by
  have hinitial : Elected (initial : State size R) [] := ⟨safe_initial, fun _ _ hmem => by cases hmem⟩
  obtain ⟨hs, hwon⟩ := trace_invariant (fun s won a (hs : Elected s won) ha => hs.step a ha) hinitial h
  exact hs.oneVote.won_unique (hwon r e hr) (hwon r' e hr')

def due : Moment := ⟨true, false, false, false⟩

def retried : Moment := ⟨true, true, false, false⟩

def oneElection : List (Action 3 ℕ) :=
  [.cron 0 due, .deliver (.authRequest 0 0 1) true, .deliver (.authAck 0 0 1) true, .deliver (.authRequest 0 1 1) true,
    .deliver (.authAck 1 0 1) true, .cron 0 due, .cron 1 due, .deliver (.authRequest 1 1 1) true, .cron 1 due]

instance decidableInTime (s : State size R) : ∀ a, Decidable (InTime s a)
  | .deliver (.authAck _ r epoch) _ =>
    inferInstanceAs (Decidable ((s.replicas r).failoverAuthEpoch ≤ epoch → (s.replicas r).failoverAuthSent = true))
  | .cron r _ => inferInstanceAs (Decidable ((s.replicas r).currentEpoch + 1 < 2 ^ 64))
  | .collision m => inferInstanceAs (Decidable ((s.voters m).mem.currentEpoch + 1 < 2 ^ 64))
  | .deliver (.authRequest _ _ _) _ | .lose _ | .header _ _ | .save _ | .restart _ => isTrue trivial

theorem oneElection_won : (run step oneElection initial).2 = [(0, 1)] ∧
    ∀ r, (r, 1) ∈ (run step oneElection initial).2 → r = 0 := by
  have hwon : (run step oneElection initial).2 = [(0, 1)] := by decide
  exact ⟨hwon, fun r hr => one_winner_per_epoch 3 oneElection (by decide) r 0 1 hr (hwon ▸ mem_singleton_self _)⟩

/-- Each of two replicas has a vote in the epoch 1 that arrives when it has scheduled its next
election; in the epoch 2 one vote is enough for each of them. -/
def twoElections : List (Action 3 ℕ) :=
  [.cron 0 due, .cron 1 due, .deliver (.authRequest 0 0 1) true, .deliver (.authRequest 1 1 1) true, .cron 0 retried,
    .cron 1 retried, .deliver (.authAck 0 0 1) true, .deliver (.authAck 1 1 1) true, .cron 0 due, .cron 1 due,
    .deliver (.authRequest 0 0 2) true, .deliver (.authRequest 1 1 2) true, .deliver (.authAck 0 0 2) true,
    .deliver (.authAck 1 1 2) true, .cron 0 due, .cron 1 due]

theorem twoElections_both_won : (run step twoElections initial).2 = [(0, 2), (1, 2)] := by decide

end RedisIR.Cluster
