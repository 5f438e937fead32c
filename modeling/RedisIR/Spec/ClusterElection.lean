import RedisIR.Lib.Votes
import RedisIR.Lib.Machine

/-! The election of a replica in a cluster (`cluster.c`): masters vote, a replica counts the votes. The
set of masters is fixed; the clock, the failure reports and the slots of the nodes are up to the
environment, and so are the epochs in the headers of all other packets. -/

namespace RedisIR.Cluster

/-- The epochs that `nodes.conf` keeps. -/
structure Epochs where
  currentEpoch : ℕ
  lastVoteEpoch : ℕ

structure Voter where
  mem : Epochs
  saved : Epochs

structure Replica where
  currentEpoch : ℕ
  savedEpoch : ℕ
  failoverAuthEpoch : ℕ
  failoverAuthCount : ℕ
  failoverAuthSent : Bool
  promoted : Bool

inductive Packet (size : ℕ) (R : Type)
  | authRequest (replica : R) (master : Fin size) (epoch : ℕ)
  | authAck (master : Fin size) (replica : R) (epoch : ℕ)
  deriving DecidableEq

/-- What `clusterHandleSlaveFailover` finds: whether there is a reason for a failover, whether the
retry time has elapsed, the start is still delayed, and the election is too old. -/
structure Moment where
  canFailover : Bool
  retry : Bool
  delayed : Bool
  expired : Bool

inductive Failover
  | nothing
  | request (epoch : ℕ)
  | won

/-- `currentEpoch` is a `uint64_t`. The configuration is saved before a request is sent. -/
def clusterHandleSlaveFailover (size : ℕ) (t : Moment) (r : Replica) : Replica × Failover :=
  if r.promoted || !t.canFailover then (r, .nothing)
  else if t.retry then ({ r with failoverAuthCount := 0, failoverAuthSent := false }, .nothing)
  else if t.delayed || t.expired then (r, .nothing)
  else if !r.failoverAuthSent then
    let epoch := (r.currentEpoch + 1) % 2 ^ 64
    ({ r with
      currentEpoch := epoch, savedEpoch := epoch, failoverAuthEpoch := epoch,
      failoverAuthSent := true }, .request epoch)
  else if size / 2 + 1 ≤ r.failoverAuthCount then ({ r with promoted := true }, .won)
  else (r, .nothing)

def Voter.header (epoch : ℕ) (v : Voter) : Voter :=
  { v with mem := { v.mem with currentEpoch := max v.mem.currentEpoch epoch } }

def Replica.header (epoch : ℕ) (r : Replica) : Replica := { r with currentEpoch := max r.currentEpoch epoch }

/-- `mayVote`: the sender is the replica of a master that has failed (or the request is forced), no
vote was given for that master lately, and no slot has a greater epoch. The vote is saved before it is
sent. -/
def clusterSendFailoverAuthIfNeeded (mayVote : Bool) (requestCurrentEpoch : ℕ) (v : Voter) : Option Voter :=
  if requestCurrentEpoch < v.mem.currentEpoch then none
  else if v.mem.lastVoteEpoch = v.mem.currentEpoch then none
  else if !mayVote then none
  else
    let mem := { v.mem with lastVoteEpoch := v.mem.currentEpoch }
    some ⟨mem, mem⟩

def countAck (senderCurrentEpoch : ℕ) (r : Replica) : Replica :=
  if r.failoverAuthEpoch ≤ senderCurrentEpoch then { r with failoverAuthCount := r.failoverAuthCount + 1 } else r

/-- The votes that were given are kept for the statements. -/
structure State (size : ℕ) (R : Type) where
  voters : Fin size → Voter
  replicas : R → Replica
  net : List (Packet size R)
  votes : List (Fin size × ℕ × R)

inductive Action (size : ℕ) (R : Type)
  | cron (r : R) (t : Moment)
  | deliver (p : Packet size R) (mayVote : Bool)
  | lose (p : Packet size R)
  | header (x : Fin size ⊕ R) (epoch : ℕ)
  | collision (m : Fin size)
  | save (x : Fin size ⊕ R)
  | restart (x : Fin size ⊕ R)

variable {size : ℕ} {R : Type} [DecidableEq R]

namespace State

def setVoter (s : State size R) (m : Fin size) (v : Voter) : State size R :=
  { s with voters := Function.update s.voters m v }

def setReplica (s : State size R) (r : R) (x : Replica) : State size R :=
  { s with replicas := Function.update s.replicas r x }

def receive (s : State size R) (p : Packet size R) (mayVote : Bool) : State size R :=
  match p with
  | .authRequest r m epoch =>
    let v := (s.voters m).header epoch
    match clusterSendFailoverAuthIfNeeded mayVote epoch v with
    | none => s.setVoter m v
    | some v' =>
      { s.setVoter m v' with
        net := .authAck m r v'.mem.currentEpoch :: s.net, votes := s.votes ++ [(m, v'.mem.currentEpoch, r)] }
  | .authAck _ r epoch => s.setReplica r (countAck epoch ((s.replicas r).header epoch))

end State

def Replica.restarted (r : Replica) : Replica := ⟨r.savedEpoch, r.savedEpoch, 0, 0, false, r.promoted⟩

def step : Action size R → State size R → State size R × List (R × ℕ)
  | .cron r t, s =>
    let o := clusterHandleSlaveFailover size t (s.replicas r)
    match o.2 with
    | .nothing => (s.setReplica r o.1, [])
    | .request epoch =>
      ({ s.setReplica r o.1 with net := (List.finRange size).map (.authRequest r · epoch) ++ s.net }, [])
    | .won => (s.setReplica r o.1, [(r, o.1.failoverAuthEpoch)])
  | .deliver p mayVote, s => (if s.net.contains p then { s with net := s.net.erase p }.receive p mayVote else s, [])
  | .lose p, s => ({ s with net := s.net.erase p }, [])
  | .header (.inl m) epoch, s => (s.setVoter m ((s.voters m).header epoch), [])
  | .header (.inr r) epoch, s => (s.setReplica r ((s.replicas r).header epoch), [])
  | .collision m, s =>
    (s.setVoter m { s.voters m with
      mem := { (s.voters m).mem with currentEpoch := ((s.voters m).mem.currentEpoch + 1) % 2 ^ 64 } }, [])
  | .save (.inl m), s => (s.setVoter m { s.voters m with saved := (s.voters m).mem }, [])
  | .save (.inr r), s => (s.setReplica r { s.replicas r with savedEpoch := (s.replicas r).currentEpoch }, [])
  | .restart (.inl m), s => (s.setVoter m { s.voters m with mem := (s.voters m).saved }, [])
  | .restart (.inr r), s => (s.setReplica r (s.replicas r).restarted, [])

def initial : State size R :=
  ⟨fun _ => ⟨⟨0, 0⟩, ⟨0, 0⟩⟩, fun _ => ⟨0, 0, 0, 0, false, false⟩, [], []⟩

end RedisIR.Cluster
