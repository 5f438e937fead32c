import RedisIR.Lib.Votes
import RedisIR.Lib.Machine

/-! The election of the Sentinel that leads a failover (`sentinel.c`), among a fixed number of Sentinels
that watch one master. The clock and the state of the master are up to the environment. -/

namespace RedisIR.Sentinel

inductive FailoverState
  | none
  | waitStart
  | started
  deriving DecidableEq

/-- One Sentinel: its vote is in `leader` and `leaderEpoch`, and `known` has the votes that the others
have reported. -/
structure Node (n : ℕ) where
  currentEpoch : ℕ
  leader : Option (Fin n)
  leaderEpoch : ℕ
  failoverState : FailoverState
  failoverEpoch : ℕ
  known : Fin n → Option (Fin n) × ℕ

variable {n : ℕ}

/-- What is returned are `leader` and `leaderEpoch` afterwards. -/
def sentinelVoteLeader (reqEpoch : ℕ) (reqRunid : Fin n) (x : Node n) : Node n :=
  let x1 := { x with currentEpoch := max x.currentEpoch reqEpoch }
  if x1.leaderEpoch < reqEpoch ∧ x1.currentEpoch ≤ reqEpoch then
    { x1 with leader := some reqRunid, leaderEpoch := x1.currentEpoch }
  else x1

/-- The votes of the others that are counted: those for the current epoch. -/
def recorded (me : Fin n) (x : Node n) (c : Fin n) : ℕ :=
  ((List.finRange n).filter fun i => i ≠ me ∧ x.known i = (some c, x.currentEpoch)).length

/-- The counters are looked through in the order of their dictionary. -/
def mostVoted (votes : Fin n → ℕ) (order : List (Fin n)) : Option (Fin n) × ℕ :=
  order.foldl (fun w c => if votes c > w.2 then (some c, votes c) else w) (none, 0)

/-- The winner for `epoch`, with what is left of the Sentinel after its own vote. -/
def sentinelGetLeader (quorum : ℕ) (order : List (Fin n)) (me : Fin n) (epoch : ℕ) (x : Node n) :
    Node n × Option (Fin n) :=
  let best := mostVoted (recorded me x) order
  let x1 := sentinelVoteLeader epoch (best.1.getD me) x
  let best1 := match x1.leader with
    | some myvote =>
      if x1.leaderEpoch = epoch ∧ recorded me x myvote + 1 > best.2 then
        (some myvote, recorded me x myvote + 1) else best
    | none => best
  (x1, if best1.2 < n / 2 + 1 ∨ best1.2 < quorum then none else best1.1)

/-- A hello message, and `SENTINEL is-master-down-by-addr` with a run ID or `*` and its reply. -/
inductive Message (n : ℕ)
  | hello (receiver : Fin n) (epoch : ℕ)
  | request (sender receiver : Fin n) (epoch : ℕ) (runid : Option (Fin n))
  | reply (sender receiver : Fin n) (leader : Option (Fin n)) (epoch : ℕ)
  deriving DecidableEq

/-- The votes that were given are kept for the statements. -/
structure State (n : ℕ) where
  nodes : Fin n → Node n
  sent : List (Message n)
  votes : List (Fin n × ℕ × Fin n)

/-- The Sentinel `i` is `x` now; a new vote is one for `c`. -/
def State.setNode (s : State n) (i c : Fin n) (x : Node n) : State n :=
  { s with
    nodes := Function.update s.nodes i x
    votes := if x.leaderEpoch = (s.nodes i).leaderEpoch then s.votes else s.votes ++ [(i, x.leaderEpoch, c)] }

/-- The reply to a request; with `none` it asks for no vote. -/
def State.answer (s : State n) (sender receiver : Fin n) (epoch : ℕ) : Option (Fin n) → State n
  | some runid =>
    let x := sentinelVoteLeader epoch runid (s.nodes receiver)
    let s1 := s.setNode receiver runid x
    { s1 with sent := .reply receiver sender x.leader x.leaderEpoch :: s1.sent }
  | none => { s with sent := .reply receiver sender none 0 :: s.sent }

/-- A request is about the master at an address, which the receiver may not monitor any more. -/
def State.receive (s : State n) (monitored : Bool) : Message n → State n
  | .hello receiver epoch =>
    let x := s.nodes receiver
    s.setNode receiver receiver { x with currentEpoch := max x.currentEpoch epoch }
  | .request sender receiver epoch runid =>
    -- a larger epoch is no `long long`, and the reply is an error
    if 2 ^ 63 ≤ epoch then s else s.answer sender receiver epoch (if monitored then runid else none)
  | .reply sender receiver (some leader) epoch =>
    let x := s.nodes receiver
    s.setNode receiver leader { x with known := Function.update x.known sender (some leader, epoch) }
  | .reply _ _ none _ => s

inductive Action (n : ℕ)
  | publish (i j : Fin n)
  | start (i : Fin n)
  | ask (i j : Fin n)
  | forget (i j : Fin n)
  | deliver (m : Message n) (monitored : Bool)
  | check (i : Fin n) (order : List (Fin n))
  | abort (i : Fin n)
  | resetMaster (i : Fin n)

/-- One step, and the Sentinels that pass `sentinelFailoverWaitStart` in it. A message may arrive at any
time after it was sent, or never. -/
def step (quorum : ℕ) : Action n → State n → State n × List (Fin n × ℕ)
  | .publish i j, s => ({ s with sent := .hello j (s.nodes i).currentEpoch :: s.sent }, [])
  | .start i, s =>
    let epoch := ((s.nodes i).currentEpoch + 1) % 2 ^ 64
    (if (s.nodes i).failoverState = .none then
      s.setNode i i { s.nodes i with currentEpoch := epoch, failoverState := .waitStart, failoverEpoch := epoch }
    else s, [])
  | .ask i j, s =>
    let runid := if (s.nodes i).failoverState = .none then none else some i
    ({ s with sent := .request i j (s.nodes i).currentEpoch runid :: s.sent }, [])
  | .forget i j, s =>
    let x := s.nodes i
    (s.setNode i i { x with known := Function.update x.known j (none, (x.known j).2) }, [])
  | .deliver m monitored, s => (if s.sent.contains m then s.receive monitored m else s, [])
  | .check i order, s =>
    let x := s.nodes i
    let r := sentinelGetLeader quorum order i x.failoverEpoch x
    let s1 := s.setNode i ((mostVoted (recorded i x) order).1.getD i) r.1
    if x.failoverState ≠ .waitStart then (s, [])
    else if r.2 = some i then
      ({ s1 with nodes := Function.update s1.nodes i { r.1 with failoverState := .started } }, [(i, x.failoverEpoch)])
    else (s1, [])
  | .abort i, s => (s.setNode i i { s.nodes i with failoverState := .none }, [])
  | .resetMaster i, s => (s.setNode i i { s.nodes i with leader := none, failoverState := .none }, [])

def initial : State n := ⟨fun _ => ⟨0, none, 0, .none, 0, fun _ => (none, 0)⟩, [], []⟩

end RedisIR.Sentinel
