import Mathlib

/-! The hash slots as one node of a cluster sees them (`cluster.c`): the table of their owners, and the
bitmap and the number of slots in every node. A bitmap is the set of its bits. A node that is not known
yet, or not any more, counts as one with an empty bitmap. -/

namespace RedisIR.Slots

open Function

def CLUSTER_SLOTS : ℕ := 16384

abbrev Slot := Fin CLUSTER_SLOTS

/-- `master` is the flag `CLUSTER_NODE_MASTER`. -/
structure ClusterNode (N : Type) where
  slots : Finset Slot
  numslots : ℕ
  master : Bool
  slaveof : Option N
  configEpoch : ℕ

structure Cluster (N : Type) where
  nodes : N → ClusterNode N
  slots : Slot → Option N
  importingSlotsFrom : Slot → Option N

abbrev Step (N : Type) := Cluster N → Option (Cluster N)

variable {N : Type} [DecidableEq N]

def Cluster.start : Cluster N := ⟨fun _ => ⟨∅, 0, true, none, 0⟩, fun _ => none, fun _ => none⟩

def Cluster.setNode (c : Cluster N) (n : N) (f : ClusterNode N → ClusterNode N) : Cluster N :=
  { c with nodes := update c.nodes n (f (c.nodes n)) }

def clusterNodeSetSlotBit (j : Slot) (n : ClusterNode N) : ClusterNode N :=
  { n with slots := insert j n.slots, numslots := if j ∈ n.slots then n.numslots else n.numslots + 1 }

def clusterNodeClearSlotBit (j : Slot) (n : ClusterNode N) : ClusterNode N :=
  { n with slots := n.slots.erase j, numslots := if j ∈ n.slots then n.numslots - 1 else n.numslots }

def clusterAddSlot (n : N) (j : Slot) (c : Cluster N) : Cluster N :=
  match c.slots j with
  | some _ => c
  | none => { c.setNode n (clusterNodeSetSlotBit j) with slots := update c.slots j (some n) }

/-- `none` is the assertion that fails. -/
def clusterDelSlot (j : Slot) : Step N := fun c =>
  match c.slots j with
  | none => some c
  | some n =>
    if j ∈ (c.nodes n).slots then
      some { c.setNode n (clusterNodeClearSlotBit j) with slots := update c.slots j none }
    else none

def rebind (n : N) (j : Slot) : Step N := fun c => (clusterDelSlot j c).map (clusterAddSlot n j)

/-- A loop over the slots that does something with those that pass a test. -/
def forSlots (test : Cluster N → Slot → Bool) (body : Slot → Step N) : Step N := fun c =>
  (List.finRange CLUSTER_SLOTS).foldlM (fun c j => if test c j then body j c else some c) c

def clusterDelNodeSlots (n : N) : Step N :=
  forSlots (fun c j => j ∈ (c.nodes n).slots) clusterDelSlot

/-- What follows the loop turns the local node into a replica or deletes keys, and leaves the tables
as they are. -/
def clusterUpdateSlotsConfigWith (myself sender : N) (senderConfigEpoch : ℕ) (slots : Finset Slot) : Step N :=
  fun c =>
  if sender = myself then some c
  else
    forSlots
      (fun c j => j ∈ slots ∧ c.slots j ≠ some sender ∧ c.importingSlotsFrom j = none ∧
        ∀ n ∈ c.slots j, (c.nodes n).configEpoch < senderConfigEpoch)
      (rebind sender) c

def clusterSetNodeAsMaster (n : N) (c : Cluster N) : Cluster N :=
  c.setNode n fun n => if n.master then n else { n with master := true, slaveof := none }

/-- The part of `clusterProcessPacket` about the role of the sender, who is a replica or not, and about
its slots. -/
def clusterProcessPacket (myself sender : N) (slave : Bool) (senderConfigEpoch : ℕ) (myslots : Finset Slot) :
    Step N := fun c =>
  (if slave = false then some (clusterSetNodeAsMaster sender c)
  else if (c.nodes sender).master then
    (clusterDelNodeSlots sender c).map fun c => c.setNode sender fun n => { n with master := false }
  else some c).bind fun c =>
    if (c.nodes sender).master ∧ (c.nodes sender).slots ≠ myslots then
      clusterUpdateSlotsConfigWith myself sender senderConfigEpoch myslots c
    else some c

def clusterFailoverReplaceYourMaster (myself : N) : Step N := fun c =>
  match (c.nodes myself).master, (c.nodes myself).slaveof with
  | false, some oldmaster =>
    forSlots (fun c j => j ∈ (c.nodes oldmaster).slots) (rebind myself) (clusterSetNodeAsMaster myself c)
  | _, _ => some c

/-- The open slots of the node are closed, and `freeClusterNode` leaves its replicas without a master. -/
def clusterDelNode (delnode : N) : Step N := fun c =>
  (forSlots (fun c j => c.slots j = some delnode) clusterDelSlot
    { c with importingSlotsFrom := fun j => (c.importingSlotsFrom j).filter (· ≠ delnode) }).map fun c =>
    { c with nodes := fun n => { c.nodes n with slaveof := (c.nodes n).slaveof.filter (· ≠ delnode) } }

def SameTables (c c' : Cluster N) : Prop :=
  c'.slots = c.slots ∧ ∀ n, (c'.nodes n).slots = (c.nodes n).slots ∧ (c'.nodes n).numslots = (c.nodes n).numslots

/-- What a node does; `other` is what happens to the epochs, the roles and the slots to import. -/
inductive Op (myself : N) : Step N → Prop
  | addSlot (n : N) (j : Slot) : Op myself fun c => some (clusterAddSlot n j c)
  | delSlot (j : Slot) : Op myself (clusterDelSlot j)
  | delNodeSlots (n : N) : Op myself (clusterDelNodeSlots n)
  | updateSlots (sender : N) (epoch : ℕ) (slots : Finset Slot) :
    Op myself (clusterUpdateSlotsConfigWith myself sender epoch slots)
  | packet (sender : N) (slave : Bool) (epoch : ℕ) (slots : Finset Slot) :
    Op myself (clusterProcessPacket myself sender slave epoch slots)
  | failover : Op myself (clusterFailoverReplaceYourMaster myself)
  | delNode (n : N) : Op myself (clusterDelNode n)
  | other (f : Cluster N → Cluster N) (h : ∀ c, SameTables c (f c)) : Op myself fun c => some (f c)

def run (ops : List (Step N)) : Option (Cluster N) := ops.foldlM (fun c op => op c) .start

end RedisIR.Slots
