import RedisIR.Lib.CLib

/-! Streams. The radix tree of a stream is the list of its nodes in the order of their keys, and a
node is the list of the entries in its listpack, those that are only marked as deleted included.
Whether the last node takes one more entry depends on `stream-node-max-bytes` and
`stream-node-max-entries`; here any predicate on nodes can decide it. -/

namespace RedisIR.Streams

open CLib

variable {a b : StreamID}

structure StreamID where
  ms : BitVec 64
  seq : BitVec 64
deriving DecidableEq, Repr

def streamCompareID (a b : StreamID) : ℤ :=
  if a.ms > b.ms then 1
  else if a.ms < b.ms then -1
  else if a.seq > b.seq then 1
  else if a.seq < b.seq then -1
  else 0

def StreamID.number (id : StreamID) : ℕ := 2 ^ 64 * id.ms.toNat + id.seq.toNat

theorem StreamID.number_injective : Function.Injective StreamID.number := by
  rintro ⟨m, s⟩ ⟨m', s'⟩ h
  simp only [StreamID.number] at h
  rw [StreamID.mk.injEq, ← BitVec.toNat_inj, ← BitVec.toNat_inj]
  omega

instance : LinearOrder StreamID := LinearOrder.lift' StreamID.number StreamID.number_injective

theorem StreamID.lt_iff : a < b ↔ a.number < b.number := Iff.rfl

theorem StreamID.le_iff : a ≤ b ↔ a.number ≤ b.number := Iff.rfl

theorem streamCompareID_pos : streamCompareID a b > 0 ↔ b < a := by
  simp only [streamCompareID, StreamID.lt_iff, StreamID.number, gt_iff_lt, BitVec.lt_def]
  split_ifs <;> omega

theorem streamCompareID_nonpos : streamCompareID a b ≤ 0 ↔ a ≤ b := by
  rw [← not_lt, ← not_lt, ← streamCompareID_pos]

def StreamID.zero : StreamID := ⟨0, 0⟩

/-- `UINT64_MAX-UINT64_MAX`: the end of a range without an end, and the form in which `XREADGROUP`
keeps the ID `>`. -/
def StreamID.max : StreamID := ⟨BitVec.allOnes 64, BitVec.allOnes 64⟩

theorem StreamID.le_max (id : StreamID) : id ≤ StreamID.max := by
  simp only [StreamID.le_iff, StreamID.number, StreamID.max, BitVec.toNat_allOnes]
  omega

theorem StreamID.zero_le (id : StreamID) : StreamID.zero ≤ id := by
  simp [StreamID.le_iff, StreamID.number, StreamID.zero]

/-- `start.seq++` -/
def StreamID.seqSucc (id : StreamID) : StreamID := { id with seq := id.seq + 1 }

/-- The next ID of a stream when the clock shows `mstime`. -/
def streamNextID (lastId : StreamID) (mstime : ℕ) : StreamID :=
  if BitVec.ofNat 64 mstime > lastId.ms then ⟨BitVec.ofNat 64 mstime, 0⟩ else lastId.seqSucc

abbrev Fields := List (Bytes × Bytes)

/-- An entry of a listpack; `deleted` is `STREAM_ITEM_FLAG_DELETED`. -/
structure Item where
  id : StreamID
  fields : Fields
  deleted : Bool
deriving DecidableEq

/-- A node of the radix tree with its key, the ID of the master entry. -/
structure Node where
  key : StreamID
  items : List Item
deriving DecidableEq

/-- The entries of a node that are not deleted: the first number of its listpack. -/
def Node.count (n : Node) : ℕ := n.items.countP (fun it => !it.deleted)

structure Stream where
  nodes : List Node
  length : ℕ
  lastId : StreamID
deriving DecidableEq

def streamNew : Stream := ⟨[], 0, .zero⟩

/-- The entry goes to the tail node, or to a new one if there is none or it is full. -/
def appendNode (full : Node → Bool) (it : Item) : List Node → List Node
  | [] => [⟨it.id, [it]⟩]
  | [n] => if full n then [n, ⟨it.id, [it]⟩] else [{ n with items := n.items ++ [it] }]
  | n :: m :: ns => n :: appendNode full it (m :: ns)

/-- The stream with the new entry and the entry's ID, or nothing for `C_ERR`; without `useId` the
ID is made from the clock. -/
def streamAppendItem (full : Node → Bool) (s : Stream) (fields : Fields) (useId : Option StreamID)
    (mstime : ℕ) : Option (Stream × StreamID) :=
  let id := useId.getD (streamNextID s.lastId mstime)
  if streamCompareID id s.lastId ≤ 0 then none
  else some (⟨appendNode full ⟨id, fields, false⟩ s.nodes, s.length + 1, id⟩, id)

/-- Mark the first `k` entries that are not deleted. -/
def markDeleted : ℕ → List Item → List Item
  | 0, its => its
  | _ + 1, [] => []
  | k + 1, it :: its => if it.deleted then it :: markDeleted (k + 1) its
    else { it with deleted := true } :: markDeleted k its

/-- The loop of `streamTrimByLength` over the nodes, with the length of the stream. -/
def trimNodes (maxlen : ℕ) (approx : Bool) : List Node → ℕ → List Node × ℕ
  | [], length => ([], length)
  | n :: ns, length =>
    if length ≤ maxlen then (n :: ns, length)
    else if length - n.count ≥ maxlen then trimNodes maxlen approx ns (length - n.count)
    else if approx then (n :: ns, length)
    else ({ n with items := markDeleted (length - maxlen) n.items } :: ns, maxlen)

def streamTrimByLength (s : Stream) (maxlen : ℕ) (approx : Bool) : Stream × ℕ :=
  let r := trimNodes maxlen approx s.nodes s.length
  ({ s with nodes := r.1, length := r.2 }, s.length - r.2)

/-- The nodes from the last one whose key is at most `start`, or all of them: the seek of a forward
iteration. -/
def seekNodes (start : StreamID) : List Node → List Node
  | n :: m :: ns => if m.key ≤ start then seekNodes start (m :: ns) else n :: m :: ns
  | ns => ns

/-- The entries that a forward iteration emits from the entries that it visits. -/
def emit (start last : StreamID) : List Item → List Item
  | [] => []
  | it :: its =>
    if start ≤ it.id ∧ !it.deleted then
      if it.id > last then [] else it :: emit start last its
    else emit start last its

/-- What `streamIteratorGetID` returns, called again and again after `streamIteratorStart` with
`rev` 0. -/
def streamRange (s : Stream) (start last : StreamID) : List Item :=
  emit start last ((seekNodes start s.nodes).flatMap Node.items)

/-- Set `STREAM_ITEM_FLAG_DELETED` in the entry `id`. -/
def markEntry (id : StreamID) (it : Item) : Item := if it.id = id then { it with deleted := true } else it

/-- `streamIteratorRemoveEntry` at the entry `id` of a node: a node without other entries goes. -/
def removeEntry (id : StreamID) (n : Node) : Option Node :=
  if n.items.any (fun it => it.id = id ∧ !it.deleted) then
    if n.count = 1 then none
    else some { n with items := n.items.map (markEntry id) }
  else some n

def streamDeleteItem (s : Stream) (id : StreamID) : Stream × Bool :=
  if streamRange s id id = [] then (s, false)
  else ({ s with nodes := s.nodes.filterMap (removeEntry id), length := s.length - 1 }, true)

/-- The replies are limited if `count` is not 0. -/
def limit {α : Type} (count : ℕ) (l : List α) : List α := if count = 0 then l else l.take count

/-- `XREAD` without `BLOCK` of one stream with the ID `gt`, or nothing for the null reply. -/
def xreadCommand (s : Stream) (gt : StreamID) (count : ℕ) : Option (List Item) :=
  if s.length ≠ 0 ∧ streamCompareID s.lastId gt > 0 then some (limit count (streamRange s gt.seqSucc .max))
  else none

end RedisIR.Streams
