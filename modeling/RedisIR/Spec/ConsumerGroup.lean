import RedisIR.Lib.ByteOrder
import RedisIR.Lib.OrderedMap
import RedisIR.Spec.Stream

/-! Consumer groups and the commands on streams. The trees of pending entries hold pointers to
records, a record points to its consumer, and records and consumers are allocated and freed: a
pointer is a number, and what it points to is looked up in a heap. A command that would read freed
memory or a NULL pointer, or that would fail an assertion, gives no state. The time a consumer was
last seen is left out, and so are replies. -/

namespace RedisIR.Streams

open CLib ByteOrder

abbrev Pel := OrderedMap StreamID ℕ

structure StreamNACK where
  deliveryTime : ℤ
  deliveryCount : BitVec 64
  consumer : Option ℕ

structure StreamConsumer where
  name : Bytes
  pel : Pel

structure StreamCG where
  lastId : StreamID
  pel : Pel
  consumers : OrderedMap Bytes ℕ

/-- The last ID of the group is updated if `id` is greater. -/
def StreamCG.advance (cg : StreamCG) (id : StreamID) : StreamCG :=
  if streamCompareID id cg.lastId > 0 then { cg with lastId := id } else cg

/-- The records and the consumers of all groups; addresses from `next` on have never been used. -/
structure Heap where
  nacks : ℕ → Option StreamNACK
  consumers : ℕ → Option StreamConsumer
  next : ℕ

def Heap.setNack (h : Heap) (a : ℕ) (n : Option StreamNACK) : Heap := { h with nacks := Function.update h.nacks a n }

def Heap.setConsumer (h : Heap) (a : ℕ) (c : Option StreamConsumer) : Heap :=
  { h with consumers := Function.update h.consumers a c }

def Heap.newNack (h : Heap) (n : StreamNACK) : Heap :=
  ⟨Function.update h.nacks h.next (some n), h.consumers, h.next + 1⟩

def Heap.newConsumer (h : Heap) (c : StreamConsumer) : Heap :=
  ⟨h.nacks, Function.update h.consumers h.next (some c), h.next + 1⟩

structure State where
  stream : Stream
  cgroups : OrderedMap Bytes StreamCG
  heap : Heap

def State.new : State := ⟨streamNew, .empty, ⟨fun _ => none, fun _ => none, 0⟩⟩

inductive DeliveryOption
  | none
  | idle (ms : ℤ)
  | time (ms : ℤ)
deriving DecidableEq

/-- The options of `XCLAIM`; without `RETRYCOUNT` the count is -1, without `LASTID` it is `0-0`. -/
structure ClaimOptions where
  delivery : DeliveryOption
  retrycount : ℤ
  force : Bool
  justid : Bool
  lastid : StreamID
deriving DecidableEq

/-- The commands with their arguments parsed. The IDs of `XGROUP` may be `$`, and `XREADGROUP` has
the greatest ID for `>`. A client that `XREADGROUP` has blocked is served by `unblock`. -/
inductive Command
  | xadd (maxlen : Option (Bool × ℕ)) (id : Option StreamID) (fields : Fields)
  | xdel (ids : List StreamID)
  | xtrim (approx : Bool) (maxlen : ℕ)
  | xgroupCreate (group : Bytes) (id : Option StreamID)
  | xgroupSetid (group : Bytes) (id : Option StreamID)
  | xgroupDestroy (group : Bytes)
  | xgroupDelconsumer (group consumer : Bytes)
  | xreadgroup (group consumer : Bytes) (id : StreamID) (count : ℕ) (noack : Bool)
  | unblock (group consumer : Bytes) (count : ℕ) (noack : Bool)
  | xack (group : Bytes) (ids : List StreamID)
  | xclaim (group consumer : Bytes) (minidle : ℤ) (ids : List StreamID) (opts : ClaimOptions)
deriving DecidableEq

/-! ### Records and consumers -/

def streamCreateNACK (h : Heap) (consumer : Option ℕ) (mstime : ℕ) : Heap × ℕ :=
  (h.newNack ⟨mstime, 1, consumer⟩, h.next)

def streamFreeNACK (h : Heap) (a : ℕ) : Option Heap := do
  let _ ← h.nacks a
  pure (h.setNack a none)

/-- `streamLookupConsumer` with `create`; the consumer found is written to. -/
def streamLookupConsumer (h : Heap) (cg : StreamCG) (name : Bytes) : Option (Heap × StreamCG × ℕ) :=
  match cg.consumers.find name with
  | some c => do
    let _ ← h.consumers c
    pure (h, cg, c)
  | none =>
    some (h.newConsumer ⟨name, .empty⟩, { cg with consumers := cg.consumers.insert name h.next }, h.next)

/-- `raxRemove` in the pending list of a consumer. -/
def removePending (h : Heap) (consumer : ℕ) (id : StreamID) : Option Heap := do
  let c ← h.consumers consumer
  pure (h.setConsumer consumer (some { c with pel := c.pel.erase id }))

/-- `raxInsert` in the pending list of a consumer. -/
def insertPending (h : Heap) (consumer : ℕ) (id : StreamID) (nack : ℕ) : Option Heap := do
  let c ← h.consumers consumer
  pure (h.setConsumer consumer (some { c with pel := c.pel.insert id nack }))

def raxTryInsert (pel : Pel) (id : StreamID) (nack : ℕ) : Pel × Bool :=
  match pel.find id with
  | some _ => (pel, false)
  | none => (pel.insert id nack, true)

/-- The pending entries of a consumer that is deleted go, with their records. -/
def dropPending : List (StreamID × ℕ) → Heap → Pel → Option (Heap × Pel)
  | [], h, pel => some (h, pel)
  | (id, nack) :: es, h, pel => do
    let h ← streamFreeNACK h nack
    dropPending es h (pel.erase id)

def streamDelConsumer (h : Heap) (cg : StreamCG) (name : Bytes) : Option (Heap × StreamCG) :=
  match cg.consumers.find name with
  | none => some (h, cg)
  | some c => do
    let consumer ← h.consumers c
    let (h, pel) ← dropPending consumer.pel.entries h cg.pel
    pure (h.setConsumer c none, { cg with pel := pel, consumers := cg.consumers.erase name })

/-- `raxFreeWithCallback` with `streamFreeNACK`. -/
def freeNACKs : List (StreamID × ℕ) → Heap → Option Heap
  | [], h => some h
  | e :: es, h => do freeNACKs es (← streamFreeNACK h e.2)

/-- `raxFreeWithCallback` with `streamFreeConsumer`. -/
def freeConsumers : List (Bytes × ℕ) → Heap → Option Heap
  | [], h => some h
  | e :: es, h => do
    let _ ← h.consumers e.2
    freeConsumers es (h.setConsumer e.2 none)

def streamFreeCG (h : Heap) (cg : StreamCG) : Option Heap := do
  freeConsumers cg.consumers.entries (← freeNACKs cg.pel.entries h)

/-! ### What is propagated -/

/-- `XCLAIM <key> <group> <consumer> 0 <id> TIME <ms> RETRYCOUNT <count> FORCE JUSTID LASTID <id>`;
the count is printed as a `long long`. -/
def streamPropagateXCLAIM (h : Heap) (cg : StreamCG) (group : Bytes) (id : StreamID) (nack : ℕ) : Option Command := do
  let n ← h.nacks nack
  let c ← h.consumers (← n.consumer)
  pure (.xclaim group c.name 0 [id] ⟨.time n.deliveryTime, n.deliveryCount.toInt, true, true, cg.lastId⟩)

def streamPropagateGroupID (cg : StreamCG) (group : Bytes) : Command := .xgroupSetid group (some cg.lastId)

/-! ### Delivery -/

/-- The pending entry of a delivered message, for the group and the consumer, and its record. -/
def deliverEntry (h : Heap) (cg : StreamCG) (consumer : ℕ) (id : StreamID) (mstime : ℕ) :
    Option (Heap × StreamCG × ℕ) := do
  let (h, nack) := streamCreateNACK h (some consumer) mstime
  let c ← h.consumers consumer
  let (groupPel, groupInserted) := raxTryInsert cg.pel id nack
  let (consumerPel, consumerInserted) := raxTryInsert c.pel id nack
  let h := h.setConsumer consumer (some { c with pel := consumerPel })
  let cg := { cg with pel := groupPel }
  if groupInserted = false then
    -- the message is pending already: its record gets the new owner
    let h ← streamFreeNACK h nack
    let nack ← cg.pel.find id
    let n ← h.nacks nack
    let h ← removePending h (← n.consumer) id
    let h := h.setNack nack (some ⟨mstime, 1, some consumer⟩)
    let h ← insertPending h consumer id nack
    pure (h, cg, nack)
  else if consumerInserted = false then none -- "NACK half-created. Should not be possible."
  else pure (h, cg, nack)

/-- The loop of `streamReplyWithRange` for a group, over the messages that it sends. The clock
shows `clock 0` at the first message, `clock 1` at the second, and so on. -/
def deliver (group : Bytes) (noack : Bool) (consumer : ℕ) : List Item → (ℕ → ℕ) → Bool → Heap →
    StreamCG → Option (Heap × StreamCG × List Command)
  | [], _, _, h, cg => some (h, cg, [])
  | it :: its, clock, propagateLastId, h, cg => do
    let propagateLastId := propagateLastId || decide (streamCompareID it.id cg.lastId > 0)
    let cg := cg.advance it.id
    let (h, cg, cs) ←
      if noack then pure (h, cg, if propagateLastId then [streamPropagateGroupID cg group] else [])
      else do
        let (h, cg, nack) ← deliverEntry h cg consumer it.id (clock 0)
        let c ← streamPropagateXCLAIM h cg group it.id nack
        pure (h, cg, [c])
    let (h, cg, cs') ← deliver group noack consumer its (fun i => clock (i + 1)) propagateLastId h cg
    pure (h, cg, cs ++ cs')

/-- `streamReplyWithRangeFromConsumerPEL`: a message that is still in the stream counts as
delivered once more. -/
def redeliver (s : Stream) : List (StreamID × ℕ) → (ℕ → ℕ) → Heap → Option Heap
  | [], _, h => some h
  | (id, nack) :: es, clock, h => do
    let h ←
      if streamRange s id id = [] then pure h
      else do
        let n ← h.nacks nack
        pure (h.setNack nack (some { n with deliveryTime := clock 0, deliveryCount := n.deliveryCount + 1 }))
    redeliver s es (fun i => clock (i + 1)) h

/-! ### Commands on one group -/

def readNew (s : Stream) (group consumer : Bytes) (count : ℕ) (noack : Bool) (clock : ℕ → ℕ) (h : Heap)
    (cg : StreamCG) : Option (Heap × StreamCG × List Command) :=
  if streamCompareID s.lastId cg.lastId > 0 then do
    let start := cg.lastId.seqSucc
    let (h, cg, c) ← streamLookupConsumer h cg consumer
    deliver group noack c (limit count (streamRange s start .max)) clock false h cg
  else some (h, cg, [])

def readHistory (s : Stream) (consumer : Bytes) (id : StreamID) (count : ℕ) (clock : ℕ → ℕ) (h : Heap)
    (cg : StreamCG) : Option (Heap × StreamCG × List Command) := do
  let (h, cg, c) ← streamLookupConsumer h cg consumer
  let con ← h.consumers c
  let h ← redeliver s (limit count (con.pel.entries.filter (fun e => id.seqSucc ≤ e.1))) clock h
  pure (h, cg, [])

/-- `XREADGROUP` of one stream, in its group. -/
def readGroup (s : Stream) (group consumer : Bytes) (id : StreamID) (count : ℕ) (noack : Bool) (clock : ℕ → ℕ)
    (h : Heap) (cg : StreamCG) : Option (Heap × StreamCG × List Command) :=
  if id ≠ .max then readHistory s consumer id count clock h cg
  else if s.length ≠ 0 then readNew s group consumer count noack clock h cg
  else some (h, cg, [])

/-- One ID of `XACK`: whether it was pending. -/
def ackEntry (id : StreamID) (h : Heap) (cg : StreamCG) : Option (Heap × StreamCG × Bool) :=
  match cg.pel.find id with
  | none => some (h, cg, false)
  | some nack => do
    let n ← h.nacks nack
    let h ← removePending h (← n.consumer) id
    let h ← streamFreeNACK h nack
    pure (h, { cg with pel := cg.pel.erase id }, true)

def ackEntries : List StreamID → Heap → StreamCG → Option (Heap × StreamCG × ℕ)
  | [], h, cg => some (h, cg, 0)
  | id :: ids, h, cg => do
    let (h, cg, acked) ← ackEntry id h cg
    let (h, cg, n) ← ackEntries ids h cg
    pure (h, cg, n + acked.toNat)

/-- The delivery time that the options of `XCLAIM` give; -1 stands for none, and a time before the
epoch or after `now` is not taken. -/
def claimTime (o : DeliveryOption) (now : ℕ) : ℤ :=
  let deliverytime : ℤ := match o with
    | .none => -1
    | .idle ms => (BitVec.ofInt 64 (now - ms)).toInt
    | .time ms => ms
  if deliverytime ≠ -1 then (if deliverytime < 0 ∨ deliverytime > now then now else deliverytime) else now

/-- The record of a message that is claimed: an entry of the group's pending list, or with `FORCE` a
new one for a message of the stream. -/
def claimLookup (s : Stream) (force : Bool) (now : ℕ) (id : StreamID) (h : Heap) (cg : StreamCG) :
    Heap × StreamCG × Option ℕ :=
  match cg.pel.find id with
  | some nack => (h, cg, some nack)
  | none =>
    if force && streamRange s id id ≠ [] then
      let (h, nack) := streamCreateNACK h none now
      (h, { cg with pel := cg.pel.insert id nack }, some nack)
    else (h, cg, none)

/-- One ID of `XCLAIM`: the record, if the message was claimed. -/
def claimEntry (s : Stream) (consumer : ℕ) (minidle : ℤ) (opts : ClaimOptions) (now : ℕ) (id : StreamID)
    (h : Heap) (cg : StreamCG) : Option (Heap × StreamCG × Option ℕ) :=
  match claimLookup s opts.force now id h cg with
  | (h, cg, none) => some (h, cg, none)
  | (h, cg, some nack) => do
    let n ← h.nacks nack
    if n.consumer.isSome && minidle ≠ 0 && now - n.deliveryTime < minidle then pure (h, cg, none)
    else
      let h ← match n.consumer with
        | some old => removePending h old id
        | none => pure h
      let count := if opts.retrycount ≥ 0 then BitVec.ofInt 64 opts.retrycount
        else if opts.justid then n.deliveryCount else n.deliveryCount + 1
      let h := h.setNack nack (some ⟨claimTime opts.delivery now, count, some consumer⟩)
      let h ← insertPending h consumer id nack
      pure (h, cg, some nack)

/-- The IDs of `XCLAIM` in turn, with what is propagated. -/
def claimEntries (s : Stream) (group : Bytes) (consumer : ℕ) (minidle : ℤ) (opts : ClaimOptions) (now : ℕ) :
    List StreamID → Heap → StreamCG → Option (Heap × StreamCG × List Command)
  | [], h, cg => some (h, cg, [])
  | id :: ids, h, cg => do
    let (h, cg, claimed) ← claimEntry s consumer minidle opts now id h cg
    let cs ← match claimed with
      | none => pure []
      | some nack => do pure [← streamPropagateXCLAIM h cg group id nack]
    let (h, cg, cs') ← claimEntries s group consumer minidle opts now ids h cg
    pure (h, cg, cs ++ cs')

def claimGroup (s : Stream) (group consumer : Bytes) (minidle : ℤ) (ids : List StreamID) (opts : ClaimOptions)
    (now : ℕ) (h : Heap) (cg : StreamCG) : Option (Heap × StreamCG × List Command) := do
  let propagateLastId : Bool := decide (streamCompareID opts.lastid cg.lastId > 0)
  let cg := cg.advance opts.lastid
  let (h, cg, c) ← streamLookupConsumer h cg consumer
  let (h, cg, cs) ← claimEntries s group c (max minidle 0) opts now ids h cg
  pure (h, cg, if propagateLastId && cs.isEmpty then [streamPropagateGroupID cg group] else cs)

/-! ### Commands -/

/-- A command on a group that exists; it is an error, or has no effect, if there is none. -/
def onGroup (st : State) (group : Bytes) (f : Heap → StreamCG → Option (Heap × StreamCG × List Command)) :
    Option (State × List Command) :=
  match st.cgroups.find group with
  | none => some (st, [])
  | some cg => do
    let (h, cg, cs) ← f st.heap cg
    pure ({ st with cgroups := st.cgroups.insert group cg, heap := h }, cs)

/-- The trim of `XADD`, with the arguments as they are rewritten: an approximate one becomes an
exact one to the length that it left. -/
def xaddTrim (s : Stream) : Option (Bool × ℕ) → Stream × Option (Bool × ℕ)
  | none => (s, none)
  | some (approx, maxlen) =>
    let s := (streamTrimByLength s maxlen approx).1
    (s, some (if approx then (false, s.length) else (false, maxlen)))

def xaddCommand (full : Node → Bool) (st : State) (maxlen : Option (Bool × ℕ)) (id : Option StreamID)
    (fields : Fields) (mstime : ℕ) : State × List Command :=
  if fields = [] ∨ id = some .zero then (st, [])
  else match streamAppendItem full st.stream fields id mstime with
    | none => (st, [])
    | some (s, id) =>
      let (s, maxlen) := xaddTrim s maxlen
      ({ st with stream := s }, [.xadd maxlen (some id) fields])

def deleteItems : List StreamID → Stream → Stream × ℕ
  | [], s => (s, 0)
  | id :: ids, s =>
    let (s, deleted) := streamDeleteItem s id
    let (s, n) := deleteItems ids s
    (s, n + deleted.toNat)

def xdelCommand (st : State) (ids : List StreamID) : State × List Command :=
  let (s, deleted) := deleteItems ids st.stream
  ({ st with stream := s }, if deleted ≠ 0 then [.xdel ids] else [])

def xtrimCommand (st : State) (approx : Bool) (maxlen : ℕ) : State × List Command :=
  let (s, deleted) := streamTrimByLength st.stream maxlen approx
  ({ st with stream := s }, if deleted ≠ 0 then
    [if approx then .xtrim false s.length else .xtrim false maxlen] else [])

def exec (full : Node → Bool) (clock : ℕ → ℕ) (st : State) : Command → Option (State × List Command)
  | .xadd maxlen id fields => some (xaddCommand full st maxlen id fields (clock 0))
  | .xdel ids => some (xdelCommand st ids)
  | .xtrim approx maxlen => some (xtrimCommand st approx maxlen)
  | .xgroupCreate group id =>
    match st.cgroups.find group with
    | some _ => some (st, []) -- BUSYGROUP
    | none =>
      some ({ st with cgroups := st.cgroups.insert group ⟨id.getD st.stream.lastId, .empty, .empty⟩ },
        [.xgroupCreate group id])
  | .xgroupSetid group id =>
    onGroup st group fun h cg => some (h, { cg with lastId := id.getD st.stream.lastId }, [.xgroupSetid group id])
  | .xgroupDestroy group =>
    match st.cgroups.find group with
    | none => some (st, [])
    | some cg => do
      let h ← streamFreeCG st.heap cg
      pure ({ st with cgroups := st.cgroups.erase group, heap := h }, [.xgroupDestroy group])
  | .xgroupDelconsumer group consumer =>
    onGroup st group fun h cg => do
      let (h, cg) ← streamDelConsumer h cg consumer
      pure (h, cg, [.xgroupDelconsumer group consumer])
  | .xreadgroup group consumer id count noack =>
    onGroup st group (readGroup st.stream group consumer id count noack clock)
  | .unblock group consumer count noack => onGroup st group (readNew st.stream group consumer count noack clock)
  | .xack group ids =>
    onGroup st group fun h cg => do
      let (h, cg, acknowledged) ← ackEntries ids h cg
      pure (h, cg, if acknowledged ≠ 0 then [.xack group ids] else [])
  | .xclaim group consumer minidle ids opts =>
    onGroup st group (claimGroup st.stream group consumer minidle ids opts (clock 0))

structure Timed where
  command : Command
  clock : ℕ → ℕ

def run (full : Node → Bool) : List Timed → State → Option (State × List Command)
  | [], st => some (st, [])
  | c :: cs, st => do
    let (st, ps) ← exec full c.clock st c.command
    let (st, ps') ← run full cs st
    pure (st, ps ++ ps')

end RedisIR.Streams
