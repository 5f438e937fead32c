import RedisIR.Lib.CLib
import RedisIR.Lib.Memory

/-! The replication backlog: the last bytes of the replication stream in a circular buffer, and the
answer to a request of a replica to go on from an offset. Offsets are integers without a bound;
`none` stands for an access outside of the buffer. -/

namespace RedisIR.Replication

open CLib

/-- The fields of the server that describe the backlog. `buffer` is `none` for the NULL pointer. -/
structure Backlog where
  buffer : Option Bytes
  size : ℕ
  histlen : ℕ
  idx : ℕ
  off : ℤ
  masterReplOffset : ℤ

/-- `CONFIG_REPL_BACKLOG_MIN_SIZE` -/
def minSize : ℕ := 1024 * 16

-- the byte that fresh memory holds
variable (fill : UInt8)

/-- An empty buffer of the current size, which will go on with the next byte of the stream. -/
def Backlog.alloc (b : Backlog) : Backlog :=
  { b with buffer := some (List.replicate b.size fill), histlen := 0, idx := 0, off := b.masterReplOffset + 1 }

def createReplicationBacklog (b : Backlog) : Option Backlog := if b.buffer = none then some (b.alloc fill) else none

def resizeReplicationBacklog (newsize : ℤ) (b : Backlog) : Backlog :=
  let newsize := if newsize < minSize then minSize else newsize.toNat
  if b.size = newsize then b
  else
    let b := { b with size := newsize }
    if b.buffer ≠ none then b.alloc fill else b

/-- The loop of `feedReplicationBacklog`, which copies up to the end of the buffer each time. Each
round takes at least one byte, so there are at most as many as bytes. -/
def feedLoop : ℕ → Bytes → Backlog → Option Backlog
  | _, [], b => some b
  | 0, _ :: _, _ => none
  | rounds + 1, p, b => do
    let thislen := if b.size - b.idx > p.length then p.length else b.size - b.idx
    let buffer ← Memory.write (← b.buffer) b.idx (p.take thislen)
    let idx := b.idx + thislen
    feedLoop rounds (p.drop thislen)
      { b with buffer := some buffer, idx := if idx = b.size then 0 else idx, histlen := b.histlen + thislen }

def feedReplicationBacklog (p : Bytes) (b : Backlog) : Option Backlog := do
  let b ← feedLoop p.length p { b with masterReplOffset := b.masterReplOffset + p.length }
  let histlen := if b.histlen > b.size then b.size else b.histlen
  pure { b with histlen := histlen, off := b.masterReplOffset - histlen + 1 }

/-- The loop of `addReplyReplicationBacklog`: what is queued, in at most two pieces. -/
def replyLoop (buffer : Bytes) (size : ℕ) : ℕ → ℕ → ℕ → Option Bytes
  | _, _, 0 => some []
  | 0, _, _ + 1 => none
  | rounds + 1, j, len => do
    let thislen := if size - j < len then size - j else len
    let bytes ← Memory.read buffer j thislen
    pure (bytes ++ (← replyLoop buffer size rounds 0 (len - thislen)))

/-- What is queued for a replica that goes on from `offset`, one of the positions in the backlog or
the next one. -/
def addReplyReplicationBacklog (b : Backlog) (offset : ℤ) : Option Bytes :=
  if b.histlen = 0 then some []
  else do
    let skip := (offset - b.off).toNat
    let j := (b.idx + (b.size - b.histlen)) % b.size
    let j := (j + skip) % b.size
    replyLoop (← b.buffer) b.size 2 j (b.histlen - skip)

/-- `!strcasecmp(a, b)` -/
def sameReplid (a b : Bytes) : Bool := (cstr a).val.map toupper = (cstr b).val.map toupper

structure Server where
  replid : Bytes
  replid2 : Bytes
  secondReplidOffset : ℤ
  backlog : Backlog

/-- A request with an ID and an offset, if the offset is a number, is accepted with the bytes that
are queued, or has to be answered with a full resynchronization. -/
def masterTryPartialResynchronization (s : Server) (replid : Bytes) (psyncOffset : Option ℤ) :
    Option (Option Bytes) :=
  match psyncOffset with
  | none => some none
  | some offset =>
    if ¬ sameReplid replid s.replid ∧ (¬ sameReplid replid s.replid2 ∨ offset > s.secondReplidOffset) then
      some none
    else if s.backlog.buffer = none ∨ offset < s.backlog.off ∨ offset > s.backlog.off + s.backlog.histlen
      then some none
    else (addReplyReplicationBacklog s.backlog offset).map some

inductive BacklogOp
  | feed (p : Bytes)
  | resize (newsize : ℤ)

def BacklogOp.exec (b : Backlog) : BacklogOp → Option Backlog
  | .feed p => feedReplicationBacklog p b
  | .resize newsize => some (resizeReplicationBacklog fill newsize b)

def runBacklog : List BacklogOp → Backlog → Option Backlog
  | [], b => some b
  | op :: ops, b => do runBacklog ops (← op.exec fill b)

end RedisIR.Replication
