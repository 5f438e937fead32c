import RedisIR.Spec.Restorer

/-! Checkpoints. A thread goes through the keys in memory and has the server execute a
`SETCHECKPOINT` for each, which logs the current value; then it logs a `CHECKPOINTEND` and
saves the position that the online indexer had reached when it began. Meanwhile clients
write, the loader may still be loading, and the online indexer goes on. -/

namespace RedisIR

open CLib

/-- Where `checkpointProcess` stands, with its `seek_log_file` and the keys that its
iterator has still to return. -/
inductive CheckpointPc
  | idle
  | visiting (seek : ℕ) (keys : List Bytes)
  | ended (seek : ℕ)
  deriving DecidableEq

/-- The server with its sequential log and indexed log, `server.seek_log_file`,
`server.checkpoint_state`, the checkpointer, and the file `CHECKPOINT_LOG_SEEK`. -/
structure Checkpointing where
  server : Server
  indexedLog : IndexedLog
  log : List LogCmd
  seekLogFile : ℕ
  checkpointState : Bool
  checkpointer : CheckpointPc
  checkpointLogSeek : Option ℤ

def Cmd.logOp : Cmd → Option Op
  | .set k v => some (.set k v)
  | .incr k => some (.incr k)
  | .del [k] => some (.del k)
  | .setCheckpoint k v => some (.setCheckpoint k v)
  | .checkpointEnd id arg => some (.checkpointEnd id arg)
  | .select => some .select
  | _ => none

/-- No C object has `2 ^ 63` bytes, so the condition always holds. -/
def logOperation (L : List LogCmd) (o : Op) : List LogCmd :=
  if h : ∀ a ∈ o.args, a.length < 2 ^ 63 then L ++ [o.logged h] else L

def Checkpointing.issue (s : Checkpointing) (c : Cmd) : Checkpointing :=
  let r := call s.indexedLog c s.server
  { s with
    server := r.server
    log := ((r.propagated.bind Cmd.logOp).map (logOperation s.log)).getD s.log }

def NULL_ARG : Bytes := ascii ['N', 'U', 'L', 'L']

/-- What happens next. `indexed` is the end of a batch of the online indexer, `select` the
`SELECT` that precedes the first command a server logs, and `visitNew` the visit of a key
that has been added since the checkpoint began. -/
inductive CheckpointEvent
  | client (c : LogCmd)
  | loader
  | select
  | indexed (n : ℕ) (indexedLog : IndexedLog)
  | switch (on : Bool)
  | begin (keys : List Bytes)
  | visit
  | visitNew (k : Bytes)
  | finish (id : ℤ)
  | store

def CheckpointEvent.exec (s : Checkpointing) : CheckpointEvent → Checkpointing
  | .client c =>
    let r := call s.indexedLog c.op.cmd s.server
    { s with server := r.server, log := if r.propagated.isSome then s.log ++ [c] else s.log }
  | .loader => { s with server := loaderStep s.indexedLog s.server }
  | .select => { s with log := logOperation s.log .select }
  | .indexed n idx => { s with indexedLog := idx, seekLogFile := offset s.log n }
  | .switch on => { s with checkpointState := on }
  | .begin keys =>
    match s.checkpointer with
    | .idle => if s.checkpointState then { s with checkpointer := .visiting s.seekLogFile keys } else s
    | _ => s
  | .visit =>
    match s.checkpointer with
    | .visiting seek (k :: keys) =>
      if s.checkpointState then
        { s.issue (.setCheckpoint (cstr k).val NULL_ARG) with checkpointer := .visiting seek keys }
      else { s with checkpointer := .visiting seek [] }
    | _ => s
  | .visitNew k =>
    match s.checkpointer with
    | .visiting _ _ => if s.checkpointState then s.issue (.setCheckpoint (cstr k).val NULL_ARG) else s
    | _ => s
  | .finish id =>
    match s.checkpointer with
    | .visiting seek [] => { s.issue (.checkpointEnd (decimal id) NULL_ARG) with checkpointer := .ended seek }
    | _ => s
  | .store =>
    match s.checkpointer with
    | .ended seek =>
      { s with
        checkpointer := .idle
        checkpointLogSeek := if s.checkpointState then some (seek : ℤ) else s.checkpointLogSeek }
    | _ => s

def checkpointStep (e : CheckpointEvent) (s : Checkpointing) : Checkpointing × List Empty := (e.exec s, [])

/-- Clients write strings, a batch ends at a command, and the iterator starts with the keys
that are in memory. -/
def CheckpointEvent.Enabled (s : Checkpointing) : CheckpointEvent → Prop
  | .client c =>
    match c.op with
    | .set _ _ | .incr _ | .del _ => True
    | _ => False
  | .indexed n _ => n ≤ s.log.length
  | .begin keys => keys.Nodup ∧ ∀ k, k ∈ keys ↔ (s.server.db k).isSome
  | _ => True

def Checkpointing.fresh (m : Allocator) : Checkpointing where
  server := { Server.restarted m [] with loader := ⟨.done, [], [], cstr [], sdsnew []⟩ }
  indexedLog := Multimap.empty
  log := []
  seekLogFile := 0
  checkpointState := true
  checkpointer := .idle
  checkpointLogSeek := none

end RedisIR
