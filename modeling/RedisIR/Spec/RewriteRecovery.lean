import RedisIR.Spec.Indexer

/-! A server with online indexing whose append-only file is rewritten. The rewrite puts
another file in the place of the one that the indexer reads, and both the indexer and
`FINAL_LOG_SEEK` keep their position. -/

namespace RedisIR

open CLib

theorem select_args_fit : ∀ a ∈ Op.args .select, a.length < 2 ^ 63 := by decide

def selectLogged : LogCmd := Op.logged .select select_args_fit

/-- The `SET` that `rewriteAppendOnlyFileRio` writes for a key. No C object has `2 ^ 63`
bytes. -/
def rewriteSet (k v : Bytes) : List LogCmd :=
  if h : ∀ a ∈ [k, v], a.length < 2 ^ 63 then [Op.logged (.set k v) h] else []

/-- `rewriteAppendOnlyFileRio` on a server whose keys are strings of the database 0 without
expire times, in the order in which the iterator returns them. -/
def rewriteAppendOnlyFileRio (keys : List Bytes) (db : Db) : List LogCmd :=
  if keys = [] then []
  else selectLogged :: keys.flatMap fun k => (db k).elim [] (rewriteSet k)

/-- A rewrite in progress: what the child writes, an RDB file or commands, and the commands
fed since the fork. The new file is all of it, in this order. -/
structure Fork where
  preamble : Bytes
  snapshot : List LogCmd
  diff : List LogCmd

def Fork.file (f : Fork) : Bytes := f.preamble ++ aofBytes (f.snapshot ++ f.diff)

/-- The server, with `server.aof_selected_db == 0` as `selected`. Its file is an RDB file,
empty without `aof_use_rdb_preamble`, and commands. -/
structure IrServer where
  preamble : Bytes
  log : List LogCmd
  db : Db
  selected : Bool
  rewrite : Option Fork
  indexer : Indexer

def IrServer.file (s : IrServer) : Bytes := s.preamble ++ aofBytes s.log

/-- A command of a client, a round of the indexer, which opens the file anew, the start of a
rewrite and its end. The bytes of an RDB preamble are given with the start. -/
inductive IrEvent
  | write (c : LogCmd)
  | poll
  | fork (rdb : Option Bytes) (keys : List Bytes)
  | done

def IrServer.fed (s : IrServer) (c : LogCmd) : List LogCmd :=
  if (c.op.cmd.proc s.db).dirty = 0 then [] else if s.selected then [c] else [selectLogged, c]

def IrServer.write (s : IrServer) (c : LogCmd) : IrServer :=
  { s with
    db := (c.op.cmd.proc s.db).db
    log := s.log ++ s.fed c
    rewrite := s.rewrite.map fun f => { f with diff := f.diff ++ s.fed c }
    selected := s.selected || decide (s.fed c ≠ []) }

def IrServer.rewriteAppendOnlyFileBackground (s : IrServer) (rdb : Option Bytes) (keys : List Bytes) : IrServer :=
  { s with
    selected := false
    rewrite := some
      { preamble := rdb.getD []
        snapshot := if rdb.isSome then [] else rewriteAppendOnlyFileRio keys s.db
        diff := [] } }

def IrServer.backgroundRewriteDoneHandler (s : IrServer) (f : Fork) : IrServer :=
  { s with
    preamble := f.preamble
    log := f.snapshot ++ f.diff
    selected := false
    rewrite := none }

def IrEvent.exec (mem : NodeMemory) (s : IrServer) : IrEvent → Outcome IrServer
  | .write c => .returned (s.write c)
  | .poll =>
    match indexerPoll mem s.indexer s.file with
    | .returned i => .returned { s with indexer := i }
    | .exited => .exited
    | .overflowed => .overflowed
  | .fork rdb keys =>
    match s.rewrite with
    | some _ => .returned s
    | none => .returned (s.rewriteAppendOnlyFileBackground rdb keys)
  | .done =>
    match s.rewrite with
    | none => .returned s
    | some f => .returned (s.backgroundRewriteDoneHandler f)

def IrServer.run (mem : NodeMemory) : List IrEvent → IrServer → Outcome IrServer
  | [], s => .returned s
  | a :: as, s =>
    match a.exec mem s with
    | .returned s => run mem as s
    | .exited => .exited
    | .overflowed => .overflowed

/-- The files of a server that has been started for the first time. -/
def firstFiles : Files where
  aof := []
  finalLogSeek := some 0
  finalLogSeekReplica := none
  checkpointLogSeek := none
  indexedLog := .ok Multimap.empty
  replica := .missing

def IrServer.first : IrServer := ⟨[], [], emptyDb, false, none, Indexer.start firstFiles Multimap.empty⟩

def IrServer.restart (s : IrServer) : Outcome InitialRun :=
  initialIndexesSequentialLogToIndexedLog { s.indexer.disk.files with aof := s.file } false

end RedisIR
