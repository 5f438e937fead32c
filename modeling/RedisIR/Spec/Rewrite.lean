import RedisIR.Lib.Machine
import RedisIR.Spec.Propagation

/-! The background rewrite of the append-only file. The child writes a snapshot; what is fed
to the log meanwhile is kept in a list of blocks, sent to the child through a pipe for as long
as it rewrites, and the rest is appended by the parent to the file of the child. Two more
pipes carry the request to stop sending and its acknowledgement. -/

namespace RedisIR.Rewrite

open CLib

/-! ### The rewrite buffer -/

def AOF_RW_BUF_BLOCK_SIZE : ℕ := 1024 * 1024 * 10

/-- `aofrwblock`, with the bytes in use of its array. -/
structure AofRwBlock where
  buf : Bytes
  free : ℕ
  size : buf.length + free = AOF_RW_BUF_BLOCK_SIZE

def AofRwBlock.new : AofRwBlock := ⟨[], AOF_RW_BUF_BLOCK_SIZE, Nat.zero_add _⟩

/-- As much of `s` as there is room for is copied to the end of the block. -/
def AofRwBlock.fill (block : AofRwBlock) (s : Bytes) : AofRwBlock where
  buf := block.buf ++ s.take block.free
  free := block.free - min block.free s.length
  size := by
    have := block.size
    rw [List.length_append, List.length_take]
    omega

/-- The first bytes have been written and the others are moved to the front. -/
def AofRwBlock.consume (block : AofRwBlock) (nwritten : ℕ) : AofRwBlock where
  buf := block.buf.drop nwritten
  free := block.free + min nwritten block.buf.length
  size := by
    have := block.size
    rw [List.length_drop]
    omega

/-- The loop of `aofRewriteBufferAppend`. Every round but the first finds a block with room. -/
def appendLoop : ℕ → List AofRwBlock → Bytes → List AofRwBlock
  | 0, blocks, _ => blocks
  | fuel + 1, blocks, s =>
    if s = [] then blocks
    else
      match blocks.getLast? with
      | some block =>
        let blocks := blocks.dropLast ++ [block.fill s]
        let s := s.drop block.free
        if s = [] then blocks else appendLoop fuel (blocks ++ [.new]) s
      | none => appendLoop fuel (blocks ++ [.new]) s

def aofRewriteBufferAppend (blocks : List AofRwBlock) (s : Bytes) : List AofRwBlock :=
  appendLoop (s.length + 1) blocks s

/-- `aofRewriteBufferWrite`: the file after all blocks are written to it, when each `write` is
complete. The kernel's answers are listed, those after the last are complete. -/
def aofRewriteBufferWrite : List ℕ → List AofRwBlock → Bytes → Option Bytes
  | _, [], file => some file
  | [], block :: blocks, file => aofRewriteBufferWrite [] blocks (file ++ block.buf)
  | n :: writes, block :: blocks, file =>
    if block.buf = [] then aofRewriteBufferWrite (n :: writes) blocks file
    else if n ≠ block.buf.length then none
    else aofRewriteBufferWrite writes blocks (file ++ block.buf)

/-! ### The two processes -/

/-- Where the child is: it writes the snapshot and reads differences; it has asked the parent
to stop sending; it has the answer; it has ended. -/
inductive Phase
  | rewriting
  | asked
  | acked
  | exited (exitcode bysignal : ℕ)
  deriving DecidableEq, Repr

/-- The child, with what it writes for the keys and `server.aof_child_diff`. -/
structure Child where
  phase : Phase
  snapshot : Bytes
  diff : Bytes

structure System where
  /-- the file named `server.aof_filename` -/
  file : Bytes
  aof : AofBuffer
  /-- `server.aof_fd != -1` -/
  fdOpen : Bool
  currentSize : ℕ
  blocks : List AofRwBlock
  stopSendingDiff : Bool
  /-- the events of `aofChildWriteDiffData` and `aofChildPipeReadable` -/
  writableEvent : Bool
  readableEvent : Bool
  child : Option Child
  /-- `temp-rewriteaof-bg-%d.aof` -/
  tmpfile : Option Bytes
  dataPipe : Bytes
  stopPipe : Bytes
  ackPipe : Bytes
  lastRewriteOk : Bool

/-- `!` -/
def BANG : UInt8 := 33

/-- `rewriteAppendOnlyFileBackground` when the child is going to write `snapshot`; `pipe` and
`fork` may fail. -/
def rewriteAppendOnlyFileBackground (snapshot : Bytes) (rdbChild pipesOk forkOk : Bool) (s : System) : System :=
  if s.child.isSome ∨ rdbChild then s
  else if ¬ pipesOk then s
  else
    let s := { s with stopSendingDiff := false, dataPipe := [], stopPipe := [], ackPipe := [] }
    if ¬ forkOk then { s with readableEvent := false, writableEvent := false }
    else
      { s with
        readableEvent := true
        child := some ⟨.rewriting, snapshot, []⟩
        tmpfile := none
        aof := { s.aof with selectedDb := -1 } }

/-- The end of `feedAppendOnlyFile`, which has the text of a command on the database `dictid`. -/
def feedAppendOnlyFile (dictid : ℕ) (buf : Bytes) (s : System) : System :=
  let s :=
    { s with
      aof :=
        { s.aof with
          buf := if s.aof.state = AofState.on then s.aof.buf ++ buf else s.aof.buf
          selectedDb := dictid } }
  if s.child.isSome then { s with blocks := aofRewriteBufferAppend s.blocks buf, writableEvent := true } else s

/-- A round of the loop of `aofChildWriteDiffData` in which `write` takes `n` bytes, or none. -/
def aofChildWriteDiffData (n : ℕ) (s : System) : System :=
  match s.blocks with
  | [] => { s with writableEvent := false }
  | block :: blocks =>
    if s.stopSendingDiff then { s with writableEvent := false }
    else
      let rest := block.consume n
      { s with
        dataPipe := s.dataPipe ++ block.buf.take n
        blocks := if rest.buf = [] then blocks else rest :: blocks }

/-- `aofChildPipeReadable`; the acknowledgement may not get through. -/
def aofChildPipeReadable (ackOk : Bool) (s : System) : System :=
  match s.stopPipe with
  | [] => { s with readableEvent := false }
  | byte :: stopPipe =>
    let s := { s with stopPipe := stopPipe, readableEvent := false }
    if byte = BANG then
      { s with stopSendingDiff := true, ackPipe := if ackOk then s.ackPipe ++ [BANG] else s.ackPipe }
    else s

/-- `aofClosePipes`, `aofRewriteBufferReset` and `aofRemoveTempFile`. -/
def cleanup (s : System) : System :=
  { s with
    writableEvent := false
    readableEvent := false
    dataPipe := []
    stopPipe := []
    ackPipe := []
    blocks := []
    tmpfile := none
    child := none }

/-- What the system calls of `backgroundRewriteDoneHandler` answer. -/
structure DoneEnv where
  openOk : Bool
  writes : List ℕ
  renameOk : Bool

/-- The file that the handler gets ready to take the place of the log. -/
def residualWritten (env : DoneEnv) (s : System) : Option Bytes :=
  if env.openOk then s.tmpfile.bind fun tmp => aofRewriteBufferWrite env.writes s.blocks tmp else none

/-- `backgroundRewriteDoneHandler`, and whether it got to its end without an error. -/
def backgroundRewriteDoneHandler (exitcode bysignal : ℕ) (env : DoneEnv) (s : System) : System × Bool :=
  if bysignal = 0 ∧ exitcode = 0 then
    match residualWritten env s with
    | none => (cleanup s, false)
    | some file =>
      if ¬ env.renameOk then (cleanup s, false)
      else
        let s := { s with file := file, lastRewriteOk := true }
        let s := if s.fdOpen then { s with aof := ⟨s.aof.state, [], -1⟩, currentSize := file.length } else s
        let s := if s.aof.state = .waitRewrite then { s with aof := { s.aof with state := .on } } else s
        (cleanup s, true)
  else (cleanup { s with lastRewriteOk := false }, false)

/-! ### Steps -/

inductive Step
  | fork (snapshot : Bytes) (rdbChild pipesOk forkOk : Bool)
  | feed (dictid : ℕ) (buf : Bytes)
  | flush
  | writable (n : ℕ)
  | stopReadable (ackOk : Bool)
  | kill
  | childRead (n : ℕ)
  | childAsk
  | childAck
  | childFinish
  | childFail (exitcode bysignal : ℕ)
  | done (env : DoneEnv)

/-- The child reads some of the pipe, at any time before it ends. -/
def Child.read (c : Child) (n : ℕ) (s : System) : System :=
  match c.phase with
  | .exited _ _ => s
  | _ => { s with child := some { c with diff := c.diff ++ s.dataPipe.take n }, dataPipe := s.dataPipe.drop n }

/-- The steps of `rewriteAppendOnlyFile` after the snapshot: the request to stop, its answer,
and the end, which is reached when a `read` finds the pipe empty. A step whose time has not
come does nothing; an error can end the child at any time. -/
def Child.step (c : Child) (s : System) : Step → System
  | .childRead n => c.read n s
  | .childAsk =>
    if c.phase = .rewriting then { s with child := some { c with phase := .asked }, stopPipe := s.stopPipe ++ [BANG] }
    else s
  | .childAck =>
    match c.phase, s.ackPipe with
    | .asked, byte :: ackPipe =>
      { s with child := some { c with phase := if byte = BANG then .acked else .exited 1 0 }, ackPipe := ackPipe }
    | _, _ => s
  | .childFinish =>
    if c.phase = .acked ∧ s.dataPipe = [] then
      { s with child := some { c with phase := .exited 0 0 }, tmpfile := some (c.snapshot ++ c.diff) }
    else s
  | .childFail exitcode bysignal =>
    match c.phase with
    | .exited _ _ => s
    | _ => if exitcode = 0 ∧ bysignal = 0 then s
        else { s with child := some { c with phase := .exited exitcode bysignal } }
  | _ => s

/-- One step of either process, with what the handler of a finished rewrite reports. -/
def step : Step → System → System × List Bool
  | .fork snapshot rdbChild pipesOk forkOk, s =>
    (rewriteAppendOnlyFileBackground snapshot rdbChild pipesOk forkOk s, [])
  | .feed dictid buf, s => (feedAppendOnlyFile dictid buf s, [])
  | .flush, s =>
    let r := flushAppendOnlyFile s.file s.aof
    (if s.fdOpen then { s with file := r.1, aof := r.2, currentSize := r.1.length } else s, [])
  | .writable n, s => (if s.writableEvent then aofChildWriteDiffData n s else s, [])
  | .stopReadable ackOk, s => (if s.readableEvent then aofChildPipeReadable ackOk s else s, [])
  | .kill, s => (if s.child.isSome then cleanup s else s, [])
  | .done env, s =>
    match s.child with
    | some ⟨.exited exitcode bysignal, _, _⟩ =>
      let r := backgroundRewriteDoneHandler exitcode bysignal env s
      (r.1, [r.2])
    | _ => (s, [])
  | a, s =>
    match s.child with
    | some c => (c.step s a, [])
    | none => (s, [])

/-- The step ends a rewrite. -/
def Step.Ends : Step → Prop
  | .kill | .done _ => True
  | _ => False

def Step.appended : Step → Bytes
  | .feed _ buf => buf
  | _ => []

end RedisIR.Rewrite
