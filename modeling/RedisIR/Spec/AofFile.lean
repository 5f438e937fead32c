import RedisIR.Spec.Propagation
import RedisIR.Spec.Synchronous

/-! The append-only file under writes that are short or fail. `aofWrite` retries until the
kernel reports an error; `flushAppendOnlyFile` undoes a short write with `ftruncate`, or
keeps it and drops it from the buffer. -/

namespace RedisIR.AofFile

open CLib

/-- What a `write` returns: a number of bytes, or -1 with `EINTR` or another error. -/
inductive WriteResult
  | wrote (n : ℕ)
  | eintr
  | error
  deriving DecidableEq, Repr

/-- `server.aof_fsync` -/
inductive FsyncPolicy
  | no
  | always
  | everysec
  deriving DecidableEq, Repr

/-- The file behind `server.aof_fd`, opened with `O_APPEND`, and the fields that
`flushAppendOnlyFile` reads and writes. `lastWriteOk` is `aof_last_write_status == C_OK`. -/
structure Server where
  file : Bytes
  aof : AofBuffer
  currentSize : ℕ
  fsyncOffset : ℕ
  lastFsync : ℤ
  flushPostponedStart : ℤ
  delayedFsync : ℕ
  lastWriteOk : Bool
  indexedLog : DbFile

/-- The settings and the rest of the world during a call: the clock, whether a background
`fsync` is in progress, whether a child is alive, what the kernel answers to the `write`s
(those after the last are complete) and to `ftruncate`. -/
structure Env where
  fsync : FsyncPolicy
  noFsyncOnRewrite : Bool
  synchronous : Bool
  unixtime : ℤ
  fsyncInProgress : Bool
  childAlive : Bool
  writes : List WriteResult
  ftruncateOk : Bool

/-- `synchronousIndexing(buf)`, which does nothing unless instant recovery is on and
synchronous. -/
def indexWritten (synchronous : Bool) (indexedLog : DbFile) (buf : Bytes) : Outcome DbFile :=
  if synchronous then synchronousIndexing indexedLog buf else .returned indexedLog

/-- The loop of `aofWrite`: the file, what it returns, and the indexed log. All that is left
of the buffer is indexed after each `write`, whatever was written of it. -/
def aofWriteLoop (synchronous : Bool) :
    List WriteResult → Bytes → Bytes → ℕ → DbFile → Outcome (Bytes × ℤ × DbFile)
  | [], file, buf, totwritten, indexedLog =>
    if buf = [] then .returned (file, totwritten, indexedLog)
    else
      (indexWritten synchronous indexedLog buf).bind fun indexedLog =>
        .returned (file ++ buf, totwritten + buf.length, indexedLog)
  | .eintr :: rs, file, buf, totwritten, indexedLog =>
    if buf = [] then .returned (file, totwritten, indexedLog)
    else aofWriteLoop synchronous rs file buf totwritten indexedLog
  | .error :: _, file, buf, totwritten, indexedLog =>
    if buf = [] then .returned (file, totwritten, indexedLog)
    else .returned (file, if totwritten ≠ 0 then totwritten else -1, indexedLog)
  | .wrote n :: rs, file, buf, totwritten, indexedLog =>
    if buf = [] then .returned (file, totwritten, indexedLog)
    else
      (indexWritten synchronous indexedLog buf).bind fun indexedLog =>
        aofWriteLoop synchronous rs (file ++ buf.take n) (buf.drop n) (totwritten + (buf.take n).length) indexedLog

def aofWrite (env : Env) (file buf : Bytes) (indexedLog : DbFile) : Outcome (Bytes × ℤ × DbFile) :=
  aofWriteLoop env.synchronous env.writes file buf 0 indexedLog

/-- The end of `flushAppendOnlyFile`, from the label `try_fsync` on. -/
def tryFsync (env : Env) (syncInProgress : Bool) (s : Server) : Server :=
  if env.noFsyncOnRewrite ∧ env.childAlive then s
  else if env.fsync = .always then { s with fsyncOffset := s.currentSize, lastFsync := env.unixtime }
  else if env.fsync = .everysec ∧ s.lastFsync < env.unixtime then
    { s with
      fsyncOffset := if syncInProgress then s.fsyncOffset else s.currentSize
      lastFsync := env.unixtime }
  else s

/-- What follows a `write` that returned `nwritten` when that is not the length of the
buffer. A short write that could not be undone stays in the file and leaves the buffer. -/
def writeFailed (env : Env) (nwritten : ℤ) (s : Server) : Outcome Server :=
  let undone := nwritten ≠ -1 ∧ env.ftruncateOk
  let s := if undone then { s with file := s.file.take s.currentSize } else s
  let nwritten := if undone then -1 else nwritten
  if env.fsync = .always then .exited
  else
    let s := { s with lastWriteOk := false }
    .returned
      (if nwritten > 0 then
        { s with
          currentSize := s.currentSize + nwritten.toNat
          aof := { s.aof with buf := s.aof.buf.drop nwritten.toNat } }
      else s)

/-- The part of `flushAppendOnlyFile` that writes. -/
def flushWrite (env : Env) (syncInProgress : Bool) (s : Server) : Outcome Server :=
  (aofWrite env s.file s.aof.buf s.indexedLog).bind fun (file, nwritten, indexedLog) =>
    let s := { s with file := file, indexedLog := indexedLog, flushPostponedStart := 0 }
    if nwritten ≠ s.aof.buf.length then writeFailed env nwritten s
    else
      .returned
        (tryFsync env syncInProgress
          { s with
            lastWriteOk := true
            currentSize := s.currentSize + nwritten.toNat
            aof := { s.aof with buf := [] } })

/-- Under `everysec` the write is put off while a background `fsync` is in progress, for at
most two seconds. -/
def flushAppendOnlyFile (force : Bool) (env : Env) (s : Server) : Outcome Server :=
  if s.aof.buf = [] then
    if env.fsync = .everysec ∧ s.fsyncOffset ≠ s.currentSize ∧ s.lastFsync < env.unixtime ∧
      ¬ env.fsyncInProgress then .returned (tryFsync env false s)
    else .returned s
  else if env.fsync = .everysec then
    if ¬ force ∧ env.fsyncInProgress then
      if s.flushPostponedStart = 0 then .returned { s with flushPostponedStart := env.unixtime }
      else if env.unixtime - s.flushPostponedStart < 2 then .returned s
      else flushWrite env true { s with delayedFsync := s.delayedFsync + 1 }
    else flushWrite env env.fsyncInProgress s
  else flushWrite env false s

/-! ### Runs -/

inductive Call
  | feed (now : ℤ) (proc : AofProc) (dictid : ℕ) (argv : List Bytes)
  | flush (force : Bool) (env : Env)

def Call.exec (s : Server) : Call → Outcome Server
  | .feed now proc dictid argv =>
    (feedAppendOnlyFile now proc dictid argv s.aof).bind fun aof => .returned { s with aof := aof }
  | .flush force env => flushAppendOnlyFile force env s

def run : List Call → Server → Outcome Server
  | [], s => .returned s
  | c :: cs, s => (c.exec s).bind (run cs)

/-- What the calls feed, when `selectedDb` is the database of the command before them. -/
def fed : ℤ → List Call → Bytes
  | _, [] => []
  | selectedDb, .flush _ _ :: cs => fed selectedDb cs
  | selectedDb, .feed now proc dictid argv :: cs =>
    (if (dictid : ℤ) ≠ selectedDb then selectText dictid else []) ++ (match translate now proc argv with
      | .returned cmds => cmds.foldl catAppendOnlyGenericCommand []
      | _ => []) ++
      fed dictid cs

/-- The call can be made without ending the process: no `fsync` policy `always`, and no
options of a `SET` that the translation chokes on. -/
def Call.Tame : Call → Prop
  | .feed now proc _ argv => ∃ cmds, translate now proc argv = .returned cmds
  | .flush _ env => env.fsync ≠ .always ∧ env.synchronous = false

end RedisIR.AofFile
