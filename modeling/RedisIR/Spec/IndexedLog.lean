import RedisIR.Lib.Multimap
import RedisIR.Spec.Aof

/-! The indexed log: the records of the sequential log regrouped by key in a Berkeley DB
store with duplicates, how the loaders read a value back from the records of one key,
and the start-up indexer that brings the store up to date with the sequential log. -/

namespace RedisIR

open CLib

abbrev IndexedLog := Multimap CStr CStr

def addRecordIndexedLog (dbp : IndexedLog) (key data : CStr) : IndexedLog := dbp.put key data

def delRecordIndexdLog (dbp : IndexedLog) (key : CStr) : IndexedLog := dbp.del key

/-- What an indexer does to the store for one record of the sequential log. -/
inductive IndexOp
  | replace (key data : CStr)
  | add (key data : CStr)
  | remove (key : CStr)
  deriving DecidableEq

def IndexOp.apply (dbp : IndexedLog) : IndexOp → IndexedLog
  | .replace key data => addRecordIndexedLog (delRecordIndexdLog dbp key) key data
  | .add key data => addRecordIndexedLog dbp key data
  | .remove key => delRecordIndexdLog dbp key

/-! ### Reading a value back -/

/-- `sdssplitlen(s, sdslen(s), "\n", 1, &count)` -/
def sdssplitlen (s : Bytes) : List Bytes := if s = [] then [] else s.splitOn LF

def recordCommand (data : CStr) : Bytes := sdstoupper ((sdssplitlen data.val).getD 2 [])

/-- `sdsnew("0")` -/
def zeroText : Bytes := ascii ['0']

/-- The text of `atoi(valueIR) + 1`, for a key without a value of `atoi("0") + 1`. -/
def incrText (x : Option Bytes) : Bytes := decimal (wrapInt (atoi (x.getD zeroText) + 1))

/-- The value after one more record of its key. The block that the loaders keep it in, which
`sprintf` does not grow, is left out here. -/
def replayRecord (valueIR : Bytes) (data : CStr) : Bytes :=
  if recordCommand data = SET_COMMAND then (sdssplitlen data.val).getD 6 []
  else if recordCommand data = INCR_COMMAND then incrText (some valueIR)
  else valueIR

/-- The value the records of one key stand for; no record, no key. -/
def foldedValue (records : List CStr) : Option Bytes :=
  if records = [] then none else some (records.foldl replayRecord zeroText)

def view (m : IndexedLog) (k : CStr) : Option Bytes := foldedValue (m.get k)

def Plain (a : Bytes) : Prop := LF ∉ a ∧ (0 : UInt8) ∉ a

instance (a : Bytes) : Decidable (Plain a) := inferInstanceAs (Decidable (_ ∧ _))

def Op.Plain : Op → Prop
  | .set k v => RedisIR.Plain k ∧ RedisIR.Plain v
  | .incr k => RedisIR.Plain k
  | .del k => RedisIR.Plain k
  | .setCheckpoint k v => RedisIR.Plain k ∧ RedisIR.Plain v
  | .checkpointEnd _ _ => True
  | .select => True

instance : (o : Op) → Decidable o.Plain
  | .set _ _ => inferInstanceAs (Decidable (_ ∧ _))
  | .incr k => inferInstanceAs (Decidable (RedisIR.Plain k))
  | .del k => inferInstanceAs (Decidable (RedisIR.Plain k))
  | .setCheckpoint _ _ => inferInstanceAs (Decidable (_ ∧ _))
  | .checkpointEnd _ _ => isTrue trivial
  | .select => isTrue trivial

/-! ### The files of a server -/

inductive DbFile
  | missing
  | damaged
  | ok (log : IndexedLog)

/-- `openIndexedLog(name, 'R', &result)`: `none` is a result other than zero. -/
def DbFile.openR : DbFile → Option IndexedLog
  | .ok log => some log
  | _ => none

/-- `openIndexedLog(name, 'W', &result)` creates a missing file. -/
def DbFile.openW : DbFile → Option IndexedLog
  | .missing => some Multimap.empty
  | .damaged => none
  | .ok log => some log

/-- The sequential log, the position files `FINAL_LOG_SEEK`, `FINAL_LOG_SEEK_REPLICA` and
`CHECKPOINT_LOG_SEEK`, and the two indexed logs. -/
structure Files where
  aof : Bytes
  finalLogSeek : Option ℤ
  finalLogSeekReplica : Option ℤ
  checkpointLogSeek : Option ℤ
  indexedLog : DbFile
  replica : DbFile

def readFinalLogSeek (file : Option ℤ) : ℤ := file.getD (-1)

/-- An indexer at work: the files, and the open stores. Without a replica `dbpReplica`
is `none`. -/
structure Indexing where
  files : Files
  dbp : IndexedLog
  dbpReplica : Option IndexedLog

/-- The steps of an indexer that reach the disk or the open stores, one record at a time. -/
inductive Effect
  | record (o : Option IndexOp)
  | sync
  | close
  | writeFinalLogSeek (seek : ℤ)
  | writeFinalLogSeekReplica (seek : ℤ)
  | closeReplica

def applyRecord (dbp : IndexedLog) (o : Option IndexOp) : IndexedLog := o.elim dbp (IndexOp.apply dbp)

def Effect.exec (s : Indexing) : Effect → Indexing
  | .record o => { s with dbp := applyRecord s.dbp o, dbpReplica := s.dbpReplica.map (applyRecord · o) }
  | .sync | .close => { s with files := { s.files with indexedLog := .ok s.dbp } }
  | .writeFinalLogSeek seek => { s with files := { s.files with finalLogSeek := some seek } }
  | .writeFinalLogSeekReplica seek => { s with files := { s.files with finalLogSeekReplica := some seek } }
  | .closeReplica => { s with files := { s.files with replica := s.dbpReplica.elim s.files.replica .ok } }

/-! ### The start-up indexer -/

/-- Where the start-up indexer begins, with the files and `indexedlog_replicated` after
its search for a usable indexed log. -/
structure Start where
  seek : ℤ
  files : Files
  replicated : Bool

/-- `CHECKPOINT_LOG_SEEK`, or the beginning of the log without one. -/
def checkpointStart (files : Files) : ℤ :=
  if readFinalLogSeek files.checkpointLogSeek = -1 then 0 else readFinalLogSeek files.checkpointLogSeek

/-- The attempt to put the replica in the place of the indexed log; the flag is the new
value of `errorLog`. -/
def useReplica (seek : ℤ) (files : Files) : Start × Bool :=
  match files.replica with
  | .missing => (⟨seek, { files with indexedLog := .missing }, true⟩, false)
  | replica =>
    (⟨readFinalLogSeek files.finalLogSeekReplica,
      { files with indexedLog := replica, replica := .missing }, false⟩, true)

def chooseStart (files : Files) (replicated : Bool) : Start :=
  let errorSync : Bool := readFinalLogSeek files.finalLogSeek = -1
  let seek := if errorSync then 0 else readFinalLogSeek files.finalLogSeek
  let errorLog : Bool := files.indexedLog.openR = none
  if errorLog || errorSync then
    let (start, errorLog) := if replicated then useReplica seek files else (⟨seek, files, false⟩, errorLog)
    if errorLog then start else { start with seek := checkpointStart files }
  else ⟨seek, files, replicated⟩

/-- The variables that the parse loop carries from one command to the next. -/
structure Parse where
  seek : ℤ
  logRecord : Bytes
  command : Bytes
  key : CStr

/-- The argument loop: `n` arguments to go, the next of which has number `j`. -/
def initialArgs : ℕ → ℕ → Bytes → Parse → Except ReadErr (Parse × Bytes)
  | 0, _, inp, p => .ok (p, inp)
  | n + 1, j, inp, p =>
    match readBulk inp with
    | .error e => .error e
    | .ok (buf, arg, inp) =>
      initialArgs n (j + 1) inp
        { seek := p.seek + strlen buf + arg.length + 2
          logRecord := p.logRecord ++ (cstr buf).val ++ arg ++ if n = 0 then [] else [LF]
          command := if j = 0 then (cstr arg).val else p.command
          key := if j = 1 then cstr arg else p.key }

/-- What the start-up indexer does with the command just read: `SETCHECKPOINT`,
`CHECKPOINTEND` and everything else it does not know leave no trace. -/
def initialRecord (p : Parse) : Option IndexOp :=
  if sdstoupper p.command = SET_COMMAND then some (.replace p.key (cstr p.logRecord))
  else if sdstoupper p.command = INCR_COMMAND then some (.add p.key (cstr p.logRecord))
  else if sdstoupper p.command = DEL_COMMAND then some (.remove p.key)
  else none

/-- The main loop, with the records handled so far. -/
def initialLoop : ℕ → Bytes → Parse → List (Option IndexOp) → Outcome (ℤ × List (Option IndexOp))
  | 0, _, p, recs => .returned (p.seek, recs)
  | fuel + 1, inp, p, recs =>
    if inp = [] then .returned (p.seek, recs)
    else
      match readHeader inp with
      | .error _ => .exited
      | .ok (buf, argc, inp) =>
        match initialArgs argc 0 inp { p with seek := p.seek + strlen buf, logRecord := (cstr buf).val } with
        | .error _ => .exited
        | .ok (p, inp) => initialLoop fuel inp p (recs ++ [initialRecord p])

/-- A start-up run: the state once the stores are open, what is then done to it, the
value of `server.indexedlog_replicated`, and the number of records processed. -/
structure InitialRun where
  start : Indexing
  effects : List Effect
  replicated : Bool
  countRecords : ℕ

def InitialRun.result (r : InitialRun) : Indexing := r.effects.foldl Effect.exec r.start

/-- The last effects of a run that has read the log up to `seek`. The position is
written before the store is closed. -/
def initialFinish (seek : ℤ) (replicated : Bool) : List Effect :=
  [.writeFinalLogSeek seek, .close] ++ if replicated then [.writeFinalLogSeekReplica seek, .closeReplica] else []

/-- A negative position makes `fseek` fail, which leaves the file at its beginning. -/
def fseek (file : Bytes) (seek : ℤ) : Bytes := file.drop seek.toNat

def initialIndexesSequentialLogToIndexedLog (files : Files) (replicated : Bool) : Outcome InitialRun :=
  let s := chooseStart files replicated
  match s.files.indexedLog.openW with
  | none => .returned ⟨⟨s.files, Multimap.empty, none⟩, [], s.replicated, 0⟩
  | some dbp =>
    let dbpReplica := if s.replicated then s.files.replica.openW else none
    let start : Indexing := ⟨{ s.files with
      indexedLog := .ok dbp
      replica := dbpReplica.elim s.files.replica .ok }, dbp, dbpReplica⟩
    if files.aof = [] then
      -- the sequential log was removed or nothing was ever written
      .returned ⟨start, [.writeFinalLogSeek 0, .close], s.replicated, 0⟩
    else
      match initialLoop (files.aof.length + 1) (fseek files.aof s.seek) ⟨s.seek, [], [], cstr []⟩ [] with
      | .exited => .exited
      | .overflowed => .overflowed
      | .returned (seek, recs) =>
        .returned ⟨start, recs.map .record ++ initialFinish seek s.replicated, s.replicated, recs.length⟩

end RedisIR
