import RedisIR.Spec.IndexedLog

/-! The online indexer: a thread that polls the sequential log, queues the commands it has
read, and writes the queue to the indexed log. -/

namespace RedisIR

open CLib

/-! ### The queue -/

/-- A node of the queue. Its arrays hold C strings of at most 19, 49 and 49 bytes. The two
lengths are what `sdslen` finds in the memory before `key` and `value`, which are no `sds`. -/
structure RecordToIndex where
  command : CStr
  key : CStr
  value : CStr
  keyLen : BitVec 64
  valueLen : BitVec 64
  command_fits : command.val.length < 20
  key_fits : key.val.length < 50
  value_fits : value.val.length < 50

/-- Three calls of `strcpy` into a new node, whose memory holds `mem`; `none` is an overflow. -/
def addRecordToIndex (command key value : CStr) (mem : BitVec 64 × BitVec 64) : Option RecordToIndex :=
  if h : command.val.length < 20 ∧ key.val.length < 50 ∧ value.val.length < 50 then
    some ⟨command, key, value, mem.1, mem.2, h.1, h.2.1, h.2.2⟩
  else none

/-- `sprintf(aux, "*3\n$3\nSET\n$%ld\n%s\n$%ld\n%s", sdslen(key), key, sdslen(value), value)` -/
def setText (key value : CStr) (mem : BitVec 64 × BitVec 64) : CStr :=
  cstr (ascii ['*', '3', '\n', '$', '3', '\n'] ++ SET_COMMAND ++ LF :: 36 :: decimal mem.1.toInt ++
    LF :: key.val ++ LF :: 36 :: decimal mem.2.toInt ++ LF :: value.val)

/-- What the writer does with a node: an `INCR` is written as a `SET`, and only
`SETCHECKPOINT` removes the older records of its key. -/
def onlineRecord (command key value : CStr) (mem : BitVec 64 × BitVec 64) : Option IndexOp :=
  if command.val = SET_COMMAND then some (.add key (setText key value mem))
  else if command.val = INCR_COMMAND then some (.add key (setText key value mem))
  else if command.val = DEL_COMMAND then some (.remove key)
  else if command.val = SETCHECKPOINT_COMMAND then some (.replace key (setText key value mem))
  else none

def RecordToIndex.indexOp (r : RecordToIndex) : Option IndexOp :=
  onlineRecord r.command r.key r.value (r.keyLen, r.valueLen)

/-- What `writeToIndexedLog` does to the disk, the signal it returns (`IR_ON` or not), and
its two counters. -/
structure Written where
  effects : List Effect
  signal : Bool
  countRecords : ℕ
  countRecordsIndexed : ℕ

/-- The loop of `writeToIndexedLog`; `stop` is the number of nodes after which it finds
`indexer_state` to be `IR_OFF`, if it ever does. -/
def writeLoop (seek : ℤ) : Option ℕ → List RecordToIndex → Written → Written
  | _, [], w => { w with effects := w.effects ++ [.sync, .writeFinalLogSeek seek], signal := true }
  | some 0, _ :: _, w => { w with effects := w.effects ++ [.sync, .writeFinalLogSeek seek], signal := false }
  | stop, r :: ri, w =>
    writeLoop seek (stop.map (· - 1)) ri
      { w with
        effects := w.effects ++ [.record r.indexOp]
        countRecords := w.countRecords + 1
        countRecordsIndexed := w.countRecordsIndexed + if r.indexOp.isSome then 1 else 0 }

def writeToIndexedLog (ri : List RecordToIndex) (seek : ℤ) (stop : Option ℕ) : Written :=
  writeLoop seek stop ri ⟨[], true, 0, 0⟩

/-! ### The polling loop -/

/-- The variables of `indexesSequentialLogToIndexedLogV2`, the queue, the number of nodes
allocated so far, and the open indexed log. `value` is not reset between commands. -/
structure Indexer where
  seek : ℤ
  command : CStr
  key : CStr
  value : CStr
  pending : List RecordToIndex
  nodes : ℕ
  disk : Indexing

/-- The thread at its start, over the open store `dbp`. -/
def Indexer.start (files : Files) (dbp : IndexedLog) : Indexer where
  seek := readFinalLogSeek files.finalLogSeek
  command := cstr []
  key := cstr []
  value := cstr []
  pending := []
  nodes := 0
  disk := ⟨files, dbp, none⟩

/-- The assignments for argument number `j`. -/
def Indexer.assign (s : Indexer) (j : ℕ) (buf arg : Bytes) : Indexer :=
  { s with
    seek := s.seek + strlen buf + arg.length
    command := if j = 0 then cstr (sdstoupper (cstr arg).val) else s.command
    key := if j = 1 then cstr arg else s.key
    value := if j = 2 then cstr arg else s.value }

/-- The argument loop: `n` arguments to go, the next of which has number `j`. A failed read
leaves the assignments made so far. -/
def indexerArgs : ℕ → ℕ → Bytes → Indexer → Indexer × Except ReadErr Bytes
  | 0, _, inp, s => (s, .ok inp)
  | n + 1, j, inp, s =>
    match readArg inp with
    | .error e => (s, .error e)
    | .ok (buf, arg, inp) =>
      match fread 2 inp with
      | none => (s.assign j buf arg, .error (.readerr true))
      | some (_, inp) =>
        indexerArgs n (j + 1) inp { s.assign j buf arg with seek := (s.assign j buf arg).seek + 2 }

/-- What the memory of each new node holds. -/
abbrev NodeMemory := ℕ → BitVec 64 × BitVec 64

/-- The commands up to the end of the file. The flag is false when the file ends inside a
command: the position is then set back to the beginning of that command. -/
def indexerScan (mem : NodeMemory) : ℕ → Bytes → Indexer → Outcome (Indexer × Bool)
  | 0, _, s => .returned (s, true)
  | fuel + 1, inp, s =>
    if inp = [] then .returned (s, true)
    else
      match readHeader inp with
      | .error (.readerr true) => .returned (s, false)
      | .error _ => .exited
      | .ok (buf, argc, inp) =>
        match indexerArgs argc 0 inp { s with seek := s.seek + strlen buf } with
        | (s', .error (.readerr true)) => .returned ({ s' with seek := s.seek }, false)
        | (_, .error _) => .exited
        | (s', .ok inp) =>
          match addRecordToIndex s'.command s'.key s'.value (mem s'.nodes) with
          | none => .overflowed
          | some r => indexerScan mem fuel inp { s' with pending := s'.pending ++ [r], nodes := s'.nodes + 1 }

/-- One round of the main loop over the contents `file` of the sequential log, without a
stop signal. After a torn command the queue is kept for the next round. -/
def indexerPoll (mem : NodeMemory) (s : Indexer) (file : Bytes) : Outcome Indexer :=
  if fseek file s.seek = [] then .returned s
  else
    match indexerScan mem (file.length + 1) (fseek file s.seek) s with
    | .exited => .exited
    | .overflowed => .overflowed
    | .returned (s', false) => .returned s'
    | .returned (s', true) =>
      .returned { s' with
        pending := []
        disk := (writeToIndexedLog s'.pending s'.seek none).effects.foldl Effect.exec s'.disk }

def indexerRun (mem : NodeMemory) : List Bytes → Indexer → Outcome Indexer
  | [], s => .returned s
  | file :: files, s =>
    match indexerPoll mem s file with
    | .exited => .exited
    | .overflowed => .overflowed
    | .returned s => indexerRun mem files s

/-- A queue handed to `writeToIndexedLog`, with the position that is passed along. -/
structure Batch where
  records : List RecordToIndex
  seek : ℤ

/-- The batch of a round, which hands its queue over when it gets to the end of the file. -/
def pollBatch (mem : NodeMemory) (s : Indexer) (file : Bytes) : List Batch :=
  if fseek file s.seek = [] then []
  else
    match indexerScan mem (file.length + 1) (fseek file s.seek) s with
    | .returned (s', true) => [⟨s'.pending, s'.seek⟩]
    | _ => []

/-- The rounds of `indexerRun` with the batches they hand over. -/
def indexerTrace (mem : NodeMemory) : List Bytes → Indexer → Outcome (Indexer × List Batch)
  | [], s => .returned (s, [])
  | file :: files, s =>
    match indexerPoll mem s file with
    | .exited => .exited
    | .overflowed => .overflowed
    | .returned s' =>
      match indexerTrace mem files s' with
      | .exited => .exited
      | .overflowed => .overflowed
      | .returned (s'', bs) => .returned (s'', pollBatch mem s file ++ bs)

end RedisIR
