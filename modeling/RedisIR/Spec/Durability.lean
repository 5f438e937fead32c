import RedisIR.Lib.Machine
import RedisIR.Spec.Indexer

/-! What a crash leaves on disk. The indexed log keeps what it held at the last `sync` or
`close`, `FINAL_LOG_SEEK` what was last written to it. Each operation on the indexed log is
tracked with the number of the command that it comes from, so that one can say which
commands of the sequential log the file holds. -/

namespace RedisIR

open CLib

/-- An operation on the indexed log, for the command `number` of the sequential log. -/
structure Applied where
  number : ℕ
  op : Option IndexOp
  deriving DecidableEq

/-- An indexer at work on the command `next`, with what has been done to the open store
and what of it is in the file. -/
structure Tracked where
  indexing : Indexing
  next : ℕ
  opened : List Applied
  durable : List Applied

def Tracked.exec (t : Tracked) : Effect → Tracked
  | .record o => ⟨Effect.exec t.indexing (.record o), t.next + 1, t.opened ++ [⟨t.next, o⟩], t.durable⟩
  | .sync => ⟨Effect.exec t.indexing .sync, t.next, t.opened, t.opened⟩
  | .close => ⟨Effect.exec t.indexing .close, t.next, t.opened, t.opened⟩
  | e => ⟨Effect.exec t.indexing e, t.next, t.opened, t.durable⟩

/-- The disk between two runs: the sequential log, the files, and what has been done to
the indexed log that is among them. -/
structure Disk where
  log : List LogCmd
  files : Files
  durable : List Applied

def commandsBefore (L : List LogCmd) (seek : ℤ) : ℕ := (List.range L.length).countP fun i => LiesBefore L seek i

/-- The disk after `point` of the effects of an indexer that begins at the position `seek`. -/
def Disk.crash (d : Disk) (seek : ℤ) (start : Indexing) (effects : List Effect) (point : ℕ) : Disk :=
  let t := (effects.take point).foldl Tracked.exec ⟨start, commandsBefore d.log seek, d.durable, d.durable⟩
  ⟨d.log, t.indexing.files, t.durable⟩

/-- What happens to the disk: a command is logged, or an indexer runs up to a crash after
`point` of its effects. A run whose `point` is beyond its last effect is complete. -/
inductive DiskEvent
  | append (c : LogCmd)
  | startup (replicated : Bool) (point : ℕ)
  | batch (ri : List RecordToIndex) (point : ℕ)

/-- A batch is passed the position after the last command of its queue. -/
def DiskEvent.exec (d : Disk) : DiskEvent → Disk
  | .append c => ⟨d.log ++ [c], { d.files with aof := aofBytes (d.log ++ [c]) }, d.durable⟩
  | .startup replicated point =>
    match initialIndexesSequentialLogToIndexedLog d.files replicated with
    | .returned r => d.crash (chooseStart d.files replicated).seek r.start r.effects point
    | _ => d
  | .batch ri point =>
    let seek := readFinalLogSeek d.files.finalLogSeek
    match d.files.indexedLog.openW with
    | none => d
    | some dbp =>
      d.crash seek ⟨d.files, dbp, none⟩
        (writeToIndexedLog ri (offset d.log (commandsBefore d.log seek + ri.length)) none).effects point

def diskStep (e : DiskEvent) (d : Disk) : Disk × List Empty := (e.exec d, [])

/-- The indexed log on disk contains the command number `i`. -/
def Disk.Contains (d : Disk) (i : ℕ) : Prop := ∃ a ∈ d.durable, a.number = i

instance (d : Disk) (i : ℕ) : Decidable (d.Contains i) := inferInstanceAs (Decidable (∃ a ∈ _, _))

/-- The indexed log on disk contains every command before the position on disk. -/
def Disk.Consistent (d : Disk) : Prop :=
  ∀ seek, d.files.finalLogSeek = some seek → ∀ i, LiesBefore d.log seek i → d.Contains i

end RedisIR
