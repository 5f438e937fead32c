import RedisIR.Spec.Indexer

/-! Synchronous indexing: with `instant_recovery_synchronous` on, every buffer that is
written to the sequential log is split into lines, and its `SET`s are indexed at once. -/

namespace RedisIR

open CLib

/-- `strcpy` of a line into an array of fifty bytes, and a zero byte over its last
character, the CR. An empty line would have the byte before the array overwritten. -/
def chop (line : Bytes) : Option Bytes :=
  if 0 < line.length ∧ line.length < 50 then some line.dropLast else none

/-- The record of a `SET`, whose `sprintf`s print the lengths of the two strings. -/
def syncText (key value : CStr) : CStr :=
  setText key value (BitVec.ofNat 64 key.val.length, BitVec.ofNat 64 value.val.length)

/-- `delRecordIndexdLog` and `addRecordIndexedLog` -/
def indexSet (dbp : IndexedLog) (key value : CStr) : IndexedLog :=
  IndexOp.apply dbp (.replace key (syncText key value))

/-- The loop over the lines of a buffer, with the command at line `k` next and `index` for what is
done with a `SET`. A negative number of arguments leads back, out of the array or around for ever. -/
def syncLoop {σ : Type} (index : σ → CStr → CStr → σ) (lines : List Bytes) : ℕ → ℕ → σ → Outcome σ
  | 0, _, _ => .overflowed
  | fuel + 1, k, dbp =>
    match lines[k]? with
    | none => .returned dbp
    | some strAux =>
      if strAux = [] then .returned dbp
      else if 50 ≤ strAux.length then .overflowed
      else
        match lines[k + 2]?.bind chop with
        | none => .overflowed
        | some command =>
          if command = [] then .returned dbp
          else
            match lines[k + 4]?.bind chop with
            | none => .overflowed
            | some key =>
              let argc := atoi strAux.tail
              if argc < 0 then .overflowed
              else if sdstoupper command = SET_COMMAND then
                match lines[k + 6]?.bind chop with
                | none => .overflowed
                | some value =>
                  syncLoop index lines fuel (k + 2 * argc.toNat + 1) (index dbp (cstr key) (cstr value))
              else syncLoop index lines fuel (k + 2 * argc.toNat + 1) dbp

/-- `synchronousIndexing(buf)` on the file of the indexed log. Each round of its loop goes
at least one line on. -/
def synchronousIndexing (indexedLog : DbFile) (buf : Bytes) : Outcome DbFile :=
  match indexedLog.openW with
  | none => .returned indexedLog
  | some dbp =>
    let lines := sdssplitlen (cstr buf).val
    match syncLoop indexSet lines (lines.length + 1) 0 dbp with
    | .returned dbp => .returned (.ok dbp)
    | .exited => .exited
    | .overflowed => .overflowed

def synchronousRun : List Bytes → DbFile → Outcome DbFile
  | [], indexedLog => .returned indexedLog
  | buf :: bufs, indexedLog =>
    match synchronousIndexing indexedLog buf with
    | .returned indexedLog => synchronousRun bufs indexedLog
    | .exited => .exited
    | .overflowed => .overflowed

/-- The argument has no line feed and no zero byte, and fits an array of fifty bytes with
the CR after it. -/
def FitsSync (a : Bytes) : Prop := Plain a ∧ a.length + 1 < 50

instance (a : Bytes) : Decidable (FitsSync a) := inferInstanceAs (Decidable (_ ∧ _))

end RedisIR
