import RedisIR.Lib.Machine
import RedisIR.Spec.IndexedLog

/-! Recovery while the server runs. The main thread executes client commands in `call`,
which first restores the key of a `SET`, `GET` or `INCR` on demand; the loader thread
goes through the indexed log key by key and sends a `setIR` for each. -/

namespace RedisIR

open CLib

/-! ### The block of `valueIR`

Both loaders keep the value of a key in an sds. They make a new one for a `SET` and write the
next value of a counter over the text with `sprintf`, which does not grow the block. -/

/-- `sdsHdrSize` of the type that `sdsnewlen` takes for `len` bytes. -/
def sdsHdrSize (len : ℕ) : ℕ :=
  if len = 0 then 3
  else if len < 2 ^ 5 then 1
  else if len < 2 ^ 8 then 3
  else if len < 2 ^ 16 then 5
  else if len < 2 ^ 32 then 9
  else 17

/-- How many bytes the block of a request has, and what each loader reads where a text has run
over the end of its block. The language leaves that open. -/
structure Allocator where
  usable : ℕ → ℕ
  enough : ∀ n, n ≤ usable n
  mono : Monotone usable
  onDemand : Bytes → Bytes
  loader : Bytes → Bytes

/-- An sds as `sprintf` leaves it: a text, with the `sdslen` of the one it was made with. -/
structure Sds where
  len : ℕ
  text : Bytes

def sdsnew (text : Bytes) : Sds := ⟨text.length, text⟩

/-- The longest text that the block of an sds takes, next to the header and the last zero. -/
def room (usable : ℕ → ℕ) (len : ℕ) : ℕ := usable (sdsHdrSize len + len + 1) - (sdsHdrSize len + 1)

def Sds.sprintf (usable : ℕ → ℕ) (overrun : Bytes → Bytes) (s : Sds) (text : Bytes) : Sds :=
  { s with text := if text.length ≤ room usable s.len then text else overrun text }

/-- `valueIR` after one more record of its key. -/
def Sds.replayRecord (usable : ℕ → ℕ) (overrun : Bytes → Bytes) (valueIR : Sds) (data : CStr) : Sds :=
  if recordCommand data = SET_COMMAND then sdsnew ((sdssplitlen data.val).getD 6 [])
  else if recordCommand data = INCR_COMMAND then valueIR.sprintf usable overrun (incrText (some valueIR.text))
  else valueIR

/-- What a load on demand makes of the records of a key. It copies the text to a block of
`sdslen(valueIR) + 5` bytes. -/
def Allocator.onDemandValue (m : Allocator) (records : List CStr) : Bytes :=
  let valueIR := records.foldl (Sds.replayRecord m.usable m.onDemand) (sdsnew zeroText)
  if valueIR.text.length < m.usable (valueIR.len + 5) then valueIR.text else m.onDemand valueIR.text

/-- The value of a key in an sds, and whether every text that was written into it fits. -/
def Sds.replayFits (usable : ℕ → ℕ) (x : Sds × Bool) (data : CStr) : Sds × Bool :=
  if recordCommand data = SET_COMMAND then (sdsnew ((sdssplitlen data.val).getD 6 []), true)
  else if recordCommand data = INCR_COMMAND then
    let text := incrText (some x.1.text)
    ({ x.1 with text := text }, x.2 && text.length ≤ room usable x.1.len)
  else x

/-- No `INCR` behind the last `SET` makes a text that is too long for its block. -/
def TextsFit (usable : ℕ → ℕ) (records : List CStr) : Prop :=
  (records.foldl (Sds.replayFits usable) (sdsnew zeroText, true)).2 = true

instance (usable : ℕ → ℕ) (records : List CStr) : Decidable (TextsFit usable records) :=
  inferInstanceAs (Decidable (_ = _))

/-- The counters of the indexed log all fit. -/
def Roomy (usable : ℕ → ℕ) (idx : IndexedLog) : Prop := ∀ e ∈ idx.entries, TextsFit usable (idx.get e.1)

instance (usable : ℕ → ℕ) (idx : IndexedLog) : Decidable (Roomy usable idx) :=
  inferInstanceAs (Decidable (∀ e ∈ _, _))

inductive LoaderPc
  /-- not scheduled yet: the flag is still down -/
  | start
  /-- at the head of its outer loop -/
  | scan
  /-- a group is read, its `setIR` not yet executed by the server -/
  | send
  /-- the `setIR` is executed, `addRestoredTuple` not yet -/
  | mark
  /-- the cursor is at its end -/
  | clear
  /-- the hash is cleared, the flag still up -/
  | lower
  | done
  deriving DecidableEq, Repr

/-- The loader's variables; `rest` is what its cursor has still to return, the current
record first. -/
structure Loader where
  pc : LoaderPc
  rest : List (CStr × CStr)
  commandIR : Bytes
  keyIR : CStr
  valueIR : Sds

/-- The database, `hash_restored_tuples`, `server.instant_recovery_performing`, the loader
thread, and the allocator. -/
structure Server where
  allocator : Allocator
  db : Db
  restored : List CStr
  performing : Bool
  loader : Loader

def isRestoredTuple (s : Server) (key : CStr) : Bool := key ∈ s.restored

def addRestoredTuple (s : Server) (key : CStr) : Server := { s with restored := key :: s.restored }

def clearHashRestoredTuples (s : Server) : Server := { s with restored := [] }

/-! ### On demand -/

/-- `loadRecordFromIndexedLog`, with the increase of `server.dirty` by its `setIR`. -/
def loadRecordFromIndexedLog (idx : IndexedLog) (key : CStr) (s : Server) : Server × ℕ :=
  if idx.get key = [] then (addRestoredTuple s key, 0)
  else
    let e := setIRCommand key.val (s.allocator.onDemandValue (idx.get key)) s.db
    (addRestoredTuple { s with db := e.db } key, e.dirty)

/-- The key of a command that is restored on demand: only those of `SET`, `GET` and
`INCR` are. -/
def Cmd.onDemand : Cmd → Option Bytes
  | .set k _ => some k
  | .get k => some k
  | .incr k => some k
  | _ => none

/-- The part of `call` before `c->cmd->proc(c)`. -/
def restoreOnDemand (idx : IndexedLog) (c : Cmd) (s : Server) : Server × ℕ :=
  match c.onDemand with
  | none => (s, 0)
  | some k =>
    if s.performing ∧ ¬ isRestoredTuple s (cstr k) then loadRecordFromIndexedLog idx (cstr k) s else (s, 0)

/-- What `call` leaves: the server, the reply, and the command it propagates to the log. -/
structure Called where
  server : Server
  reply : Reply
  propagated : Option Cmd

/-- `propagate` drops `setIR`. -/
def Cmd.logged : Cmd → Bool
  | .setIR _ _ => false
  | _ => true

/-- The change of `server.dirty` is measured from before the restore on demand. -/
def call (idx : IndexedLog) (c : Cmd) (s : Server) : Called :=
  let r := restoreOnDemand idx c s
  let e := c.proc r.1.db
  { server := { r.1 with db := e.db }
    reply := e.reply
    propagated := if 0 < r.2 + e.dirty ∧ c.logged then some e.cmd else none }

/-! ### The loader thread -/

/-- One record of the group being read: an `INCR` leaves `SET` in `commandIR`. -/
def Loader.readRecord (m : Allocator) (l : Loader) (key data : CStr) : Loader :=
  if recordCommand data = SET_COMMAND ∨ recordCommand data = INCR_COMMAND then
    { l with commandIR := SET_COMMAND, keyIR := key, valueIR := l.valueIR.replayRecord m.usable m.loader data }
  else { l with commandIR := recordCommand data }

/-- The inner loop, which ends at the first record of another key. -/
def Loader.readGroup (m : Allocator) (oldKey : CStr) : List (CStr × CStr) → Loader → Loader
  | [], l => { l with rest := [] }
  | (key, data) :: rest, l =>
    if key = oldKey then readGroup m oldKey rest (l.readRecord m key data)
    else { l with rest := (key, data) :: rest }

/-- One step of `loadDBFromIndexedLog`. -/
def loaderStep (idx : IndexedLog) (s : Server) : Server :=
  match s.loader.pc with
  | .start => { s with performing := true, loader := { s.loader with pc := .scan } }
  | .scan =>
    match s.loader.rest with
    | [] => { s with loader := { s.loader with pc := .clear } }
    | (key, data) :: rest =>
      if isRestoredTuple s key then
        -- `DB_NEXT_NODUP`
        { s with loader := { s.loader with rest := rest.dropWhile fun e => e.1 = key } }
      else
        let l := Loader.readGroup s.allocator key ((key, data) :: rest) { s.loader with valueIR := sdsnew zeroText }
        { s with loader := { l with pc := if l.commandIR = SET_COMMAND then .send else .scan } }
  | .send =>
    let s' := (call idx (.setIR s.loader.keyIR.val s.loader.valueIR.text) s).server
    { s' with loader := { s'.loader with pc := .mark } }
  | .mark =>
    let s' := addRestoredTuple s s.loader.keyIR
    { s' with loader := { s'.loader with pc := .scan } }
  | .clear =>
    let s' := clearHashRestoredTuples s
    { s' with loader := { s'.loader with pc := .lower } }
  | .lower => { s with performing := false, loader := { s.loader with pc := .done } }
  | .done => s

/-- A server after a restart: nothing in memory, the loader's cursor before the records
`c` of the indexed log. -/
def Server.restarted (m : Allocator) (c : List (CStr × CStr)) : Server where
  allocator := m
  db := emptyDb
  restored := []
  performing := false
  loader := ⟨.start, c, [], cstr [], sdsnew zeroText⟩

/-- The whole of `loadDBFromIndexedLog` with no client: three steps a record, and four to
raise the flag, to meet the end, to clear the hash and to lower the flag. -/
def loadDBFromIndexedLog (m : Allocator) (idx : IndexedLog) (c : List (CStr × CStr)) : Server :=
  (loaderStep idx)^[3 * c.length + 4] (Server.restarted m c)

/-- Every record redoes a `SET` or an `INCR`, as the indexers write them. -/
def Redoable (idx : IndexedLog) : Prop :=
  ∀ e ∈ idx.entries, recordCommand e.2 = SET_COMMAND ∨ recordCommand e.2 = INCR_COMMAND

instance (idx : IndexedLog) : Decidable (Redoable idx) := inferInstanceAs (Decidable (∀ e ∈ _, _))

/-! ### Interleavings -/

inductive Action
  | client (c : Cmd)
  | loader
  deriving DecidableEq

def serverStep (idx : IndexedLog) : Action → Server → Server × List Reply
  | .client c, s => ((call idx c s).server, [(call idx c s).reply])
  | .loader, s => (loaderStep idx s, [])

def serverRun (idx : IndexedLog) : List Action → Server → Server × List Reply := Machine.run (serverStep idx)

/-- A server that only executes commands. -/
def dbStep (c : Cmd) (db : Db) : Db × List Reply := ((c.proc db).db, [(c.proc db).reply])

def dbRun : List Cmd → Db → Db × List Reply := Machine.run dbStep

def Action.cmds : Action → List Cmd
  | .client c => [c]
  | .loader => []

def Server.recovering (m : Allocator) (c : List (CStr × CStr)) : Server :=
  { Server.restarted m c with performing := true, loader := { (Server.restarted m c).loader with pc := .scan } }

/-! ### Which steps leave a settled key alone -/

/-- The loader has read the group of `k` and its `setIR` is not executed yet. -/
def Server.holds (s : Server) (k : CStr) : Prop := s.loader.pc = .send ∧ s.loader.keyIR = k

/-- The loader's cursor has still to come to the group of `k`. -/
def Server.ahead (s : Server) (k : CStr) : Prop := k ∈ s.loader.rest.map Prod.fst

instance (s : Server) (k : CStr) : Decidable (s.holds k) := inferInstanceAs (Decidable (_ ∧ _))

instance (s : Server) (k : CStr) : Decidable (s.ahead k) := inferInstanceAs (Decidable (_ ∈ _))

/-- The database key `b` has records in the indexed log. -/
def Indexed (idx : IndexedLog) (b : Bytes) : Prop := (cstr b).val = b ∧ idx.get (cstr b) ≠ []

/-- A load of `k` on demand finds it in memory, or still to be brought in by the loader. -/
def LoadSafe (idx : IndexedLog) (s : Server) (k : CStr) : Prop :=
  s.performing → k ∉ s.restored → idx.get k ≠ [] → s.db k.val = none → s.ahead k ∨ s.holds k

/-- A `DEL` finds the key settled: the loader does not hold it, and it is restored or passed. -/
def DelSafe (idx : IndexedLog) (s : Server) (b : Bytes) : Prop :=
  Indexed idx b → ¬ s.holds (cstr b) ∧ (cstr b ∈ s.restored ∨ ¬ s.ahead (cstr b))

/-- An indexed key that is not in memory is not read before the loader's first step. -/
def GateSafe (idx : IndexedLog) (s : Server) (b : Bytes) : Prop :=
  Indexed idx b → s.db b = none → s.loader.pc ≠ .start

instance (idx : IndexedLog) (b : Bytes) : Decidable (Indexed idx b) := inferInstanceAs (Decidable (_ ∧ _))

instance (idx : IndexedLog) (s : Server) (k : CStr) : Decidable (LoadSafe idx s k) :=
  inferInstanceAs (Decidable (_ → _ → _ → _ → _))

instance (idx : IndexedLog) (s : Server) (b : Bytes) : Decidable (DelSafe idx s b) :=
  inferInstanceAs (Decidable (_ → _))

instance (idx : IndexedLog) (s : Server) (b : Bytes) : Decidable (GateSafe idx s b) :=
  inferInstanceAs (Decidable (_ → _ → _))

/-- What clients ask for: `SET`, `GET`, `INCR`, and `DEL` of one key. -/
def Cmd.isRequest : Cmd → Bool
  | .set _ _ => true
  | .get _ => true
  | .incr _ => true
  | .del [_] => true
  | _ => false

def Cmd.deletes : Cmd → List Bytes
  | .del ks => ks
  | _ => []

/-- A load on demand brings back no key that was deleted, and a `DEL` does not meet a key
that is still to be brought in. -/
def DeletionSafe (idx : IndexedLog) (s : Server) (a : Action) : Prop :=
  ∀ d ∈ a.cmds, (∀ b ∈ d.deletes, DelSafe idx s b) ∧ ∀ b ∈ d.onDemand, LoadSafe idx s (cstr b)

instance (idx : IndexedLog) (s : Server) (a : Action) : Decidable (DeletionSafe idx s a) :=
  inferInstanceAs (Decidable (∀ d ∈ _, _ ∧ _))

/-! ### The main thread -/

/-- `main` announces that it accepts connections, creates the loader thread, and enters
the event loop. -/
inductive MainPc
  | announced
  | created
  | eventLoop
  deriving DecidableEq, Repr

structure Process where
  main : MainPc
  server : Server

inductive ThreadStep
  | main
  | loader
  | client (c : Cmd)
  deriving DecidableEq

def MainPc.next : MainPc → MainPc
  | .announced => .created
  | _ => .eventLoop

/-- The loader thread runs once it is created, clients are served in the event loop. -/
def Enabled (p : Process) : ThreadStep → Prop
  | .main => p.main ≠ .eventLoop
  | .loader => p.main ≠ .announced
  | .client _ => p.main = .eventLoop

def ThreadStep.cmds : ThreadStep → List Cmd
  | .client c => [c]
  | _ => []

def Cmd.reads : Cmd → Option Bytes
  | .get k => some k
  | .incr k => some k
  | _ => none

/-- A client's `GET` or `INCR` finds the gate closed. -/
def Gated (idx : IndexedLog) (p : Process) (a : ThreadStep) : Prop :=
  ∀ d ∈ a.cmds, ∀ b ∈ d.reads, GateSafe idx p.server b

instance (idx : IndexedLog) (p : Process) (a : ThreadStep) : Decidable (Gated idx p a) :=
  inferInstanceAs (Decidable (∀ d ∈ _, ∀ b ∈ _, _))

instance (p : Process) : (a : ThreadStep) → Decidable (Enabled p a)
  | .main => inferInstanceAs (Decidable (_ ≠ _))
  | .loader => inferInstanceAs (Decidable (_ ≠ _))
  | .client _ => inferInstanceAs (Decidable (_ = _))

def processStep (idx : IndexedLog) : ThreadStep → Process → Process × List Reply
  | .main, p => ({ p with main := p.main.next }, [])
  | .loader, p => ({ p with server := loaderStep idx p.server }, [])
  | .client c, p => ({ p with server := (call idx c p.server).server }, [(call idx c p.server).reply])

def processRun (idx : IndexedLog) : List ThreadStep → Process → Process × List Reply :=
  Machine.run (processStep idx)

end RedisIR
