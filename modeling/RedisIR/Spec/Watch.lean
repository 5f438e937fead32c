import RedisIR.Lib.Machine
import RedisIR.Lib.Since

/-! `WATCH`: each client has a list of the keys that it watches, each database a table of the
clients that watch a key, and a flag of the client says that one of its keys was touched. Clients
are values of `C` and keys of `K`; a client that has not connected is one that has not sent
anything. The server is a master. -/

namespace RedisIR.Watch

variable {C K : Type} [DecidableEq C] [DecidableEq K]

structure WatchedKey (K : Type) where
  db : ℕ
  key : K
deriving DecidableEq

/-- What other commands do, as far as it matters here: `signalModifiedKey`, and a key that comes
into a dictionary or leaves it, with or without a signal. -/
inductive Action (K : Type)
  | signalModifiedKey (wk : WatchedKey K)
  | dict (wk : WatchedKey K) (present : Bool)

inductive Command (K : Type)
  | select (id : ℤ)
  | unwatch
  | flushdb
  | flushall
  | other (actions : List (Action K))

/-- The flags are `CLIENT_MULTI`, `CLIENT_DIRTY_CAS` and `CLIENT_DIRTY_EXEC`. -/
structure Client (K : Type) where
  db : ℕ
  multi : Bool
  dirtyCas : Bool
  dirtyExec : Bool
  watchedKeys : List (WatchedKey K)
  commands : List (Command K)

def createClient : Client K := ⟨0, false, false, false, [], []⟩

/-- The tables `watched_keys` of all databases, and the keys that are in `dict`. -/
structure Server (C K : Type) where
  clients : C → Client K
  watchedKeys : WatchedKey K → Option (List C)
  dict : WatchedKey K → Bool

def Server.start (dict : WatchedKey K → Bool) : Server C K := ⟨fun _ => createClient, fun _ => none, dict⟩

def Server.setClient (s : Server C K) (c : C) (f : Client K → Client K) : Server C K :=
  { s with clients := Function.update s.clients c (f (s.clients c)) }

/-! ### Watching -/

def watchForKey (c : C) (s : Server C K) (key : K) : Server C K :=
  let wk : WatchedKey K := ⟨(s.clients c).db, key⟩
  if wk ∈ (s.clients c).watchedKeys then s
  else
    { s.setClient c (fun cl => { cl with watchedKeys := cl.watchedKeys ++ [wk] }) with
      watchedKeys := Function.update s.watchedKeys wk (some ((s.watchedKeys wk).getD [] ++ [c])) }

/-- The loop of `unwatchAllKeys`. The server ends at the assertion when the key has no list, and
in `listDelNode` when the client is not in it. -/
def unwatchLoop (c : C) : List (WatchedKey K) → Server C K → Option (Server C K)
  | [], s => some s
  | wk :: wks, s =>
    match s.watchedKeys wk with
    | none => none
    | some clients =>
      if c ∈ clients then
        unwatchLoop c wks
          { s.setClient c (fun cl => { cl with watchedKeys := wks }) with
            watchedKeys := Function.update s.watchedKeys wk
              (if clients.erase c = [] then none else some (clients.erase c)) }
      else none

def unwatchAllKeys (c : C) (s : Server C K) : Option (Server C K) := unwatchLoop c (s.clients c).watchedKeys s

def touchWatchedKey (s : Server C K) (wk : WatchedKey K) : Server C K :=
  ((s.watchedKeys wk).getD []).foldl (fun s c => s.setClient c fun cl => { cl with dirtyCas := true }) s

/-- The database that is flushed, or all of them with the argument -1. -/
def Flushes (dbid : Option ℕ) (wk : WatchedKey K) : Prop := dbid = none ∨ dbid = some wk.db

instance (dbid : Option ℕ) (wk : WatchedKey K) : Decidable (Flushes dbid wk) :=
  inferInstanceAs (Decidable (_ ∨ _))

def touchWatchedKeysOnFlush (dbid : Option ℕ) (s : Server C K) : Server C K :=
  { s with
    clients := fun c =>
      if ∃ wk ∈ (s.clients c).watchedKeys, Flushes dbid wk ∧ s.dict wk = true then
        { s.clients c with dirtyCas := true }
      else s.clients c }

def emptyDb (dbid : Option ℕ) (s : Server C K) : Server C K :=
  { s with dict := fun wk => if Flushes dbid wk then false else s.dict wk }

/-! ### Commands -/

def Action.exec (s : Server C K) : Action K → Server C K
  | .signalModifiedKey wk => touchWatchedKey s wk
  | .dict wk present => { s with dict := Function.update s.dict wk present }

/-- `selectDb` on a server with `dbnum` databases. -/
def selectDb (dbnum : ℕ) (c : C) (id : ℤ) (s : Server C K) : Server C K :=
  if id < 0 ∨ id ≥ dbnum then s else s.setClient c fun cl => { cl with db := id.toNat }

/-- `call` -/
def Command.call (dbnum : ℕ) (c : C) (s : Server C K) : Command K → Option (Server C K)
  | .select id => some (selectDb dbnum c id s)
  | .unwatch => (unwatchAllKeys c s).map fun s => s.setClient c fun cl => { cl with dirtyCas := false }
  | .flushdb => some (emptyDb (some (s.clients c).db) (touchWatchedKeysOnFlush (some (s.clients c).db) s))
  | .flushall => some (emptyDb none (touchWatchedKeysOnFlush none s))
  | .other actions => some (actions.foldl Action.exec s)

inductive TxReply
  | ok
  | queued
  | error (text : String)
  | execaborterr
  | nullmultibulk
  | multibulk (count : ℕ)
  | command
deriving DecidableEq

def queueMultiCommand (c : C) (cmd : Command K) (s : Server C K) : Server C K :=
  s.setClient c fun cl => { cl with commands := cl.commands ++ [cmd] }

def discardTransaction (c : C) (s : Server C K) : Option (Server C K) :=
  unwatchAllKeys c (s.setClient c fun cl =>
    { cl with commands := [], multi := false, dirtyCas := false, dirtyExec := false })

def flagTransaction (c : C) (s : Server C K) : Server C K :=
  if (s.clients c).multi then s.setClient c fun cl => { cl with dirtyExec := true } else s

def multiCommand (c : C) (s : Server C K) : Server C K × TxReply :=
  if (s.clients c).multi then (s, .error "MULTI calls can not be nested")
  else (s.setClient c fun cl => { cl with multi := true }, .ok)

def discardCommand (c : C) (s : Server C K) : Option (Server C K × TxReply) :=
  if (s.clients c).multi then (discardTransaction c s).map (·, .ok) else some (s, .error "DISCARD without MULTI")

def watchCommand (c : C) (keys : List K) (s : Server C K) : Server C K × TxReply :=
  if (s.clients c).multi then (s, .error "WATCH inside MULTI is not allowed")
  else (keys.foldl (watchForKey c) s, .ok)

def callAll (dbnum : ℕ) (c : C) : List (Command K) → Server C K → Option (Server C K)
  | [], s => some s
  | cmd :: cmds, s => (cmd.call dbnum c s).bind (callAll dbnum c cmds)

def execCommand (dbnum : ℕ) (c : C) (s : Server C K) : Option (Server C K × TxReply) :=
  if ¬ (s.clients c).multi then some (s, .error "EXEC without MULTI")
  else if (s.clients c).dirtyCas ∨ (s.clients c).dirtyExec then
    (discardTransaction c s).map (·, if (s.clients c).dirtyExec then .execaborterr else .nullmultibulk)
  else
    (unwatchAllKeys c s).bind fun s1 =>
      (callAll dbnum c (s.clients c).commands s1).bind fun s2 =>
        (discardTransaction c s2).map (·, .multibulk (s.clients c).commands.length)

/-- What a client sends; a request is refused when it names no command or has a wrong number of
arguments, for instance. -/
inductive Request (K : Type)
  | watch (keys : List K)
  | multi
  | exec
  | discard
  | command (cmd : Command K)
  | refused

def processCommand (dbnum : ℕ) (c : C) (s : Server C K) : Request K → Option (Server C K × TxReply)
  | .watch keys => some (watchCommand c keys s)
  | .multi => some (multiCommand c s)
  | .exec => execCommand dbnum c s
  | .discard => discardCommand c s
  | .command cmd =>
    if (s.clients c).multi then some (queueMultiCommand c cmd s, .queued)
    else (cmd.call dbnum c s).map (·, .command)
  | .refused => some (flagTransaction c s, .error "ERR")

/-- What `freeClient` does to the tables. Another client may then be created in its place. -/
def freeClient (c : C) (s : Server C K) : Option (Server C K) :=
  (unwatchAllKeys c s).map fun s => s.setClient c fun _ => createClient

inductive Event (C K : Type)
  | request (c : C) (r : Request K)
  | disconnect (c : C)

def Event.exec (dbnum : ℕ) (s : Server C K) : Event C K → Option (Server C K)
  | .request c r => (processCommand dbnum c s r).map Prod.fst
  | .disconnect c => freeClient c s

/-! ### What was watched and touched -/

/-- What happens to the watches in the course of a run: a key comes to be watched, a client gives
all its watches up by `UNWATCH` or at the beginning of its `EXEC`, a transaction or a connection
ends, a key is signalled, databases that hold the keys `dict` are flushed, and a command is refused
inside a transaction. -/
inductive Mark (C K : Type)
  | watched (c : C) (wk : WatchedKey K)
  | unwatched (c : C)
  | ended (c : C)
  | signalled (wk : WatchedKey K)
  | flushed (dbid : Option ℕ) (dict : WatchedKey K → Bool)
  | refused (c : C)

def Mark.Ends (c : C) (m : Mark C K) : Prop := m = .unwatched c ∨ m = .ended c

/-- The key is signalled, or it exists when its database is flushed. -/
def Mark.Touches (wk : WatchedKey K) : Mark C K → Prop
  | .signalled wk' => wk' = wk
  | .flushed dbid dict => Flushes dbid wk ∧ dict wk = true
  | _ => False

def Watching (c : C) (wk : WatchedKey K) (T : List (Mark C K)) : Prop := Since.Open (· = .watched c wk) (Mark.Ends c) T

def Touched (c : C) (T : List (Mark C K)) : Prop :=
  ∃ wk, Since.Hit (· = .watched c wk) (Mark.Ends c) (Mark.Touches wk) T

def Refused (c : C) (T : List (Mark C K)) : Prop := Since.Open (· = .refused c) (· = .ended c) T

def Action.marks : Action K → List (Mark C K)
  | .signalModifiedKey wk => [.signalled wk]
  | .dict _ _ => []

def Command.marks (c : C) (s : Server C K) : Command K → List (Mark C K)
  | .select _ => []
  | .unwatch => [.unwatched c]
  | .flushdb => [.flushed (some (s.clients c).db) s.dict]
  | .flushall => [.flushed none s.dict]
  | .other actions => actions.flatMap Action.marks

def queueMarks (dbnum : ℕ) (c : C) : List (Command K) → Server C K → List (Mark C K)
  | [], _ => []
  | cmd :: cmds, s => cmd.marks c s ++ (cmd.call dbnum c s).elim [] (queueMarks dbnum c cmds)

def execMarks (dbnum : ℕ) (c : C) (s : Server C K) : List (Mark C K) :=
  if ¬ (s.clients c).multi then []
  else if (s.clients c).dirtyCas ∨ (s.clients c).dirtyExec then [.ended c]
  else .unwatched c :: (unwatchAllKeys c s).elim [] (queueMarks dbnum c (s.clients c).commands) ++ [.ended c]

def Request.marks (dbnum : ℕ) (c : C) (s : Server C K) : Request K → List (Mark C K)
  | .watch keys => if (s.clients c).multi then [] else keys.map fun key => .watched c ⟨(s.clients c).db, key⟩
  | .multi => []
  | .exec => execMarks dbnum c s
  | .discard => if (s.clients c).multi then [.ended c] else []
  | .command cmd => if (s.clients c).multi then [] else cmd.marks c s
  | .refused => if (s.clients c).multi then [.refused c] else []

def Event.marks (dbnum : ℕ) (s : Server C K) : Event C K → List (Mark C K)
  | .request c r => r.marks dbnum c s
  | .disconnect c => [.ended c]

/-- A server that has ended stays so. -/
def step (dbnum : ℕ) (e : Event C K) : Option (Server C K) → Option (Server C K) × List (Mark C K)
  | none => (none, [])
  | some s => (e.exec dbnum s, e.marks dbnum s)

/-- The server after some events, and what happened to the watches. -/
def run (dbnum : ℕ) (dict : WatchedKey K → Bool) (es : List (Event C K)) : Option (Server C K) × List (Mark C K) :=
  Machine.run (step dbnum) es (some (.start dict))

end RedisIR.Watch
