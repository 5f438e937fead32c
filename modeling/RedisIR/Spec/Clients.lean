import RedisIR.Lib.CLib

/-! The databases as several clients use them: the keys of each database (`db.c`), the clients
that are blocked on a list (`blocked.c`) and those that watch a key (`multi.c`). Keys do not
expire, and the cluster mode is off. -/

namespace RedisIR.Clients

open CLib

abbrev Key := Bytes
abbrev ClientId := ℕ

/-- A server has `n + 1` databases. -/
abbrev DbId (n : ℕ) := Fin (n + 1)

/-- `LIST_HEAD` and `LIST_TAIL`. -/
inductive Side
  | head
  | tail
deriving DecidableEq, Repr

inductive OtherType
  | zset
  | hash
  | stream
  | module
deriving DecidableEq, Repr

inductive Value
  | string (s : Bytes)
  | list (l : List Bytes)
  | set (members : List Bytes)
  | other (type : OtherType) (data : Bytes)
deriving DecidableEq, Repr

def Value.isList : Value → Bool
  | .list _ => true
  | _ => false

/-- `db->dict` -/
abbrev Dict := AList (fun _ : Key => Value)

/-- A table of clients, as `db->blocking_keys` and `db->watched_keys` are. -/
abbrev ClientTable := AList (fun _ : Key => List ClientId)

def listTypePush (side : Side) (v : Bytes) (l : List Bytes) : List Bytes :=
  match side with
  | .head => v :: l
  | .tail => l ++ [v]

def listTypePop (side : Side) (l : List Bytes) : Option (Bytes × List Bytes) :=
  match side with
  | .head => l.head?.map (·, l.tail)
  | .tail => l.getLast?.map (·, l.dropLast)

/-- `listDelNode` of what `listSearchKey` has found, which is a null pointer when the element is
not there. -/
def listDelNode {α : Type} [DecidableEq α] (x : α) : List α → Option (List α)
  | [] => none
  | y :: ys => if y = x then some ys else (listDelNode x ys).map (y :: ·)

inductive SetFlag
  | none
  | nx
  | xx
deriving DecidableEq

/-- Commands with their arguments. The options of `SORT` are what they make of the value, with the
keys of the database at hand for `BY` and `GET`: the elements to store, or none at all when a score
is not a number. -/
inductive Command
  | push (side : Side) (key : Key) (values : List Bytes)
  | pushx (side : Side) (key : Key) (values : List Bytes)
  | pop (side : Side) (key : Key)
  | rpoplpush (src dst : Key)
  | bpop (side : Side) (key : Key) (keys : List Key)
  | brpoplpush (src dst : Key)
  | set (flag : SetFlag) (key : Key) (value : Bytes)
  | append (key : Key) (value : Bytes)
  | sadd (key : Key) (member : Bytes) (members : List Bytes)
  | srem (key : Key) (members : List Bytes)
  | del (keys : List Key)
  | rename (nx : Bool) (src dst : Key)
  | move (key : Key) (dbid : ℤ)
  | swapdb (id1 id2 : ℤ)
  | sort (key : Key) (options : Dict → Value → Option (List Bytes)) (storekey : Key)
  | flushdb
  | flushall
  | select (id : ℤ)
  | unwatch

inductive Reply
  | ok
  | queued
  | czero
  | cone
  | nullbulk
  | nullmultibulk
  | longLong (n : ℕ)
  | bulk (b : Bytes)
  | keyAndBulk (key : Key) (b : Bytes)
  | multiBulkLen (count : ℕ)
  | wrongtypeerr
  | nokeyerr
  | outofrangeerr
  | sameobjecterr
  | execaborterr
  | error (text : String)
deriving DecidableEq

/-- What a client sends; a request is refused when it names no command or has a wrong number of
arguments, for instance. -/
inductive Request
  | watch (keys : List Key)
  | multi
  | exec
  | discard
  | command (cmd : Command)
  | refused

/-- The flags are `CLIENT_MULTI`, `CLIENT_DIRTY_CAS`, `CLIENT_DIRTY_EXEC` and `CLIENT_BLOCKED`; a
blocked client is one of `BLOCKED_LIST`. -/
structure Client (n : ℕ) where
  db : DbId n
  multi : Bool
  dirtyCas : Bool
  dirtyExec : Bool
  commands : List Command
  watchedKeys : List (DbId n × Key)
  lastcmd : Option Request
  blocked : Bool
  bpopKeys : AList (fun _ : Key => Unit)
  bpopTarget : Option Key

def createClient {n : ℕ} : Client n := ⟨0, false, false, false, [], [], none, false, ∅, none⟩

/-- What `propagate` is called with. -/
inductive Propagated
  | multi
  | exec
  | command (cmd : Command)

/-- What has happened, for the sake of statements about whole runs: no function reads it. A push
is one of `LPUSH` and its like, `returned` are the elements that a popping command gave to a client
without pushing them elsewhere, `removed` those of lists that `DEL` deleted. -/
inductive Event (n : ℕ)
  | pushed (values : List Bytes)
  | returned (value : Bytes)
  | removed (values : List Bytes)
  | blocked (c : ClientId) (d : DbId n) (keys : List Key)
  | served (c : ClientId) (d : DbId n) (key : Key)
  | released (c : ClientId)
  | overwritten (d : DbId n) (key : Key) (awaited : Bool) (old val : Value)
  | moved (key : Key) (src dst : DbId n)
  | swapped (d1 d2 : DbId n)
deriving DecidableEq

/-- The tables of all databases are fields of their own; `dbReadyKeys` is `db->ready_keys`, and
`readyKeys` the list `server.ready_keys`. -/
structure Server (n : ℕ) where
  dict : DbId n → Dict
  blockingKeys : DbId n → ClientTable
  dbReadyKeys : DbId n → AList (fun _ : Key => Unit)
  watchedKeys : DbId n → ClientTable
  clients : ClientId → Client n
  readyKeys : List (DbId n × Key)
  blockedClients : ℕ
  dirty : ℕ
  replies : List (ClientId × Reply)
  propagated : List (DbId n × Propagated)
  history : List (Event n)

variable {n : ℕ}

def Server.start (dict : DbId n → Dict) : Server n :=
  ⟨dict, fun _ => ∅, fun _ => ∅, fun _ => ∅, fun _ => createClient, [], 0, 0, [], [], []⟩

namespace Server

def setClient (s : Server n) (c : ClientId) (f : Client n → Client n) : Server n :=
  { s with clients := Function.update s.clients c (f (s.clients c)) }

def setDict (s : Server n) (d : DbId n) (f : Dict → Dict) : Server n :=
  { s with dict := Function.update s.dict d (f (s.dict d)) }

def store (d : DbId n) (key : Key) (val : Value) (s : Server n) : Server n :=
  s.setDict d (AList.insert key val)

def addReply (c : ClientId) (r : Reply) (s : Server n) : Server n := { s with replies := s.replies ++ [(c, r)] }

def addDirty (k : ℕ) (s : Server n) : Server n := { s with dirty := s.dirty + k }

def propagate (d : DbId n) (p : Propagated) (s : Server n) : Server n :=
  { s with propagated := s.propagated ++ [(d, p)] }

def record (e : Event n) (s : Server n) : Server n := { s with history := s.history ++ [e] }

/-- `lookupKeyWrite`, and `lookupKeyRead` as well. -/
def lookupKey (s : Server n) (d : DbId n) (key : Key) : Option Value := (s.dict d).lookup key

end Server

open Server

/-! ### `blocked.c`: keys that are ready -/

def signalKeyAsReady (d : DbId n) (key : Key) (s : Server n) : Server n :=
  match (s.blockingKeys d).lookup key with
  | none => s
  | some _ =>
    match (s.dbReadyKeys d).lookup key with
    | some _ => s
    | none =>
      { s with
        readyKeys := s.readyKeys ++ [(d, key)]
        dbReadyKeys := Function.update s.dbReadyKeys d ((s.dbReadyKeys d).insert key ()) }

/-! ### `multi.c`: watched keys -/

def touchWatchedKey (d : DbId n) (key : Key) (s : Server n) : Server n :=
  (((s.watchedKeys d).lookup key).getD []).foldl
    (fun s c => s.setClient c fun cl => { cl with dirtyCas := true }) s

def signalModifiedKey (d : DbId n) (key : Key) (s : Server n) : Server n := touchWatchedKey d key s

def Flushes (dbid : Option (DbId n)) (d : DbId n) : Bool :=
  match dbid with
  | none => true
  | some d' => decide (d' = d)

def touchWatchedKeysOnFlush (dbid : Option (DbId n)) (s : Server n) : Server n :=
  { s with
    clients := fun c =>
      if (s.clients c).watchedKeys.any fun wk => Flushes dbid wk.1 && (s.lookupKey wk.1 wk.2).isSome then
        { s.clients c with dirtyCas := true }
      else s.clients c }

def watchForKey (c : ClientId) (s : Server n) (key : Key) : Server n :=
  let d := (s.clients c).db
  match listDelNode (d, key) (s.clients c).watchedKeys with
  | some _ => s
  | none =>
    { s.setClient c (fun cl => { cl with watchedKeys := cl.watchedKeys ++ [(d, key)] }) with
      watchedKeys := Function.update s.watchedKeys d
        ((s.watchedKeys d).insert key ((((s.watchedKeys d).lookup key).getD []) ++ [c])) }

/-- A client leaves the list of a key; a list that becomes empty leaves the table. The server ends
when the key has no list, or the client is not in it. -/
def ClientTable.leave (c : ClientId) (t : ClientTable) (key : Key) : Option ClientTable :=
  match t.lookup key with
  | none => none
  | some l =>
    match listDelNode c l with
    | none => none
    | some [] => some (t.erase key)
    | some (x :: l') => some (t.insert key (x :: l'))

/-- The loop of `unwatchAllKeys`. -/
def unwatchLoop (c : ClientId) : List (DbId n × Key) → Server n → Option (Server n)
  | [], s => some s
  | wk :: wks, s =>
    match ClientTable.leave c (s.watchedKeys wk.1) wk.2 with
    | none => none
    | some t =>
      unwatchLoop c wks
        { s.setClient c (fun cl => { cl with watchedKeys := wks }) with
          watchedKeys := Function.update s.watchedKeys wk.1 t }

def unwatchAllKeys (c : ClientId) (s : Server n) : Option (Server n) :=
  unwatchLoop c (s.clients c).watchedKeys s

/-! ### `db.c`: the keys of a database -/

/-- The callers have seen that the key is absent, so `dictAdd` succeeds. -/
def dbAdd (d : DbId n) (key : Key) (val : Value) (s : Server n) : Server n :=
  match val with
  | .list _ | .other .zset _ => signalKeyAsReady d key (s.store d key val)
  | _ => s.store d key val

def dbOverwrite (d : DbId n) (key : Key) (old val : Value) (s : Server n) : Server n :=
  (s.store d key val).record
    (.overwritten d key ((s.blockingKeys d).lookup key).isSome old val)

def setKey (d : DbId n) (key : Key) (val : Value) (s : Server n) : Server n :=
  match s.lookupKey d key with
  | none => signalModifiedKey d key (dbAdd d key val s)
  | some old => signalModifiedKey d key (dbOverwrite d key old val s)

def dbDelete (d : DbId n) (key : Key) (s : Server n) : Server n := s.setDict d (AList.erase key)

/-- `emptyDb` without or with a number. -/
def emptyDb (dbid : Option (DbId n)) (s : Server n) : Server n :=
  { s with dict := fun d => if Flushes dbid d then ∅ else s.dict d }

theorem toNat_lt_dbnum {id : ℤ} (h : 0 ≤ id ∧ id < n + 1) : id.toNat < n + 1 := by omega

def selectDb (id : ℤ) : Option (DbId n) :=
  if h : 0 ≤ id ∧ id < n + 1 then some ⟨id.toNat, toNat_lt_dbnum h⟩ else none

/-! ### `blocked.c`: blocking and unblocking -/

/-- The loop of `blockForKeys`: a key that is given twice counts once. -/
def blockLoop (c : ClientId) : List Key → Server n → Server n
  | [], s => s
  | key :: keys, s =>
    match (s.clients c).bpopKeys.lookup key with
    | some _ => blockLoop c keys s
    | none =>
      let d := (s.clients c).db
      blockLoop c keys
        { s.setClient c (fun cl => { cl with bpopKeys := cl.bpopKeys.insert key () }) with
          blockingKeys := Function.update s.blockingKeys d
            ((s.blockingKeys d).insert key ((((s.blockingKeys d).lookup key).getD []) ++ [c])) }

/-- `blockForKeys`, with what `blockClient` does. -/
def blockForKeys (c : ClientId) (keys : List Key) (target : Option Key) (s : Server n) : Server n :=
  let s' := blockLoop c keys (s.setClient c fun cl => { cl with bpopTarget := target })
  { s'.setClient c (fun cl => { cl with blocked := true }) with
    blockedClients := s'.blockedClients + 1
    history := s'.history ++ [.blocked c (s.clients c).db keys] }

/-- The loop of `unblockClientWaitingData`. -/
def unblockLoop (c : ClientId) : List Key → Server n → Option (Server n)
  | [], s => some s
  | key :: keys, s =>
    let d := (s.clients c).db
    match ClientTable.leave c (s.blockingKeys d) key with
    | none => none
    | some t => unblockLoop c keys { s with blockingKeys := Function.update s.blockingKeys d t }

def unblockClientWaitingData (c : ClientId) (s : Server n) : Option (Server n) :=
  if (s.clients c).bpopKeys.keys = [] then none
  else
    (unblockLoop c (s.clients c).bpopKeys.keys s).map fun s =>
      s.setClient c fun cl => { cl with bpopKeys := ∅, bpopTarget := none }

def unblockClient (c : ClientId) (s : Server n) : Option (Server n) :=
  (unblockClientWaitingData c s).map fun s =>
    { s.setClient c (fun cl => { cl with blocked := false }) with blockedClients := s.blockedClients - 1 }

/-! ### Serving blocked clients -/

/-- `rpoplpushHandlePush` -/
def rpoplpushHandlePush (c : ClientId) (dstkey : Key) (dstobj : Option (List Bytes)) (value : Bytes) (s : Server n) :
    Server n :=
  let d := (s.clients c).db
  let s1 := match dstobj with
    | none => dbAdd d dstkey (.list []) s
    | some _ => s
  ((signalModifiedKey d dstkey s1).store d dstkey (.list (listTypePush .head value (dstobj.getD [])))).addReply c
    (.bulk value)

/-- `serveClientBlockedOnList`; the second component is `C_OK`. The client `receiver` is blocked in
the database of the key. -/
def serveClientBlockedOnList (receiver : ClientId) (key : Key) (dstkey : Option Key) (d : DbId n) (value : Bytes)
    (side : Side) (s : Server n) : Server n × Bool :=
  match dstkey with
  | none =>
    (((s.propagate d (.command (.pop side key))).addReply receiver (.keyAndBulk key value)).record
      (.returned value), true)
  | some dst =>
    let push (dstobj : Option (List Bytes)) : Server n :=
      (rpoplpushHandlePush receiver dst dstobj value (s.propagate d (.command (.pop .tail key)))).propagate d
        (.command (.push .head dst [value]))
    match s.lookupKey (s.clients receiver).db dst with
    | none => (push none, true)
    | some (.list l) => (push (some l), true)
    | some _ => (s.addReply receiver .wrongtypeerr, false)

/-- `lastcmd->proc == blpopCommand` -/
def popSide (lastcmd : Option Request) : Side :=
  match lastcmd with
  | some (.command (.bpop .head _ _)) => .head
  | _ => .tail

/-- The element is given to the client, or goes back to the list `l` when that fails. -/
def serveOrUndo (receiver : ClientId) (key : Key) (dstkey : Option Key) (d : DbId n) (value : Bytes) (side : Side)
    (l : List Bytes) (s : Server n) : Server n :=
  let served := serveClientBlockedOnList receiver key dstkey d value side s
  if served.2 then served.1 else served.1.store d key (.list (listTypePush side value l))

/-- The client at the front of the list of a key is given an element: `none` for the client that
is missing, and `false` when there is no element. -/
def serveFirst (d : DbId n) (key : Key) (s : Server n) : Option (Server n × Bool) :=
  match (s.blockingKeys d).lookup key with
  | none | some [] => none
  | some (receiver :: _) =>
    match s.lookupKey d key with
    | some (.list l) =>
      let side := popSide (s.clients receiver).lastcmd
      match listTypePop side l with
      | none => some (s, false)
      | some (value, l') =>
        (unblockClient receiver (s.store d key (.list l'))).map fun s1 =>
          (serveOrUndo receiver key (s.clients receiver).bpopTarget d value side l'
            (s1.record (.served receiver d key)), true)
    | _ => none

/-- The loop over the clients that are blocked on a key that holds a list. -/
def serveLoop (d : DbId n) (key : Key) : ℕ → Server n → Option (Server n)
  | 0, s => some s
  | numclients + 1, s =>
    match serveFirst d key s with
    | none => none
    | some (s', true) => serveLoop d key numclients s'
    | some (s', false) => some s'

/-- What is done for one key of the list of ready keys. Clients that are blocked on lists stay in
their order when the key holds a sorted set: all of them are moved to the end, one after the other. -/
def serveKey (d : DbId n) (key : Key) (s : Server n) : Option (Server n) :=
  let s0 := { s with dbReadyKeys := Function.update s.dbReadyKeys d ((s.dbReadyKeys d).erase key) }
  match s0.lookupKey d key with
  | some (.list _) =>
    (serveLoop d key (((s0.blockingKeys d).lookup key).getD []).length s0).map fun s =>
      match s.lookupKey d key with
      | some (.list []) => dbDelete d key s
      | _ => s
  | _ => some s0

/-- The inner loop, over the list that was taken from the server. -/
def serveKeys : List (DbId n × Key) → Server n → Option (Server n)
  | [], s => some s
  | (d, key) :: l, s => (serveKey d key s).bind (serveKeys l)

/-- The outer loop. Each round but the last unblocks a client, so `blockedClients + 1` rounds are
enough. -/
def handleLoop : ℕ → Server n → Option (Server n)
  | fuel, s =>
    if s.readyKeys = [] then some s
    else
      match fuel with
      | 0 => none
      | fuel + 1 => (serveKeys s.readyKeys { s with readyKeys := [] }).bind (handleLoop fuel)

def handleClientsBlockedOnKeys (s : Server n) : Option (Server n) := handleLoop (s.blockedClients + 1) s

/-! ### `SWAPDB` -/

/-- The order in which an iterator goes through the keys of a table. -/
abbrev IterOrder := { order : List Key → List Key // ∀ l, (order l).Perm l }

def IterOrder.ofTable : IterOrder := ⟨id, fun l => List.Perm.refl l⟩

def Value.wakes : Value → Bool
  | .list _ | .other .stream _ | .other .zset _ => true
  | _ => false

def scanDatabaseForReadyLists (order : IterOrder) (d : DbId n) (s : Server n) : Server n :=
  (order.val (s.blockingKeys d).keys).foldl
    (fun s key => if ((s.lookupKey d key).map Value.wakes).getD false then signalKeyAsReady d key s else s) s

/-- The second component is `C_OK`. -/
def dbSwapDatabases (order : IterOrder) (id1 id2 : ℤ) (s : Server n) : Server n × Bool :=
  match (selectDb id1 : Option (DbId n)), (selectDb id2 : Option (DbId n)) with
  | some d1, some d2 =>
    if d1 = d2 then (s, true)
    else
      let s1 := { s with dict := Function.update (Function.update s.dict d1 (s.dict d2)) d2 (s.dict d1) }
      (scanDatabaseForReadyLists order d2 (scanDatabaseForReadyLists order d1 (s1.record (.swapped d1 d2))), true)
  | _, _ => (s, false)

end RedisIR.Clients
