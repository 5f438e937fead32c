import RedisIR.Spec.Clients

/-! The commands on the databases that several clients use (`t_list.c`, `t_string.c`, `t_set.c`,
`db.c`, `sort.c`), transactions, and runs of the server. -/

namespace RedisIR.Clients

open CLib Server

variable {n : ℕ}

/-! ### Lists -/

def pushAll (side : Side) (l values : List Bytes) : List Bytes :=
  values.foldl (fun l v => listTypePush side v l) l

/-- The end of both kinds of push, for a list that is in the dictionary. -/
def pushValues (c : ClientId) (side : Side) (key : Key) (values l : List Bytes) (s : Server n) : Server n :=
  let d := (s.clients c).db
  let s1 := (s.store d key (.list (pushAll side l values))).addReply c (.longLong (l.length + values.length))
  match values with
  | [] => s1
  | _ :: _ => ((signalModifiedKey d key s1).addDirty values.length).record (.pushed values)

/-- `LPUSH` and `RPUSH` have an element at least, so the list is created. -/
def pushGenericCommand (c : ClientId) (side : Side) (key : Key) (values : List Bytes) (s : Server n) : Server n :=
  let d := (s.clients c).db
  match s.lookupKey d key, values with
  | some (.list l), _ => pushValues c side key values l s
  | some _, _ => s.addReply c .wrongtypeerr
  | none, [] => s.addReply c (.longLong 0)
  | none, _ :: _ => pushValues c side key values [] (dbAdd d key (.list []) s)

def pushxGenericCommand (c : ClientId) (side : Side) (key : Key) (values : List Bytes) (s : Server n) : Server n :=
  match s.lookupKey (s.clients c).db key with
  | none => s.addReply c .czero
  | some (.list l) => pushValues c side key values l s
  | some _ => s.addReply c .wrongtypeerr

/-- The list that is left after a pop, which is deleted when it is empty. -/
def storeRest (d : DbId n) (key : Key) (l : List Bytes) (s : Server n) : Server n :=
  match l with
  | [] => dbDelete d key s
  | x :: l => s.store d key (.list (x :: l))

def popGenericCommand (c : ClientId) (side : Side) (key : Key) (s : Server n) : Server n :=
  let d := (s.clients c).db
  match s.lookupKey d key with
  | none => s.addReply c .nullbulk
  | some (.list l) =>
    match listTypePop side l with
    | none => s.addReply c .nullbulk
    | some (value, l') =>
      ((signalModifiedKey d key (storeRest d key l' (s.addReply c (.bulk value)))).addDirty 1).record (.returned value)
  | some _ => s.addReply c .wrongtypeerr

/-- The end of `rpoplpushCommand`: the source is deleted when it is empty. -/
def rpopFinish (c : ClientId) (src : Key) (s : Server n) : Server n :=
  let d := (s.clients c).db
  let s1 := match s.lookupKey d src with
    | some (.list []) => dbDelete d src s
    | _ => s
  (signalModifiedKey d src s1).addDirty 1

def rpoplpushCommand (c : ClientId) (src dst : Key) (s : Server n) : Server n :=
  let d := (s.clients c).db
  match s.lookupKey d src with
  | none => s.addReply c .nullbulk
  | some (.list l) =>
    match listTypePop .tail l with
    | none => s.addReply c .nullbulk
    | some (value, l') =>
      -- the destination may be the source itself, which has lost its element already
      match s.lookupKey d dst with
      | none => rpopFinish c src (rpoplpushHandlePush c dst none value (s.store d src (.list l')))
      | some (.list m) =>
        rpopFinish c src
          (rpoplpushHandlePush c dst (some (if dst = src then l' else m)) value (s.store d src (.list l')))
      | some _ => s.addReply c .wrongtypeerr
  | some _ => s.addReply c .wrongtypeerr

/-- The loop of `blockingPopGenericCommand` over the keys: the server after it and the key that was
popped when the command is done. -/
def bpopLoop (c : ClientId) (side : Side) : List Key → Server n → Option (Server n × Option Key)
  | [], _ => none
  | key :: keys, s =>
    let d := (s.clients c).db
    match s.lookupKey d key with
    | none => bpopLoop c side keys s
    | some (.list l) =>
      match listTypePop side l with
      | none => bpopLoop c side keys s
      | some (value, l') =>
        some (((signalModifiedKey d key (storeRest d key l' (s.addReply c (.keyAndBulk key value)))).addDirty 1).record
          (.returned value), some key)
    | some _ => some (s.addReply c .wrongtypeerr, none)

/-- The command that the client has in the end is `LPOP` or `RPOP` if something was popped. -/
def blockingPopGenericCommand (c : ClientId) (side : Side) (key : Key) (keys : List Key) (s : Server n) :
    Server n × Command :=
  match bpopLoop c side (key :: keys) s with
  | some (s', some popped) => (s', .pop side popped)
  | some (s', none) => (s', .bpop side key keys)
  | none =>
    if (s.clients c).multi then (s.addReply c .nullmultibulk, .bpop side key keys)
    else (blockForKeys c (key :: keys) none s, .bpop side key keys)

/-- The server ends at the assertion when the list is empty. -/
def brpoplpushCommand (c : ClientId) (src dst : Key) (s : Server n) : Option (Server n × Command) :=
  match s.lookupKey (s.clients c).db src with
  | none =>
    if (s.clients c).multi then some (s.addReply c .nullbulk, .brpoplpush src dst)
    else some (blockForKeys c [src] (some dst) s, .brpoplpush src dst)
  | some (.list []) => none
  | some (.list (_ :: _)) =>
    let s' := rpoplpushCommand c src dst s
    -- the vector is rewritten together with the change
    if s'.dirty = s.dirty then some (s', .brpoplpush src dst) else some (s', .rpoplpush src dst)
  | some _ => some (s.addReply c .wrongtypeerr, .brpoplpush src dst)

/-! ### Strings and sets -/

def setGenericCommand (c : ClientId) (flag : SetFlag) (key : Key) (value : Bytes) (s : Server n) : Server n :=
  let d := (s.clients c).db
  match flag, s.lookupKey d key with
  | .nx, some _ => s.addReply c .nullbulk
  | .xx, none => s.addReply c .nullbulk
  | _, _ => ((setKey d key (.string value) s).addDirty 1).addReply c .ok

def appendCommand (c : ClientId) (key : Key) (value : Bytes) (s : Server n) : Server n :=
  let d := (s.clients c).db
  match s.lookupKey d key with
  | none =>
    ((signalModifiedKey d key (dbAdd d key (.string value) s)).addDirty 1).addReply c (.longLong value.length)
  | some (.string old) =>
    if old.length + value.length ≤ 512 * 1024 * 1024 then
      ((signalModifiedKey d key (s.store d key (.string (old ++ value)))).addDirty 1).addReply c
        (.longLong (old.length + value.length))
    else s.addReply c (.error "string exceeds maximum allowed size (512MB)")
  | some _ => s.addReply c .wrongtypeerr

/-- `setTypeAdd`: the set, and whether the member is new. -/
def setTypeAdd (m : Bytes) (set : List Bytes) : List Bytes × Bool :=
  match listDelNode m set with
  | some _ => (set, false)
  | none => (set ++ [m], true)

/-- The loop of `saddCommand`: the set, and how many members are new. -/
def addMembers (set : List Bytes) : List Bytes → List Bytes × ℕ
  | [] => (set, 0)
  | m :: ms =>
    let r := addMembers (setTypeAdd m set).1 ms
    (r.1, r.2 + if (setTypeAdd m set).2 then 1 else 0)

def saddMembers (c : ClientId) (key : Key) (set members : List Bytes) (s : Server n) : Server n :=
  let d := (s.clients c).db
  let r := addMembers set members
  let s1 := s.store d key (.set r.1)
  ((if r.2 = 0 then s1 else signalModifiedKey d key s1).addDirty r.2).addReply c (.longLong r.2)

def saddCommand (c : ClientId) (key : Key) (member : Bytes) (members : List Bytes) (s : Server n) : Server n :=
  let d := (s.clients c).db
  match s.lookupKey d key with
  | none => saddMembers c key [] (member :: members) (dbAdd d key (.set []) s)
  | some (.set set) => saddMembers c key set (member :: members) s
  | some _ => s.addReply c .wrongtypeerr

/-- The loop of `sremCommand`, which stops when the set is empty: the set, and how many members
were removed. -/
def removeMembers (set : List Bytes) : List Bytes → List Bytes × ℕ
  | [] => (set, 0)
  | m :: ms =>
    match listDelNode m set with
    | none => removeMembers set ms
    | some [] => ([], 1)
    | some (x :: set') =>
      let r := removeMembers (x :: set') ms
      (r.1, r.2 + 1)

def sremCommand (c : ClientId) (key : Key) (members : List Bytes) (s : Server n) : Server n :=
  let d := (s.clients c).db
  match s.lookupKey d key with
  | none => s.addReply c .czero
  | some (.set set) =>
    let r := removeMembers set members
    let s1 :=
      if r.2 = 0 then s
      else
        match r.1 with
        | [] => signalModifiedKey d key (dbDelete d key s)
        | x :: set' => signalModifiedKey d key (s.store d key (.set (x :: set')))
    (s1.addDirty r.2).addReply c (.longLong r.2)
  | some _ => s.addReply c .wrongtypeerr

/-! ### Keys of any type -/

/-- The elements of a list that `DEL` removes. -/
def removedElements : Value → List Bytes
  | .list l => l
  | _ => []

/-- The loop of `delGenericCommand`, with the number of keys that were deleted. -/
def delLoop (d : DbId n) : List Key → ℕ → Server n → Server n × ℕ
  | [], numdel, s => (s, numdel)
  | key :: keys, numdel, s =>
    match s.lookupKey d key with
    | none => delLoop d keys numdel s
    | some val =>
      delLoop d keys (numdel + 1)
        (((signalModifiedKey d key (dbDelete d key s)).addDirty 1).record (.removed (removedElements val)))

def delGenericCommand (c : ClientId) (keys : List Key) (s : Server n) : Server n :=
  let r := delLoop (s.clients c).db keys 0 s
  r.1.addReply c (.longLong r.2)

/-- The part of `renameGenericCommand` that does it. -/
def renameKey (d : DbId n) (src dst : Key) (val : Value) (s : Server n) : Server n :=
  (signalModifiedKey d dst (signalModifiedKey d src (dbDelete d src (dbAdd d dst val s)))).addDirty 1

def renameGenericCommand (c : ClientId) (nx : Bool) (src dst : Key) (s : Server n) : Server n :=
  let d := (s.clients c).db
  match s.lookupKey d src with
  | none => s.addReply c .nokeyerr
  | some val =>
    if src = dst then s.addReply c (if nx then .czero else .ok)
    else
      match s.lookupKey d dst with
      | none => (renameKey d src dst val s).addReply c (if nx then .cone else .ok)
      | some _ =>
        if nx then s.addReply c .czero
        else (renameKey d src dst val (dbDelete d dst s)).addReply c .ok

def moveCommand (c : ClientId) (key : Key) (dbid : ℤ) (s : Server n) : Server n :=
  let src := (s.clients c).db
  match (selectDb dbid : Option (DbId n)) with
  | none => s.addReply c .outofrangeerr
  | some dst =>
    if src = dst then s.addReply c .sameobjecterr
    else
      match s.lookupKey src key, s.lookupKey dst key with
      | none, _ => s.addReply c .czero
      | some _, some _ => s.addReply c .czero
      | some val, none =>
        (((dbDelete src key (dbAdd dst key val s)).addDirty 1).addReply c .cone).record (.moved key src dst)

def swapdbCommand (order : IterOrder) (c : ClientId) (id1 id2 : ℤ) (s : Server n) : Server n :=
  let r := dbSwapDatabases order id1 id2 s
  if r.2 then (r.1.addDirty 1).addReply c .ok else r.1.addReply c (.error "DB index is out of range")

/-- The values that `SORT` takes; an absent key counts as an empty list. -/
def sortable : Option Value → Option Value
  | none => some (.list [])
  | some (.list l) => some (.list l)
  | some (.set m) => some (.set m)
  | some (.other .zset z) => some (.other .zset z)
  | some _ => none

/-- `SORT ... STORE` -/
def sortCommand (c : ClientId) (key : Key) (options : Dict → Value → Option (List Bytes)) (storekey : Key)
    (s : Server n) : Server n :=
  let d := (s.clients c).db
  match sortable (s.lookupKey d key) with
  | none => s.addReply c .wrongtypeerr
  | some sortval =>
    match options (s.dict d) sortval with
    | none => s.addReply c (.error "One or more scores can't be converted into double")
    | some [] =>
      match s.lookupKey d storekey with
      | none => s.addReply c (.longLong 0)
      | some _ => ((signalModifiedKey d storekey (dbDelete d storekey s)).addDirty 1).addReply c (.longLong 0)
    | some (x :: l) =>
      ((setKey d storekey (.list (x :: l)) s).addDirty (l.length + 1)).addReply c (.longLong (l.length + 1))

def flushdbCommand (c : ClientId) (s : Server n) : Server n :=
  let dbid := some (s.clients c).db
  ((emptyDb dbid (touchWatchedKeysOnFlush dbid s)).addDirty (s.dict (s.clients c).db).keys.length).addReply c .ok

/-- `server.dirty` also counts the command. -/
def flushallCommand (c : ClientId) (s : Server n) : Server n :=
  ((emptyDb none (touchWatchedKeysOnFlush none s)).addDirty
    (((List.finRange (n + 1)).map fun d => (s.dict d).keys.length).sum + 1)).addReply c .ok

def selectCommand (c : ClientId) (id : ℤ) (s : Server n) : Server n :=
  match selectDb id with
  | none => s.addReply c (.error "DB index is out of range")
  | some d => (s.setClient c fun cl => { cl with db := d }).addReply c .ok

def unwatchCommand (c : ClientId) (s : Server n) : Option (Server n) :=
  (unwatchAllKeys c s).map fun s => (s.setClient c fun cl => { cl with dirtyCas := false }).addReply c .ok

/-! ### Transactions -/

/-- `c->cmd->proc(c)`, and the vector of arguments that the client has then. -/
def Command.proc (order : IterOrder) (c : ClientId) (s : Server n) (cmd : Command) : Option (Server n × Command) :=
  match cmd with
  | .push side key values => some (pushGenericCommand c side key values s, cmd)
  | .pushx side key values => some (pushxGenericCommand c side key values s, cmd)
  | .pop side key => some (popGenericCommand c side key s, cmd)
  | .rpoplpush src dst => some (rpoplpushCommand c src dst s, cmd)
  | .bpop side key keys => some (blockingPopGenericCommand c side key keys s)
  | .brpoplpush src dst => brpoplpushCommand c src dst s
  | .set flag key value => some (setGenericCommand c flag key value s, cmd)
  | .append key value => some (appendCommand c key value s, cmd)
  | .sadd key member members => some (saddCommand c key member members s, cmd)
  | .srem key members => some (sremCommand c key members s, cmd)
  | .del keys => some (delGenericCommand c keys s, cmd)
  | .rename nx src dst => some (renameGenericCommand c nx src dst s, cmd)
  | .move key dbid => some (moveCommand c key dbid s, cmd)
  | .swapdb id1 id2 => some (swapdbCommand order c id1 id2 s, cmd)
  | .sort key options storekey => some (sortCommand c key options storekey s, cmd)
  | .flushdb => some (flushdbCommand c s, cmd)
  | .flushall => some (flushallCommand c s, cmd)
  | .select id => some (selectCommand c id s, cmd)
  | .unwatch => (unwatchCommand c s).map (·, cmd)

/-- `call` of a command, which is propagated when it has changed the databases. -/
def call (order : IterOrder) (c : ClientId) (s : Server n) (cmd : Command) : Option (Server n) :=
  (cmd.proc order c s).map fun r =>
    if s.dirty < r.1.dirty then r.1.propagate (r.1.clients c).db (.command r.2) else r.1

def discardTransaction (c : ClientId) (s : Server n) : Option (Server n) :=
  unwatchAllKeys c (s.setClient c fun cl =>
    { cl with commands := [], multi := false, dirtyCas := false, dirtyExec := false })

def flagTransaction (c : ClientId) (s : Server n) : Server n :=
  if (s.clients c).multi then s.setClient c fun cl => { cl with dirtyExec := true } else s

def queueMultiCommand (c : ClientId) (cmd : Command) (s : Server n) : Server n :=
  (s.setClient c fun cl => { cl with commands := cl.commands ++ [cmd] }).addReply c .queued

def multiCommand (c : ClientId) (s : Server n) : Server n :=
  if (s.clients c).multi then s.addReply c (.error "MULTI calls can not be nested")
  else (s.setClient c fun cl => { cl with multi := true }).addReply c .ok

def discardCommand (c : ClientId) (s : Server n) : Option (Server n) :=
  if (s.clients c).multi then (discardTransaction c s).map (addReply c .ok)
  else some (s.addReply c (.error "DISCARD without MULTI"))

def watchCommand (c : ClientId) (keys : List Key) (s : Server n) : Server n :=
  if (s.clients c).multi then s.addReply c (.error "WATCH inside MULTI is not allowed")
  else (keys.foldl (watchForKey c) s).addReply c .ok

/-- The loop over the queued commands. None of them is only a read or an administrative command, so
`MULTI` is propagated before the first. -/
def callAll (order : IterOrder) (c : ClientId) : List Command → Server n → Option (Server n)
  | [], s => some s
  | cmd :: cmds, s => (call order c s cmd).bind (callAll order c cmds)

/-- `execCommand` when no key was touched, with the `EXEC` that `call` propagates after it. -/
def execQueue (order : IterOrder) (c : ClientId) (s : Server n) : Option (Server n) :=
  (unwatchAllKeys c s).bind fun s1 =>
    let commands := (s.clients c).commands
    let s2 := s1.addReply c (.multiBulkLen commands.length)
    match commands with
    | [] => discardTransaction c s2
    | _ :: _ =>
      (callAll order c commands (s2.propagate (s.clients c).db .multi)).bind fun s3 =>
        (discardTransaction c s3).map fun s4 => (s4.addDirty 1).propagate (s4.clients c).db .exec

def execCommand (order : IterOrder) (c : ClientId) (s : Server n) : Option (Server n) :=
  let cl := s.clients c
  if cl.multi = false then some (s.addReply c (.error "EXEC without MULTI"))
  else if cl.dirtyCas || cl.dirtyExec then
    discardTransaction c (s.addReply c (if cl.dirtyExec then .execaborterr else .nullmultibulk))
  else execQueue order c s

/-- What `processCommand` does before clients are served. -/
def processRequest (order : IterOrder) (c : ClientId) (s : Server n) : Request → Option (Server n)
  | .watch keys => some (watchCommand c keys s)
  | .multi => some (multiCommand c s)
  | .exec => execCommand order c s
  | .discard => discardCommand c s
  | .command cmd =>
    if (s.clients c).multi then some (queueMultiCommand c cmd s) else call order c s cmd
  | .refused => some ((flagTransaction c s).addReply c (.error "unknown command"))

def processCommand (order : IterOrder) (c : ClientId) (s : Server n) (r : Request) : Option (Server n) :=
  (processRequest order c (s.setClient c fun cl => { cl with lastcmd := some r }) r).bind handleClientsBlockedOnKeys

/-! ### Runs -/

/-- `replyToBlockedClientTimedOut` and `unblockClient` -/
def timeoutClient (c : ClientId) (s : Server n) : Option (Server n) :=
  if (s.clients c).blocked then
    (unblockClient c (s.addReply c .nullmultibulk)).map (record (.released c))
  else some s

/-- What `freeClient` does to the tables. Another client may then be created in its place. -/
def freeClient (c : ClientId) (s : Server n) : Option (Server n) :=
  (if (s.clients c).blocked then (unblockClient c s).map (record (.released c)) else some s).bind fun s1 =>
    (unwatchAllKeys c s1).map fun s2 => s2.setClient c fun _ => createClient

inductive Input
  | request (c : ClientId) (r : Request)
  | timeout (c : ClientId)
  | disconnect (c : ClientId)

def Input.exec (order : IterOrder) (s : Server n) : Input → Option (Server n)
  | .request c r => if (s.clients c).blocked then some s else processCommand order c s r
  | .timeout c => timeoutClient c s
  | .disconnect c => freeClient c s

/-- Databases as they are loaded: a list that becomes empty is deleted, so none of them is. -/
structure Dataset (n : ℕ) where
  dict : DbId n → Dict
  noEmpty : ∀ d key, (dict d).lookup key ≠ some (.list [])

/-- A run; `none` is a server that has ended at an assertion. -/
def run (order : IterOrder) : List Input → Server n → Option (Server n)
  | [], s => some s
  | i :: is, s => (i.exec order s).bind (run order is)

end RedisIR.Clients
