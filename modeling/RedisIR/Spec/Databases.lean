import RedisIR.Spec.Restorer
import RedisIR.Spec.Transactions

/-! Clients on any database: `SET` with its options, `GET`, `INCR` and `DEL`, and what
`call` appends to the log for them. -/

namespace RedisIR

open CLib

/-! ### `SET` with options -/

/-- `setGenericCommand` with all its flags. Only the keys and values of a database are
modelled, not the times at which keys expire. -/
def setGenericCommandFlags (f : SetFlags) (k v : Bytes) (c : Cmd) (db : Db) : Exec :=
  match f.expire with
  | none => setGenericCommand f.nx f.xx k v c db
  | some expire =>
    match string2ll expire with
    | none => ⟨db, .error "value is not an integer or out of range", 0, c⟩
    | some time =>
      if time ≤ 0 then ⟨db, .error "invalid expire time in set", 0, c⟩
      else setGenericCommand f.nx f.xx k v c db

def setCommandOptions (k v : Bytes) (options : List Bytes) (db : Db) : Exec :=
  match setOptions options OBJ_SET_NO_FLAGS with
  | none => ⟨db, .error "syntax error", 0, .set k v⟩
  | some f => setGenericCommandFlags f k v (.set k v) db

/-! ### The commands of clients -/

inductive ClientOp
  | set (k v : Bytes) (options : List Bytes)
  | get (k : Bytes)
  | incr (k : Bytes)
  | del (k : Bytes) (ks : List Bytes)
  deriving DecidableEq

def ClientOp.name : ClientOp → Bytes
  | .set _ _ _ => SET_COMMAND
  | .get _ => GET_COMMAND
  | .incr _ => INCR_COMMAND
  | .del _ _ => DEL_COMMAND

def ClientOp.args : ClientOp → List Bytes
  | .set k v options => k :: v :: options
  | .get k => [k]
  | .incr k => [k]
  | .del k ks => k :: ks

def ClientOp.cmd : ClientOp → Cmd
  | .set k v _ => .set k v
  | .get k => .get k
  | .incr k => .incr k
  | .del k ks => .del (k :: ks)

def ClientOp.proc : ClientOp → Db → Exec
  | .set k v options => setCommandOptions k v options
  | .get k => getCommand k
  | .incr k => incrCommand k
  | .del k ks => delCommand (k :: ks)

def ClientOp.aofProc : ClientOp → AofProc
  | .set _ _ _ => .set
  | _ => .other

structure ClientCmd where
  op : ClientOp
  word : Bytes
  spelled : sdstoupper word = op.name
  argc_int : (word :: op.args).length < 2 ^ 31
  fits : ∀ a ∈ op.args, a.length < 2 ^ 63

def ClientCmd.argv (c : ClientCmd) : List Bytes := c.word :: c.op.args

/-- A command at the time `now` of a client that has selected the database `db`. -/
structure ClientCall where
  now : ℤ
  db : ℕ
  db_int : db < 2 ^ 31
  cmd : ClientCmd

/-! ### The server -/

/-- A server with database 0 and the state of its recovery, the databases from 1 on, and
the log. -/
structure Redis where
  server : Server
  others : ℕ → Db
  aof : AofBuffer

def Redis.dbs (s : Redis) : Dbs
  | 0 => s.server.db
  | i + 1 => s.others i

def Redis.setDb (s : Redis) (db : Db) : ℕ → Redis
  | 0 => { s with server := { s.server with db := db } }
  | i + 1 => { s with others := Function.update s.others i db }

structure Served where
  redis : Redis
  reply : Reply

/-- The part of `call` from `c->cmd->proc(c)` on, with `dirty` the change of `server.dirty` so
far. -/
def Redis.execute (dirty : ℕ) (c : ClientCall) (s : Redis) : Outcome Served :=
  let e := c.cmd.op.proc (s.dbs c.db)
  let s := s.setDb e.db c.db
  if 0 < dirty + e.dirty then
    (propagate c.now c.cmd.op.aofProc c.db c.cmd.argv s.aof).bind fun aof => .returned ⟨{ s with aof := aof },
      e.reply⟩
  else .returned ⟨s, e.reply⟩

/-- `call`: keys are restored on demand into database 0, whatever the client has selected,
and a change of `server.dirty` by that counts as one by the command. -/
def Redis.call (idx : IndexedLog) (c : ClientCall) (s : Redis) : Outcome Served :=
  let restored := restoreOnDemand idx c.cmd.op.cmd s.server
  Redis.execute restored.2 c { s with server := restored.1 }

def Redis.run (idx : IndexedLog) : List ClientCall → Redis → Outcome Redis
  | [], s => .returned s
  | c :: cs, s => (s.call idx c).bind fun r => run idx cs r.redis

/-- A server that starts with nothing in memory and nothing to recover, its log turned on. -/
def Redis.started (m : Allocator) : Redis where
  server := Server.restarted m []
  others := fun _ => emptyDb
  aof := ⟨.on, [], -1⟩

def recoveredDbs (s : Server) : Dbs := (⟨s, fun _ => emptyDb, ⟨.on, [], -1⟩⟩ : Redis).dbs

/-! ### What a call appends -/

def readCommands : ℕ → Bytes → List (List Bytes)
  | 0, _ => []
  | fuel + 1, inp =>
    match readCommand inp with
    | .error _ => []
    | .ok (argv, inp) => argv :: readCommands fuel inp

/-- The commands that a call has appended to `server.aof_buf`. -/
def Served.appended (before : AofBuffer) (r : Served) : List (List Bytes) :=
  let text := r.redis.aof.buf.drop before.buf.length
  readCommands text.length text

/-- A command without the absolute time of a `PEXPIREAT`. -/
def eraseTime (argv : List Bytes) : List Bytes :=
  if argv.head? = some PEXPIREAT_COMMAND then argv.take 2 else argv

def Redis.appends (idx : IndexedLog) (c : ClientCall) (s : Redis) : Outcome (List (List Bytes)) :=
  (s.call idx c).bind fun r => .returned ((r.appended s.aof).map eraseTime)

def Redis.loaded (idx : IndexedLog) (key : CStr) (s : Redis) : Redis :=
  { s with server := (loadRecordFromIndexedLog idx key s.server).1 }

/-! ### Writes -/

/-- A client's `SET` without an expire time, `INCR`, or `DEL` of one key. -/
inductive WriteOp
  | set (k v : Bytes) (options : List Bytes)
  | incr (k : Bytes)
  | del (k : Bytes)
  deriving DecidableEq

def WriteOp.clientOp : WriteOp → ClientOp
  | .set k v options => .set k v options
  | .incr k => .incr k
  | .del k => .del k []

def WriteOp.op : WriteOp → Op
  | .set k v _ => .set k v
  | .incr k => .incr k
  | .del k => .del k

/-- No `EX` and no `PX` among the options, if they are accepted. -/
def WriteOp.Timeless : WriteOp → Prop
  | .set _ _ options => ∀ f ∈ setOptions options OBJ_SET_NO_FLAGS, f.expire = none
  | _ => True

instance : (o : WriteOp) → Decidable o.Timeless
  | .set _ _ options => inferInstanceAs (Decidable (∀ f ∈ setOptions options OBJ_SET_NO_FLAGS, _))
  | .incr _ => isTrue trivial
  | .del _ => isTrue trivial

/-- A write on the database `db`. -/
structure DbWrite where
  now : ℤ
  db : ℕ
  db_int : db < 2 ^ 31
  op : WriteOp
  word : Bytes
  spelled : sdstoupper word = op.clientOp.name
  argc_int : (word :: op.clientOp.args).length < 2 ^ 31
  fits : ∀ a ∈ op.clientOp.args, a.length < 2 ^ 63
  timeless : op.Timeless

def DbWrite.call (w : DbWrite) : ClientCall :=
  ⟨w.now, w.db, w.db_int, ⟨w.op.clientOp, w.word, w.spelled, w.argc_int, w.fits⟩⟩

/-- The writes that change their database, and so reach the log, on the databases `dbs`. -/
def loggedWrites : List DbWrite → Dbs → List DbWrite
  | [], _ => []
  | w :: ws, dbs =>
    let e := w.op.clientOp.proc (dbs w.db)
    (if 0 < e.dirty then [w] else []) ++ loggedWrites ws (Function.update dbs w.db e.db)

/-- What writes do to the databases, one key of one database at a time. -/
def dbsSem : KeyedLog.Sem (ℕ × Bytes) Bytes DbWrite where
  key w := (redisSem.key w.op.op).map (w.db, ·)
  act w := redisSem.act w.op.op

end RedisIR
