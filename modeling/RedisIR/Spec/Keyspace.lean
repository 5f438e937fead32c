import RedisIR.Lib.KeyedLog
import RedisIR.Spec.Util

/-! The string commands of `t_string.c` and `db.c` on one database. A value is the
byte string a client sees, whatever its encoding in memory. -/

namespace RedisIR

open CLib

/-- `server.db[0].dict` -/
abbrev Db := Bytes → Option Bytes

def emptyDb : Db := fun _ => none

inductive Reply
  | ok
  | nullBulk
  | bulk (v : Bytes)
  | int (n : ℤ)
  | error (msg : String)
  deriving DecidableEq, Repr

/-- A command with its arguments. `SET` and its relatives take no options here, and the
only database to select is the one in use. -/
inductive Cmd
  | set (k v : Bytes)
  | get (k : Bytes)
  | incr (k : Bytes)
  | del (ks : List Bytes)
  | setIR (k v : Bytes)
  | setCheckpoint (k v : Bytes)
  | checkpointEnd (id arg : Bytes)
  | select
  deriving DecidableEq

/-- What a command leaves behind: the database, the reply, by how much it raised
`server.dirty`, and the command vector as `propagate` will see it. -/
structure Exec where
  db : Db
  reply : Reply
  dirty : ℕ
  cmd : Cmd

def setKey (db : Db) (k v : Bytes) : Db := Function.update db k (some v)

/-- `setGenericCommand` with the flags `OBJ_SET_NX` and `OBJ_SET_XX` and no expire. -/
def setGenericCommand (nx xx : Bool) (k v : Bytes) (c : Cmd) (db : Db) : Exec :=
  if (nx && (db k).isSome) || (xx && (db k).isNone) then ⟨db, .nullBulk, 0, c⟩
  else ⟨setKey db k v, .ok, 1, c⟩

/-- The same without the `setKey`. -/
def setGenericCommandNoUpdate (nx xx : Bool) (k : Bytes) (c : Cmd) (db : Db) : Exec :=
  if (nx && (db k).isSome) || (xx && (db k).isNone) then ⟨db, .nullBulk, 0, c⟩
  else ⟨db, .ok, 1, c⟩

def setCommand (k v : Bytes) (db : Db) : Exec := setGenericCommand false false k v (.set k v) db

def setIRCommand (k v : Bytes) (db : Db) : Exec := setGenericCommand true false k v (.setIR k v) db

/-- The value argument is replaced by what `sdsnew` copies of the value in memory. -/
def setCheckpointCommand (k v : Bytes) (db : Db) : Exec :=
  match db k with
  | none => ⟨db, .error "- key not found!\r\n", 0, .setCheckpoint k v⟩
  | some a => setGenericCommandNoUpdate false true k (.setCheckpoint k (cstr a).val) db

def checkpointEndCommand (id arg : Bytes) (db : Db) : Exec :=
  setGenericCommandNoUpdate false false id (.checkpointEnd id arg) db

def getCommand (k : Bytes) (db : Db) : Exec :=
  match db k with
  | none => ⟨db, .nullBulk, 0, .get k⟩
  | some v => ⟨db, .bulk v, 0, .get k⟩

/-- `getLongLongFromObject`: an absent key counts as zero. -/
def getLongLongFromObject : Option Bytes → Option ℤ
  | none => some 0
  | some s => string2ll s

def incrDecrCommand (k : Bytes) (incr : ℤ) (c : Cmd) (db : Db) : Exec :=
  match getLongLongFromObject (db k) with
  | none => ⟨db, .error "value is not an integer or out of range", 0, c⟩
  | some oldvalue =>
    if (incr < 0 ∧ oldvalue < 0 ∧ incr < LLONG_MIN - oldvalue) ∨
        (incr > 0 ∧ oldvalue > 0 ∧ incr > LLONG_MAX - oldvalue) then
      ⟨db, .error "increment or decrement would overflow", 0, c⟩
    else ⟨setKey db k (decimal (oldvalue + incr)), .int (oldvalue + incr), 1, c⟩

def incrCommand (k : Bytes) (db : Db) : Exec := incrDecrCommand k 1 (.incr k) db

/-- The loop of `delGenericCommand`: the keys left to delete and how many were. -/
def delLoop : List Bytes → Db → ℕ → Db × ℕ
  | [], db, numdel => (db, numdel)
  | k :: ks, db, numdel =>
    if (db k).isSome then delLoop ks (Function.update db k none) (numdel + 1)
    else delLoop ks db numdel

def delCommand (ks : List Bytes) (db : Db) : Exec :=
  let r := delLoop ks db 0
  ⟨r.1, .int r.2, r.2, .del ks⟩

/-- `SELECT 0` -/
def selectCommand (db : Db) : Exec := ⟨db, .ok, 0, .select⟩

/-- `cmd->proc(c)` -/
def Cmd.proc : Cmd → Db → Exec
  | .set k v => setCommand k v
  | .get k => getCommand k
  | .incr k => incrCommand k
  | .del ks => delCommand ks
  | .setIR k v => setIRCommand k v
  | .setCheckpoint k v => setCheckpointCommand k v
  | .checkpointEnd id arg => checkpointEndCommand id arg
  | .select => selectCommand

/-! ### Command names -/

def sdstoupper (s : Bytes) : Bytes := s.map toupper

def SET_COMMAND : Bytes := ascii ['S', 'E', 'T']
def GET_COMMAND : Bytes := ascii ['G', 'E', 'T']
def INCR_COMMAND : Bytes := ascii ['I', 'N', 'C', 'R']
def DEL_COMMAND : Bytes := ascii ['D', 'E', 'L']
def SETIR_COMMAND : Bytes := ascii ['S', 'E', 'T', 'I', 'R']
def SETCHECKPOINT_COMMAND : Bytes :=
  ascii ['S', 'E', 'T', 'C', 'H', 'E', 'C', 'K', 'P', 'O', 'I', 'N', 'T']
def CHECKPOINTEND_COMMAND : Bytes :=
  ascii ['C', 'H', 'E', 'C', 'K', 'P', 'O', 'I', 'N', 'T', 'E', 'N', 'D']

def SELECT_COMMAND : Bytes := ascii ['S', 'E', 'L', 'E', 'C', 'T']

/-- `lookupCommand`, which ignores letter case, together with the command's arguments.
`none` is an unknown command or a form outside this model. -/
def lookupCommand (argv : List Bytes) : Option Cmd :=
  match argv with
  | [] => none
  | w :: args =>
    let name := sdstoupper w
    if name = DEL_COMMAND then some (.del args)
    else
      match args with
      | [k] =>
        if name = GET_COMMAND then some (.get k)
        else if name = INCR_COMMAND then some (.incr k)
        else if name = SELECT_COMMAND ∧ k = ascii ['0'] then some .select
        else none
      | [k, v] =>
        if name = SET_COMMAND then some (.set k v)
        else if name = SETIR_COMMAND then some (.setIR k v)
        else if name = SETCHECKPOINT_COMMAND then some (.setCheckpoint k v)
        else if name = CHECKPOINTEND_COMMAND then some (.checkpointEnd k v)
        else none
      | _ => none

/-! ### The commands of a sequential log -/

/-- The commands of a log on one database, `DEL` with one key. Every run of a server
starts its part of the log with a `SELECT`. -/
inductive Op
  | set (k v : Bytes)
  | incr (k : Bytes)
  | del (k : Bytes)
  | setCheckpoint (k v : Bytes)
  | checkpointEnd (id arg : Bytes)
  | select
  deriving DecidableEq

def Op.name : Op → Bytes
  | .set _ _ => SET_COMMAND
  | .incr _ => INCR_COMMAND
  | .del _ => DEL_COMMAND
  | .setCheckpoint _ _ => SETCHECKPOINT_COMMAND
  | .checkpointEnd _ _ => CHECKPOINTEND_COMMAND
  | .select => SELECT_COMMAND

def Op.args : Op → List Bytes
  | .set k v => [k, v]
  | .incr k => [k]
  | .del k => [k]
  | .setCheckpoint k v => [k, v]
  | .checkpointEnd id arg => [id, arg]
  | .select => [ascii ['0']]

def Op.cmd : Op → Cmd
  | .set k v => .set k v
  | .incr k => .incr k
  | .del k => .del [k]
  | .setCheckpoint k v => .setCheckpoint k v
  | .checkpointEnd id arg => .checkpointEnd id arg
  | .select => .select

/-- A logged command: the operation and its word as the client spelled it. No C object
has `2 ^ 63` bytes. -/
structure LogCmd where
  op : Op
  word : Bytes
  spelled : sdstoupper word = op.name
  fits : ∀ a ∈ op.args, a.length < 2 ^ 63

def LogCmd.argv (c : LogCmd) : List Bytes := c.word :: c.op.args

/-- What `INCR` makes of a value: no change when it fails. -/
def incrValue (x : Option Bytes) : Option Bytes :=
  match getLongLongFromObject x with
  | none => x
  | some n => if LLONG_MAX ≤ n then x else some (decimal (n + 1))

/-- What the operations of a log do to a database, one key at a time. -/
def redisSem : KeyedLog.Sem Bytes Bytes Op where
  key
    | .set k _ => some k
    | .incr k => some k
    | .del k => some k
    | .setCheckpoint _ _ => none
    | .checkpointEnd _ _ => none
    | .select => none
  act
    | .set _ v => fun _ => some v
    | .incr _ => incrValue
    | .del _ => fun _ => none
    | .setCheckpoint _ _ => id
    | .checkpointEnd _ _ => id
    | .select => id

def Op.logged (o : Op) (h : ∀ a ∈ o.args, a.length < 2 ^ 63) : LogCmd where
  op := o
  word := o.name
  spelled := by cases o <;> rfl
  fits := h

end RedisIR
