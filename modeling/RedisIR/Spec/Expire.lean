import RedisIR.Spec.Propagation
import RedisIR.Spec.Util

/-! Commands with a time in their arguments: `SET` with `EX` or `PX`, `SETEX`, `PSETEX`, the four
`EXPIRE` commands, and the timeouts of commands that block. The clock shows `now` during a command,
and signed arithmetic wraps. `none` is a failed assertion. -/

namespace RedisIR.Expire

open CLib

inductive TimeUnit
  | seconds
  | milliseconds
  deriving DecidableEq

/-- `server.loading` and `server.masterhost != NULL` -/
structure Role where
  loading : Bool
  replica : Bool

structure Db where
  dict : Bytes → Option Bytes
  expires : Bytes → Option ℤ

inductive Reply
  | error
  | null
  | ok
  | zero
  | one
  deriving DecidableEq

def Db.delete (db : Db) (key : Bytes) : Db :=
  ⟨Function.update db.dict key none, Function.update db.expires key none⟩

def keyIsExpired (role : Role) (now : ℤ) (db : Db) (key : Bytes) : Bool :=
  match db.expires key with
  | none => false
  | some time => !decide (time < 0) && !role.loading && decide (now > time)

/-- A replica does not delete a key that is expired. -/
def lookupKeyWrite (role : Role) (now : ℤ) (db : Db) (key : Bytes) : Db × Option Bytes :=
  let db := if keyIsExpired role now db key && !role.replica then db.delete key else db
  (db, db.dict key)

def setKey (role : Role) (now : ℤ) (db : Db) (key val : Bytes) : Db :=
  let db := (lookupKeyWrite role now db key).1
  ⟨Function.update db.dict key (some val), Function.update db.expires key none⟩

def setExpire (db : Db) (key : Bytes) (time : ℤ) : Option Db :=
  if (db.dict key).isSome then some { db with expires := Function.update db.expires key (some time) } else none

/-- The time of `SET`, in milliseconds, or nothing for an error reply. -/
def setTime (unit : TimeUnit) (expire : Bytes) : Option ℤ :=
  match string2ll expire with
  | none => none
  | some milliseconds =>
    if milliseconds ≤ 0 then none
    else some (if unit = .seconds then wrapLongLong (milliseconds * 1000) else milliseconds)

/-- `setGenericCommand` after it has read the time. -/
def setGeneric (role : Role) (now : ℤ) (nx xx : Bool) (key val : Bytes) (milliseconds : Option ℤ) (db : Db) :
    Option (Db × Reply) :=
  let db := if nx || xx then (lookupKeyWrite role now db key).1 else db
  if nx && (db.dict key).isSome || xx && (db.dict key).isNone then some (db, .null)
  else
    let db := setKey role now db key val
    match milliseconds with
    | none => some (db, .ok)
    | some ms => (setExpire db key (wrapLongLong (now + ms))).map fun db => (db, .ok)

def setGenericCommand (role : Role) (now : ℤ) (nx xx : Bool) (key val : Bytes) (expire : Option Bytes)
    (unit : TimeUnit) (db : Db) : Option (Db × Reply) :=
  match expire with
  | none => setGeneric role now nx xx key val none db
  | some expire =>
    match setTime unit expire with
    | none => some (db, .error)
    | some ms => setGeneric role now nx xx key val (some ms) db

/-- `UNIT_SECONDS` unless the option was `PX` -/
def timeUnit (f : SetFlags) : TimeUnit := if f.px then .milliseconds else .seconds

def setCommand (role : Role) (now : ℤ) (key val : Bytes) (options : List Bytes) (db : Db) : Option (Db × Reply) :=
  match setOptions options OBJ_SET_NO_FLAGS with
  | none => some (db, .error)
  | some f => setGenericCommand role now f.nx f.xx key val f.expire (timeUnit f) db

/-- The absolute time that the `EXPIRE` commands compute. -/
def expireTime (basetime : ℤ) (unit : TimeUnit) (param : Bytes) : Option ℤ :=
  (string2ll param).map fun time =>
    wrapLongLong ((if unit = .seconds then wrapLongLong (time * 1000) else time) + basetime)

def expireGenericCommand (role : Role) (now basetime : ℤ) (unit : TimeUnit) (key param : Bytes) (db : Db) :
    Option (Db × Reply) :=
  match expireTime basetime unit param with
  | none => some (db, .error)
  | some time =>
    let (db, val) := lookupKeyWrite role now db key
    if val.isNone then some (db, .zero)
    else if time ≤ now ∧ ¬ role.loading ∧ ¬ role.replica then some (db.delete key, .one)
    else (setExpire db key time).map fun db => (db, .one)

/-- The unblock time for the argument of a command that blocks, 0 for none; `none` is an error
reply. -/
def getTimeoutFromObjectOrReply (now : ℤ) (unit : TimeUnit) (arg : Bytes) : Option ℤ :=
  match string2ll arg with
  | none => none
  | some tval =>
    if tval < 0 then none
    else if tval > 0 then
      some (wrapLongLong ((if unit = .seconds then wrapLongLong (tval * 1000) else tval) + now))
    else some tval

inductive TimeCommand
  | set (options : List Bytes)
  | setex
  | psetex
  | expire
  | pexpire
  | expireat
  | pexpireat

/-- A command for the value of a key, or for its time `arg`. -/
def TimeCommand.exec (role : Role) (now : ℤ) (key val arg : Bytes) (db : Db) : TimeCommand → Option (Db × Reply)
  | .set options => setCommand role now key val options db
  | .setex => setGenericCommand role now false false key val (some arg) .seconds db
  | .psetex => setGenericCommand role now false false key val (some arg) .milliseconds db
  | .expire => expireGenericCommand role now now .seconds key arg db
  | .pexpire => expireGenericCommand role now now .milliseconds key arg db
  | .expireat => expireGenericCommand role now 0 .seconds key arg db
  | .pexpireat => expireGenericCommand role now 0 .milliseconds key arg db

def TimeCommand.proc : TimeCommand → AofProc
  | .set _ => .set
  | .setex => .setex
  | .psetex => .psetex
  | .expire => .expire
  | .pexpire => .pexpire
  | .expireat => .expireat
  | .pexpireat => .other

/-- The arguments as `feedAppendOnlyFile` gets them. -/
def TimeCommand.argv (key val arg : Bytes) : TimeCommand → List Bytes
  | .set options => [SET_COMMAND, key, val] ++ options
  | .setex => [ascii ['S', 'E', 'T', 'E', 'X'], key, arg, val]
  | .psetex => [ascii ['P', 'S', 'E', 'T', 'E', 'X'], key, arg, val]
  | .expire => [ascii ['E', 'X', 'P', 'I', 'R', 'E'], key, arg]
  | .pexpire => [ascii ['P', 'E', 'X', 'P', 'I', 'R', 'E'], key, arg]
  | .expireat => [ascii ['E', 'X', 'P', 'I', 'R', 'E', 'A', 'T'], key, arg]
  | .pexpireat => [PEXPIREAT_COMMAND, key, arg]

end RedisIR.Expire
