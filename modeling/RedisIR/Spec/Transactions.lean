import RedisIR.Spec.Propagation

/-! `loadAppendOnlyFile` on any log: `SELECT` records and `MULTI ... EXEC` blocks, over
whatever commands the server knows and whatever data they work on. -/

namespace RedisIR

open CLib

variable {D : Type}

/-- `cmd->proc` with the arguments of the command. Apart from `MULTI`, `EXEC` and `SELECT` a
command works on the data, in the database that the client has selected. -/
inductive Proc (D : Type)
  | multi
  | exec
  | select (id : Bytes)
  | data (run : ℕ → D → D)

def Proc.isMulti : Proc D → Bool
  | .multi => true
  | _ => false

def Proc.isExec : Proc D → Bool
  | .exec => true
  | _ => false

/-- The procedure of a command and its flags `CMD_READONLY` and `CMD_ADMIN`. -/
structure Command (D : Type) where
  readonly : Bool
  admin : Bool
  proc : Proc D

/-- `lookupCommand` with the arguments; `none` is an unknown command. -/
abbrev CommandTable (D : Type) := List Bytes → Option (Command D)

/-- The fake client: its database, `CLIENT_MULTI`, and the queue of its transaction. -/
structure FakeClient (D : Type) where
  db : ℕ
  multi : Bool
  commands : List (Command D)

def createFakeClient : FakeClient D := ⟨0, false, []⟩

structure Loading (D : Type) where
  client : FakeClient D
  data : D
  aof : AofBuffer

/-- `selectCommand`: anything but the number of a database leaves the client where it is. -/
def selectDb (dbnum : ℕ) (id : Bytes) (db : ℕ) : ℕ :=
  match string2ll id with
  | none => db
  | some id => if id < 0 ∨ dbnum ≤ id then db else id.toNat

/-- `call(c, CMD_CALL_NONE)`, which propagates nothing. A `MULTI` inside a transaction is an
error without effect, and `EXEC` is never queued. -/
def Loading.call (dbnum : ℕ) (s : Loading D) : Proc D → Loading D
  | .multi | .exec => s
  | .select id => { s with client := { s.client with db := selectDb dbnum id s.client.db } }
  | .data run => { s with data := run s.client.db s.data }

def queueMultiCommand (c : Command D) (s : Loading D) : Loading D :=
  { s with client := { s.client with commands := s.client.commands ++ [c] } }

def discardTransaction (s : Loading D) : Loading D :=
  { s with client := { s.client with multi := false, commands := [] } }

def MULTI_COMMAND : Bytes := ascii ['M', 'U', 'L', 'T', 'I']
def EXEC_COMMAND : Bytes := ascii ['E', 'X', 'E', 'C']

def execCommandPropagateMulti (now : ℤ) (s : Loading D) : Outcome (Loading D) :=
  (propagate now .other s.client.db [MULTI_COMMAND] s.aof).bind fun aof => .returned { s with aof := aof }

/-- The loop of `execCommand` while `server.loading` is set. -/
def execLoop (dbnum : ℕ) (now : ℤ) : Bool → List (Command D) → Loading D → Outcome (Loading D)
  | _, [], s => .returned s
  | mustPropagate, c :: cs, s =>
    if !mustPropagate && !(c.readonly || c.admin) then
      (execCommandPropagateMulti now s).bind fun s => execLoop dbnum now true cs (s.call dbnum c.proc)
    else execLoop dbnum now mustPropagate cs (s.call dbnum c.proc)

def execCommand (dbnum : ℕ) (now : ℤ) (s : Loading D) : Outcome (Loading D) :=
  if s.client.multi then
    (execLoop dbnum now false s.client.commands s).bind fun s => .returned (discardTransaction s)
  else .returned s

/-- A command read from the log is queued inside a transaction, else executed. -/
def Loading.run (dbnum : ℕ) (now : ℤ) (c : Command D) (s : Loading D) : Outcome (Loading D) :=
  if s.client.multi && !c.proc.isExec then .returned (queueMultiCommand c s)
  else
    match c.proc with
    | .multi => .returned { s with client := { s.client with multi := true } }
    | .exec => execCommand dbnum now s
    | _ => .returned (s.call dbnum c.proc)

/-- One command of the log: its arguments, and the rest of the file. -/
def readCommand (inp : Bytes) : Except ReadErr (List Bytes × Bytes) :=
  match readHeader inp with
  | .error e => .error e
  | .ok (_, argc, inp) => readArgv argc inp

/-- The label `uxeof`. -/
def uxeof (aofLoadTruncated : Bool) (s : Loading D) : Outcome (Loading D) :=
  if aofLoadTruncated then .returned s else .exited

namespace CommandTable

/-- The main loop; `now` is `mstime()`. The end of the file inside a transaction counts as a
file cut short. -/
def loadLoop (table : CommandTable D) (dbnum : ℕ) (now : ℤ) (aofLoadTruncated : Bool) :
    ℕ → Bytes → Loading D → Outcome (Loading D)
  | 0, _, s => .returned s
  | fuel + 1, inp, s =>
    if inp = [] then if s.client.multi then uxeof aofLoadTruncated s else .returned s
    else
      match readCommand inp with
      | .error (.readerr true) => uxeof aofLoadTruncated s
      | .error _ => .exited
      | .ok (argv, inp) =>
        match table argv with
        | none => .exited
        | some c =>
          (s.run dbnum now c).bind fun s => loadLoop table dbnum now aofLoadTruncated fuel inp s

/-- `loadAppendOnlyFile` on a log without RDB preamble, with `server.aof_state` as it is. -/
def loadAppendOnlyFile (table : CommandTable D) (dbnum : ℕ) (now : ℤ) (aofLoadTruncated : Bool) (file : Bytes)
    (data : D) (aof : AofBuffer) : Outcome (Loading D) :=
  table.loadLoop dbnum now aofLoadTruncated (file.length + 1) file ⟨createFakeClient, data, aof⟩

end CommandTable

/-! ### The commands of this model -/

/-- `server.db` -/
abbrev Dbs := ℕ → Db

/-- The flag `CMD_READONLY`; no command here has `CMD_ADMIN`. -/
def Cmd.readonly : Cmd → Bool
  | .get _ => true
  | _ => false

def redisCommandTable : CommandTable Dbs
  | [] => none
  | w :: args =>
    if sdstoupper w = MULTI_COMMAND then some ⟨false, false, .multi⟩
    else if sdstoupper w = EXEC_COMMAND then some ⟨false, false, .exec⟩
    else if sdstoupper w = SELECT_COMMAND then
      match args with
      | [id] => some ⟨false, false, .select id⟩
      | _ => none
    else
      (lookupCommand (w :: args)).map fun c =>
        ⟨c.readonly, false, .data fun db dbs => Function.update dbs db (c.proc (dbs db)).db⟩

/-! ### Well-formed logs -/

/-- An entry of a log with the command that the server finds for it. -/
structure Record (table : CommandTable D) where
  entry : Entry
  command : Command D
  found : table entry.argv = some command

/-- A command on its own, or a transaction with its `MULTI` and its `EXEC`. -/
inductive Block (table : CommandTable D)
  | command (r : Record table) (single : r.command.proc.isMulti = false)
  | transaction (multi : Record table) (body : List (Record table)) (exec : Record table)
      (opens : multi.command.proc.isMulti = true) (inside : ∀ r ∈ body, r.command.proc.isExec = false)
      (closes : exec.command.proc.isExec = true)

variable {table : CommandTable D}

def Block.records : Block table → List (Record table)
  | .command r _ => [r]
  | .transaction multi body exec _ _ _ => multi :: body ++ [exec]

def blockBytes (blocks : List (Block table)) : Bytes :=
  entryBytes ((blocks.flatMap Block.records).map Record.entry)

/-- A transaction in which every command is read-only or administrative; any command on its
own. -/
def Block.Quiet : Block table → Prop
  | .command _ _ => True
  | .transaction _ body _ _ _ _ => ∀ r ∈ body, r.command.readonly = true ∨ r.command.admin = true

end RedisIR
