import RedisIR.Spec.Aof

/-! What a command leaves in the sequential log: `propagate` of `server.c` and
`feedAppendOnlyFile` of `aof.c`. -/

namespace RedisIR

open CLib

/-- What is called only if the first function returns. -/
def Outcome.bind {α β : Type} : Outcome α → (α → Outcome β) → Outcome β
  | .returned a, f => f a
  | .exited, _ => .exited
  | .overflowed, _ => .overflowed

@[simp] theorem Outcome.bind_returned {α β : Type} (a : α) (f : α → Outcome β) :
    (Outcome.returned a).bind f = f a := rfl

theorem Outcome.bind_eq_returned {α β : Type} {o : Outcome α} {f : α → Outcome β} {b : β} :
    o.bind f = .returned b ↔ ∃ a, o = .returned a ∧ f a = .returned b := by
  cases o <;> simp [Outcome.bind]

/-- `server.aof_state` -/
inductive AofState
  | off
  | on
  | waitRewrite
  deriving DecidableEq, Repr

/-- `server.aof_state`, `server.aof_buf` and `server.aof_selected_db`; no rewrite is in
progress. -/
structure AofBuffer where
  state : AofState
  buf : Bytes
  selectedDb : ℤ
  deriving DecidableEq

/-- `cmd->proc`, as far as `propagate` and `feedAppendOnlyFile` look at it. -/
inductive AofProc
  | expire
  | pexpire
  | expireat
  | setex
  | psetex
  | set
  | setIR
  | other
  deriving DecidableEq, Repr

def PEXPIREAT_COMMAND : Bytes := ascii ['P', 'E', 'X', 'P', 'I', 'R', 'E', 'A', 'T']

/-- A `long long` as the machine computes it. -/
def wrapLongLong (i : ℤ) : ℤ := Int.bmod i (2 ^ 64)

/-- The command that `catAppendOnlyExpireAtCommand` writes when `mstime()` is `now`. -/
def expireAt (now : ℤ) (proc : AofProc) (key seconds : Bytes) : List Bytes :=
  let time := strtol seconds
  let time := if proc = .expire ∨ proc = .setex ∨ proc = .expireat then wrapLongLong (time * 1000) else time
  let time :=
    if proc = .expire ∨ proc = .pexpire ∨ proc = .setex ∨ proc = .psetex then wrapLongLong (time + now) else time
  [PEXPIREAT_COMMAND, key, decimal time]

/-- `!strcasecmp(arg, word)` for a word in capitals. -/
def isWord (arg word : Bytes) : Bool := sdstoupper (cstr arg).val = word

def EX : Bytes := ascii ['E', 'X']
def PX : Bytes := ascii ['P', 'X']

def NX : Bytes := ascii ['N', 'X']
def XX : Bytes := ascii ['X', 'X']

/-- The flags `OBJ_SET_NX`, `OBJ_SET_XX`, `OBJ_SET_EX` and `OBJ_SET_PX`, and the argument that
holds the time. -/
structure SetFlags where
  nx : Bool
  xx : Bool
  ex : Bool
  px : Bool
  expire : Option Bytes
  deriving DecidableEq

def OBJ_SET_NO_FLAGS : SetFlags := ⟨false, false, false, false, none⟩

/-- The loop of `setCommand` over its options; `none` is a syntax error. -/
def setOptions : List Bytes → SetFlags → Option SetFlags
  | [], f => some f
  | a :: args, f =>
    if isWord a NX && !f.xx then setOptions args { f with nx := true }
    else if isWord a XX && !f.nx then setOptions args { f with xx := true }
    else
      match args with
      | [] => none
      | next :: args =>
        if isWord a EX && !f.px then setOptions args { f with ex := true, expire := some next }
        else if isWord a PX && !f.ex then setOptions args { f with px := true, expire := some next }
        else none

/-- The loop over the options of a `SET`, which looks at each argument also where `setCommand`
took it for a time; an option at the end reads past the arguments. -/
def expireArgs : List Bytes → Option Bytes → Option Bytes → Outcome (Option Bytes × Option Bytes)
  | [], exarg, pxarg => .returned (exarg, pxarg)
  | [a], exarg, pxarg => if isWord a EX || isWord a PX then .overflowed else .returned (exarg, pxarg)
  | a :: next :: args, exarg, pxarg =>
    expireArgs (next :: args) (if isWord a EX then some next else exarg) (if isWord a PX then some next else pxarg)

def translate (now : ℤ) (proc : AofProc) (argv : List Bytes) : Outcome (List (List Bytes)) :=
  let key := argv.getD 1 []
  match proc with
  | .expire | .pexpire | .expireat => .returned [expireAt now proc key (argv.getD 2 [])]
  | .setex | .psetex =>
    .returned [[SET_COMMAND, key, argv.getD 3 []], expireAt now proc key (argv.getD 2 [])]
  | .set =>
    if argv.length > 3 then
      (expireArgs (argv.drop 3) none none).bind fun
        | (some _, some _) => .exited -- `serverAssert(!(exarg && pxarg))`
        | (some exarg, none) => .returned [argv.take 3, expireAt now .expire key exarg]
        | (none, some pxarg) => .returned [argv.take 3, expireAt now .pexpire key pxarg]
        | (none, none) => .returned [argv.take 3]
    else .returned [argv]
  | .setIR | .other => .returned [argv]

/-- `*2\r\n$6\r\nSELECT\r\n$%lu\r\n%s\r\n` -/
def selectText (dictid : ℕ) : Bytes :=
  let seldb := natDecimal dictid
  ascii ['*', '2', '\r', '\n', '$', '6', '\r', '\n'] ++ SELECT_COMMAND ++ [CR, LF] ++
    36 :: natDecimal seldb.length ++ [CR, LF] ++ seldb ++ [CR, LF]

/-- Every database change in the log is announced by a `SELECT`. -/
def feedAppendOnlyFile (now : ℤ) (proc : AofProc) (dictid : ℕ) (argv : List Bytes) (aof : AofBuffer) :
    Outcome AofBuffer :=
  let buf := if (dictid : ℤ) ≠ aof.selectedDb then selectText dictid else []
  (translate now proc argv).bind fun cmds =>
    let buf := cmds.foldl catAppendOnlyGenericCommand buf
    .returned
      { aof with
        buf := if aof.state = .on then aof.buf ++ buf else aof.buf
        selectedDb := dictid }

/-- `propagate` with `PROPAGATE_AOF`. -/
def propagate (now : ℤ) (proc : AofProc) (dbid : ℕ) (argv : List Bytes) (aof : AofBuffer) : Outcome AofBuffer :=
  if proc = .setIR then .returned aof
  else if aof.state ≠ .off then feedAppendOnlyFile now proc dbid argv aof
  else .returned aof

def flushAppendOnlyFile (file : Bytes) (aof : AofBuffer) : Bytes × AofBuffer :=
  (file ++ aof.buf, { aof with buf := [] })

end RedisIR
