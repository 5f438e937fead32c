import RedisIR.Spec.Keyspace

/-! `aof.c`: the sequential log, how a command is appended to it and how it is replayed. -/

namespace RedisIR

open CLib

/-- `$<len>\r\n<arg>\r\n`; the number is written into a buffer of 32 bytes after its first. -/
def catBulk (arg : Bytes) : Bytes :=
  36 :: ll2string 31 arg.length ++ [CR, LF] ++ arg ++ [CR, LF]

def catAppendOnlyGenericCommand (dst : Bytes) (argv : List Bytes) : Bytes :=
  dst ++ (42 :: ll2string 31 argv.length ++ [CR, LF]) ++ argv.flatMap catBulk

def LogCmd.bytes (c : LogCmd) : Bytes := catAppendOnlyGenericCommand [] c.argv

/-- The sequential log file after the commands `L`. -/
def aofBytes (L : List LogCmd) : Bytes := L.flatMap LogCmd.bytes

/-- The position at which the first `n` commands of the log end. -/
def offset (L : List LogCmd) (n : ℕ) : ℕ := (aofBytes (L.take n)).length

/-- The command number `i` of the log ends at or before the position. -/
def LiesBefore (L : List LogCmd) (seek : ℤ) (i : ℕ) : Prop := i < L.length ∧ (offset L (i + 1) : ℤ) ≤ seek

instance (L : List LogCmd) (seek : ℤ) (i : ℕ) : Decidable (LiesBefore L seek i) :=
  inferInstanceAs (Decidable (_ ∧ _))

/-- Any command of a log. `argc` is an `int`, and no C object has `2 ^ 63` bytes. -/
structure Entry where
  argv : List Bytes
  argc_pos : 0 < argv.length
  argc_int : argv.length < 2 ^ 31
  fits : ∀ a ∈ argv, a.length < 2 ^ 63

def Entry.bytes (e : Entry) : Bytes := catAppendOnlyGenericCommand [] e.argv

def entryBytes (E : List Entry) : Bytes := E.flatMap Entry.bytes

def Entry.Is (e : Entry) (c : Cmd) : Prop := lookupCommand e.argv = some c

instance (e : Entry) (c : Cmd) : Decidable (e.Is c) := inferInstanceAs (Decidable (_ = _))

/-- The commands of the log that its first `n` bytes contain whole. -/
def completeIn : ℕ → List Entry → List Entry
  | _, [] => []
  | n, e :: E => if e.bytes.length ≤ n then e :: completeIn (n - e.bytes.length) E else []

/-! ### Reading it back

`loadAppendOnlyFile` and the two indexers read a command in the same way: a header
line, then for each argument a length line, that many bytes and a CR LF. -/

/-- The labels a failed read jumps to, `readerr` with the value of `feof(fp)`. -/
inductive ReadErr
  | readerr (eof : Bool)
  | fmterr
  deriving DecidableEq, Repr

/-- `char buf[128]` -/
def bufSize : ℕ := 128

/-- `fgets` met the end of the file: the line has no line feed and the buffer has room. -/
def hitEof (buf : Bytes) : Bool := buf.getLast? ≠ some LF ∧ buf.length < bufSize - 1

/-- The header line: the buffer, the number of arguments, and the rest of the file. -/
def readHeader (inp : Bytes) : Except ReadErr (Bytes × ℕ × Bytes) :=
  match fgets bufSize inp with
  | none => .error (.readerr true)
  | some (buf, inp) =>
    if buf.head? ≠ some 42 then .error .fmterr
    else if buf.getD 1 0 = 0 then .error (.readerr (hitEof buf))
    else if atoi buf.tail < 1 then .error .fmterr
    else .ok (buf, (atoi buf.tail).toNat, inp)

/-- The length line of an argument and its bytes. A negative length is a huge `unsigned
long`, which no file satisfies. -/
def readArg (inp : Bytes) : Except ReadErr (Bytes × Bytes × Bytes) :=
  match fgets bufSize inp with
  | none => .error (.readerr true)
  | some (buf, inp) =>
    if buf.head? ≠ some 36 then .error .fmterr
    else
      match fread (strtol buf.tail % 2 ^ 64).toNat inp with
      | none => .error (.readerr true)
      | some (arg, inp) => .ok (buf, arg, inp)

/-- One argument with the CR LF after it: the length line, the bytes, and the rest. -/
def readBulk (inp : Bytes) : Except ReadErr (Bytes × Bytes × Bytes) :=
  match readArg inp with
  | .error e => .error e
  | .ok (buf, arg, inp) =>
    match fread 2 inp with
    | none => .error (.readerr true)
    | some (_, inp) => .ok (buf, arg, inp)

/-- The argument loop of `loadAppendOnlyFile`. -/
def readArgv : ℕ → Bytes → Except ReadErr (List Bytes × Bytes)
  | 0, inp => .ok ([], inp)
  | n + 1, inp =>
    match readBulk inp with
    | .error e => .error e
    | .ok (_, arg, inp) =>
      match readArgv n inp with
      | .error e => .error e
      | .ok (args, inp) => .ok (arg :: args, inp)

/-- How a function ends: it returns, it calls `exit(1)`, or it has written past the end of
a buffer and nothing can be said any more. -/
inductive Outcome (α : Type)
  | returned (a : α)
  | exited
  | overflowed

/-- The labels `readerr`, `uxeof` and `fmterr`: a file cut short is cut back and
accepted under `aof_load_truncated`, any other error ends the process. -/
def loadError (aofLoadTruncated : Bool) (db : Db) : ReadErr → Outcome Db
  | .readerr true => if aofLoadTruncated then .returned db else .exited
  | _ => .exited

/-- The main loop of `loadAppendOnlyFile`; each round reads at least one byte, so the
length of the file is enough fuel. -/
def loadLoop (aofLoadTruncated : Bool) : ℕ → Bytes → Db → Outcome Db
  | 0, _, db => .returned db
  | fuel + 1, inp, db =>
    if inp = [] then .returned db
    else
      match readHeader inp with
      | .error e => loadError aofLoadTruncated db e
      | .ok (_, argc, inp) =>
        match readArgv argc inp with
        | .error e => loadError aofLoadTruncated db e
        | .ok (argv, inp) =>
          match lookupCommand argv with
          | none => .exited
          | some cmd => loadLoop aofLoadTruncated fuel inp (cmd.proc db).db

/-- `loadAppendOnlyFile` on a log without RDB preamble and without transactions. -/
def loadAppendOnlyFile (aofLoadTruncated : Bool) (file : Bytes) (db : Db) : Outcome Db :=
  loadLoop aofLoadTruncated (file.length + 1) file db

end RedisIR
