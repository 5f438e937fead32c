import RedisIR.Spec.Propagation

/-! `t_string.c`: the commands that change a string or a counter in place. -/

namespace RedisIR

open CLib

/-- What a command leaves behind: the database, what it replies (the elements, for a multi
bulk reply), and by how much it raised `server.dirty`. -/
structure CommandEffect where
  db : Db
  replies : List Reply
  dirty : ℕ

def CommandEffect.error (db : Db) (msg : String) : CommandEffect := ⟨db, [.error msg], 0⟩

def Exec.toEffect (e : Exec) : CommandEffect := ⟨e.db, [e.reply], e.dirty⟩

/-- `addReplyError` of `getLongLongFromObjectOrReply` without a message of its own. -/
def notInteger : String := "value is not an integer or out of range"

/-! ### Counters -/

def incrbyCommand (k n : Bytes) (db : Db) : CommandEffect :=
  match string2ll n with
  | none => .error db notInteger
  | some incr => (incrDecrCommand k incr (.incr k) db).toEffect

def decrbyCommand (k n : Bytes) (db : Db) : CommandEffect :=
  match string2ll n with
  | none => .error db notInteger
  | some incr => (incrDecrCommand k (wrapLongLong (-incr)) (.incr k) db).toEffect

/-! ### Strings -/

/-- `checkStringLength`, whose argument is a `long long`: `true` is `C_OK`. -/
def checkStringLength (size : ℤ) : Bool := size ≤ 512 * 1024 * 1024

def tooLong : String := "string exceeds maximum allowed size (512MB)"

/-- The string filled up with zero bytes to the length, if it is shorter. -/
def sdsgrowzero (s : Bytes) (len : ℕ) : Bytes := s ++ List.replicate (len - s.length) 0

/-- `memcpy` over a part of the string that is there. -/
def overwrite (s : Bytes) (offset : ℕ) (value : Bytes) : Bytes :=
  s.take offset ++ value ++ s.drop (offset + value.length)

/-- The sum of the offset and the length is a `size_t`, which `checkStringLength` takes for a
`long long`. -/
def setrangeCommand (k off value : Bytes) (db : Db) : CommandEffect :=
  match string2ll off with
  | none => .error db notInteger
  | some offset =>
    if offset < 0 then .error db "offset is out of range"
    else
      let target : ℕ := (offset.toNat + value.length) % 2 ^ 64
      let s := (db k).getD []
      if value.length = 0 then ⟨db, [.int s.length], 0⟩
      else if checkStringLength (wrapLongLong target) then
        let s := overwrite (sdsgrowzero s target) offset.toNat value
        ⟨setKey db k s, [.int s.length], 1⟩
      else .error db tooLong

/-- The length is only checked when there is a string to append to. -/
def appendCommand (k value : Bytes) (db : Db) : CommandEffect :=
  match db k with
  | none => ⟨setKey db k value, [.int value.length], 1⟩
  | some s =>
    let totlen : ℕ := (s.length + value.length) % 2 ^ 64
    if checkStringLength (wrapLongLong totlen) then
      ⟨setKey db k (s ++ value), [.int (s ++ value).length], 1⟩
    else .error db tooLong

end RedisIR
