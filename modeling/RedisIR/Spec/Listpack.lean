import RedisIR.Lib.Memory
import RedisIR.Lib.Endian
import RedisIR.Lib.Positions
import RedisIR.Spec.Util

/-! `listpack.c`. -/

namespace RedisIR

open CLib Endian Positions

/-- From the first digit on, in a string of `slen` bytes. The loop over the digits is the
one of `string2ll`. -/
def lpStringToInt64Digits (slen : ℕ) (negative : Bool) : Bytes → Option ℤ
  | [] => none
  | c :: cs =>
    if 49 ≤ c ∧ c ≤ 57 then
      match string2llLoop (c.toNat - 48) cs with
      | some (v, []) =>
        if negative then
          if v > 2 ^ 63 then none else some (-(v : ℤ))
        else if v > 2 ^ 63 - 1 then none else some (v : ℤ)
      | _ => none
    else if c = 48 ∧ slen = 1 then some 0
    else none

/-- `lpStringToInt64(s, slen, &value)`: `none` is the return value 0. -/
def lpStringToInt64 (s : Bytes) : Option ℤ :=
  match s with
  | [] => none
  | [48] => some 0
  | 45 :: t => lpStringToInt64Digits s.length true t
  | t => lpStringToInt64Digits s.length false t

/-! ### The block

A listpack is one block; a pointer into it is an offset. `none` is an access outside of the
block or a loop that does not end. -/

def LP_HDR_SIZE : ℕ := 6
def LP_HDR_NUMELE_UNKNOWN : ℕ := 65535
def LP_ENCODING_6BIT_STR : ℕ := 0x80
def LP_ENCODING_13BIT_INT : ℕ := 0xC0
def LP_ENCODING_12BIT_STR : ℕ := 0xE0
def LP_ENCODING_32BIT_STR : UInt8 := 0xF0
def LP_ENCODING_16BIT_INT : UInt8 := 0xF1
def LP_ENCODING_24BIT_INT : UInt8 := 0xF2
def LP_ENCODING_32BIT_INT : UInt8 := 0xF3
def LP_ENCODING_64BIT_INT : UInt8 := 0xF4
def LP_EOF : UInt8 := 0xFF

def lpGetTotalBytes (lp : Bytes) : Option ℕ := (Memory.read lp 0 4).map leVal

def lpGetNumElements (lp : Bytes) : Option ℕ := (Memory.read lp 4 2).map leVal

def lpSetTotalBytes (lp : Bytes) (v : ℕ) : Option Bytes := Memory.write lp 0 (leBytes 4 v)

def lpSetNumElements (lp : Bytes) (v : ℕ) : Option Bytes := Memory.write lp 4 (leBytes 2 v)

def lpNew : Bytes := leBytes 4 (LP_HDR_SIZE + 1) ++ leBytes 2 0 ++ [LP_EOF]

/-! ### Encoding an element -/

/-- `intenc` as `lpEncodeGetType` fills it. -/
def lpEncodeInteger (v : ℤ) : Bytes :=
  if v ≥ 0 ∧ v ≤ 127 then [UInt8.ofNat v.toNat]
  else if v ≥ -4096 ∧ v ≤ 4095 then
    let v := (if v < 0 then 2 ^ 13 + v else v).toNat
    [UInt8.ofNat ((v >>> 8) ||| LP_ENCODING_13BIT_INT), UInt8.ofNat (v &&& 0xff)]
  else if v ≥ -32768 ∧ v ≤ 32767 then
    LP_ENCODING_16BIT_INT :: leBytes 2 (if v < 0 then 2 ^ 16 + v else v).toNat
  else if v ≥ -8388608 ∧ v ≤ 8388607 then
    LP_ENCODING_24BIT_INT :: leBytes 3 (if v < 0 then 2 ^ 24 + v else v).toNat
  else if v ≥ -2147483648 ∧ v ≤ 2147483647 then
    LP_ENCODING_32BIT_INT :: leBytes 4 (if v < 0 then 2 ^ 32 + v else v).toNat
  else LP_ENCODING_64BIT_INT :: leBytes 8 (v % 2 ^ 64).toNat

/-- `lpEncodeGetType`: the integer encoding, if there is one, and `enclen`. The size of a
string is an `uint32_t`, and so is the sum. -/
def lpEncodeGetType (ele : Bytes) : Option Bytes × ℕ :=
  match lpStringToInt64 ele with
  | some v => (some (lpEncodeInteger v), (lpEncodeInteger v).length)
  | none =>
    (none, if ele.length < 64 then 1 + ele.length
      else if ele.length < 4096 then 2 + ele.length else (5 + ele.length) % 2 ^ 32)

/-- `lpEncodeBacklen`: the bytes that it stores; it returns their number. -/
def lpEncodeBacklen (l : ℕ) : Bytes :=
  if l ≤ 127 then [UInt8.ofNat l]
  else if l < 16383 then [UInt8.ofNat (l >>> 7), UInt8.ofNat ((l &&& 127) ||| 128)]
  else if l < 2097151 then
    [UInt8.ofNat (l >>> 14), UInt8.ofNat ((l >>> 7 &&& 127) ||| 128), UInt8.ofNat ((l &&& 127) ||| 128)]
  else if l < 268435455 then
    [UInt8.ofNat (l >>> 21), UInt8.ofNat ((l >>> 14 &&& 127) ||| 128), UInt8.ofNat ((l >>> 7 &&& 127) ||| 128),
      UInt8.ofNat ((l &&& 127) ||| 128)]
  else
    [UInt8.ofNat (l >>> 28), UInt8.ofNat ((l >>> 21 &&& 127) ||| 128), UInt8.ofNat ((l >>> 14 &&& 127) ||| 128),
      UInt8.ofNat ((l >>> 7 &&& 127) ||| 128), UInt8.ofNat ((l &&& 127) ||| 128)]

/-- The loop of `lpDecodeBacklen`, which has at most five rounds. -/
def lpDecodeBacklenLoop (lp : Bytes) : ℕ → ℕ → ℕ → ℕ → Option ℕ
  | 0, _, _, _ => none
  | fuel + 1, p, shift, val =>
    lp[p]?.bind fun b =>
      let val := val ||| ((b.toNat &&& 127) <<< shift)
      if b.toNat &&& 128 = 0 then some val
      else if shift + 7 > 28 then some (2 ^ 64 - 1)
      else if p = 0 then none
      else lpDecodeBacklenLoop lp fuel (p - 1) (shift + 7) val

def lpDecodeBacklen (lp : Bytes) (p : ℕ) : Option ℕ := lpDecodeBacklenLoop lp 5 p 0 0

def lpEncodeString (s : Bytes) : Bytes :=
  if s.length < 64 then UInt8.ofNat (s.length ||| LP_ENCODING_6BIT_STR) :: s
  else if s.length < 4096 then
    UInt8.ofNat ((s.length >>> 8) ||| LP_ENCODING_12BIT_STR) :: UInt8.ofNat (s.length &&& 0xff) :: s
  else LP_ENCODING_32BIT_STR :: (leBytes 4 s.length ++ s)

/-- The first of the tests `LP_ENCODING_IS_...` that holds of a byte. -/
inductive LpKind
  | uint7
  | str6
  | int13
  | int16
  | int24
  | int32
  | int64
  | str12
  | str32
  | unknown
  deriving DecidableEq

def lpKind (b : UInt8) : LpKind :=
  if b.toNat &&& 0x80 = 0 then .uint7
  else if b.toNat &&& 0xC0 = LP_ENCODING_6BIT_STR then .str6
  else if b.toNat &&& 0xE0 = LP_ENCODING_13BIT_INT then .int13
  else if b = LP_ENCODING_16BIT_INT then .int16
  else if b = LP_ENCODING_24BIT_INT then .int24
  else if b = LP_ENCODING_32BIT_INT then .int32
  else if b = LP_ENCODING_64BIT_INT then .int64
  else if b.toNat &&& 0xF0 = LP_ENCODING_12BIT_STR then .str12
  else if b = LP_ENCODING_32BIT_STR then .str32
  else .unknown

/-- `LP_ENCODING_12BIT_STR_LEN(p)` -/
def lp12BitStrLen (lp : Bytes) (p : ℕ) : Option ℕ :=
  lp[p]?.bind fun b => lp[p + 1]?.map fun b' => ((b.toNat &&& 0xF) <<< 8) ||| b'.toNat

/-- `LP_ENCODING_32BIT_STR_LEN(p)` -/
def lp32BitStrLen (lp : Bytes) (p : ℕ) : Option ℕ := (Memory.read lp (p + 1) 4).map leVal

/-- `lpCurrentEncodedSize`, an `uint32_t`. -/
def lpCurrentEncodedSize (lp : Bytes) (p : ℕ) : Option ℕ :=
  lp[p]?.bind fun b =>
    match lpKind b with
    | .uint7 => some 1
    | .str6 => some (1 + (b.toNat &&& 0x3F))
    | .int13 => some 2
    | .int16 => some 3
    | .int24 => some 4
    | .int32 => some 5
    | .int64 => some 9
    | .str12 => (lp12BitStrLen lp p).map (2 + ·)
    | .str32 => (lp32BitStrLen lp p).map fun len => (5 + len) % 2 ^ 32
    | .unknown => if b = LP_EOF then some 1 else some 0

/-! ### Traversal -/

def lpSkip (lp : Bytes) (p : ℕ) : Option ℕ :=
  (lpCurrentEncodedSize lp p).map fun entrylen => p + (entrylen + (lpEncodeBacklen entrylen).length)

/-- A pointer of the program that may be `NULL`. -/
abbrev LpPtr := Option ℕ

def lpNext (lp : Bytes) (p : ℕ) : Option LpPtr :=
  (lpSkip lp p).bind fun p => lp[p]?.map fun b => if b = LP_EOF then none else some p

def lpPrev (lp : Bytes) (p : ℕ) : Option LpPtr :=
  if p = LP_HDR_SIZE then some none
  else if p = 0 then none
  else
    (lpDecodeBacklen lp (p - 1)).bind fun prevlen =>
      let prevlen := (prevlen + (lpEncodeBacklen prevlen).length) % 2 ^ 64
      if prevlen ≤ p then some (some (p - prevlen)) else none

def lpFirst (lp : Bytes) : Option LpPtr :=
  lp[LP_HDR_SIZE]?.map fun b => if b = LP_EOF then none else some LP_HDR_SIZE

def lpLast (lp : Bytes) : Option LpPtr :=
  (lpGetTotalBytes lp).bind fun bytes => if bytes = 0 then none else lpPrev lp (bytes - 1)

/-- The loop of `lpLength`; each round is at a later place of the block. -/
def lpCount (lp : Bytes) : ℕ → LpPtr → ℕ → Option ℕ
  | _, none, count => some count
  | 0, some _, _ => none
  | fuel + 1, some p, count => (lpNext lp p).bind fun p => lpCount lp fuel p ((count + 1) % 2 ^ 32)

/-- `lpLength`, which may store the number in the header. -/
def lpLength (lp : Bytes) : Option (Bytes × ℕ) :=
  (lpGetNumElements lp).bind fun numele =>
    if numele ≠ LP_HDR_NUMELE_UNKNOWN then some (lp, numele)
    else
      (lpFirst lp).bind fun p =>
        (lpCount lp lp.length p 0).bind fun count =>
          if count < LP_HDR_NUMELE_UNKNOWN then (lpSetNumElements lp count).map fun lp => (lp, count)
          else some (lp, count)

/-- `while (index > 0 && ele)` -/
def lpSeekForward (lp : Bytes) : ℕ → LpPtr → Option LpPtr
  | 0, ele => some ele
  | _ + 1, none => some none
  | index + 1, some ele => (lpNext lp ele).bind (lpSeekForward lp index)

/-- `while (index < -1 && ele)`, with `-1 - index` rounds left. -/
def lpSeekBackward (lp : Bytes) : ℕ → LpPtr → Option LpPtr
  | 0, ele => some ele
  | _ + 1, none => some none
  | rounds + 1, some ele => (lpPrev lp ele).bind (lpSeekBackward lp rounds)

def lpSeek (lp : Bytes) (index : ℤ) : Option LpPtr :=
  let forward (index : ℤ) := (lpFirst lp).bind (lpSeekForward lp index.toNat)
  let backward (index : ℤ) := (lpLast lp).bind (lpSeekBackward lp (-1 - index).toNat)
  (lpGetNumElements lp).bind fun numele =>
    if numele ≠ LP_HDR_NUMELE_UNKNOWN then
      let index := if index < 0 then (numele : ℤ) + index else index
      if index < 0 then some none
      else if index ≥ numele then some none
      else if index > (numele / 2 : ℕ) then backward (index - numele)
      else forward index
    else if index < 0 then backward index
    else forward index

/-! ### Reading an element -/

/-- What `lpGet` returns: a string, or without a buffer an integer. -/
inductive LpValue
  | string (s : Bytes)
  | integer (val : ℤ)
  deriving DecidableEq

/-- From the unsigned to the signed value. -/
def lpSigned (uval negstart negmax : ℕ) : ℤ := if uval ≥ negstart then -((negmax : ℤ) - uval) - 1 else uval

/-- `lpGet`; a number is printed if there is a buffer for it. -/
def lpGet (lp : Bytes) (p : ℕ) (intbuf : Bool) : Option LpValue :=
  let number (val : ℤ) : LpValue := if intbuf then .string (decimal val) else .integer val
  lp[p]?.bind fun b =>
    match lpKind b with
    | .uint7 => some (number (lpSigned (b.toNat &&& 0x7f) (2 ^ 64 - 1) 0))
    | .str6 => (Memory.read lp (p + 1) (b.toNat &&& 0x3F)).map .string
    | .int13 =>
      lp[p + 1]?.map fun b' => number (lpSigned (((b.toNat &&& 0x1f) <<< 8) ||| b'.toNat) (2 ^ 12) 8191)
    | .int16 => (Memory.read lp (p + 1) 2).map fun bs => number (lpSigned (leVal bs) (2 ^ 15) (2 ^ 16 - 1))
    | .int24 => (Memory.read lp (p + 1) 3).map fun bs => number (lpSigned (leVal bs) (2 ^ 23) ((2 ^ 32 - 1) >>> 8))
    | .int32 => (Memory.read lp (p + 1) 4).map fun bs => number (lpSigned (leVal bs) (2 ^ 31) (2 ^ 32 - 1))
    | .int64 => (Memory.read lp (p + 1) 8).map fun bs => number (lpSigned (leVal bs) (2 ^ 63) (2 ^ 64 - 1))
    | .str12 => (lp12BitStrLen lp p).bind fun len => (Memory.read lp (p + 2) len).map .string
    | .str32 => (lp32BitStrLen lp p).bind fun len => (Memory.read lp (p + 5) len).map .string
    | .unknown => some (number (lpSigned (12345678900000000 + b.toNat) (2 ^ 64 - 1) 0))

/-! ### Changing the list -/

inductive LpWhere
  | before
  | after
  | replace
  deriving DecidableEq

/-- The size of the entry that is replaced, with its back length. -/
def lpReplacedLen (lp : Bytes) (p : ℕ) : Option ℕ :=
  (lpCurrentEncodedSize lp p).map fun len => (len + (lpEncodeBacklen len).length) % 2 ^ 32

def lpUpdateNumElements (lp : Bytes) (inserted : Bool) : Option Bytes :=
  (lpGetNumElements lp).bind fun num_elements =>
    if num_elements ≠ LP_HDR_NUMELE_UNKNOWN then
      if inserted then lpSetNumElements lp (num_elements + 1) else lpSetNumElements lp (num_elements - 1)
    else some lp

/-- The element and its back length in the room that has been made for them. -/
def lpStore (lp : Bytes) (dst : ℕ) (ele : Bytes) : Option Bytes :=
  let (intenc, enclen) := lpEncodeGetType ele
  (Memory.write lp dst (intenc.getD (lpEncodeString ele))).bind fun lp =>
    Memory.write lp (dst + enclen) (lpEncodeBacklen enclen)

/-- The last part of `lpInsert`: `*newp`, the element in its room, and the header. -/
def lpFill (lp : Bytes) (ele : Option Bytes) (replace : Bool) (poff new_listpack_bytes : ℕ) :
    Option (Bytes × LpPtr) :=
  lp[poff]?.bind fun b =>
    let newp := if ele.isNone ∧ b = LP_EOF then none else some poff
    (ele.elim (some lp) (lpStore lp poff)).bind fun lp =>
      (if !replace ∨ ele.isNone then lpUpdateNumElements lp ele.isSome else some lp).bind fun lp =>
        (lpSetTotalBytes lp new_listpack_bytes).map fun lp => (lp, newp)

/-- The part of `lpInsert` from where the place and the sizes are known. -/
def lpInsertAt (lp : Bytes) (ele : Option Bytes) (replace : Bool) (poff old_listpack_bytes replaced_len : ℕ) :
    Option (Option (Bytes × LpPtr)) :=
  let enclen := ele.elim 0 fun s => (lpEncodeGetType s).2
  let backlen_size := ele.elim 0 fun s => (lpEncodeBacklen (lpEncodeGetType s).2).length
  let new_listpack_bytes := old_listpack_bytes + enclen + backlen_size - replaced_len
  if new_listpack_bytes > 2 ^ 32 - 1 then some none
  else
    let lp := if new_listpack_bytes > old_listpack_bytes then Memory.realloc 0 lp new_listpack_bytes else lp
    (Memory.move lp (poff + enclen + backlen_size) (poff + replaced_len)
      (old_listpack_bytes - poff - replaced_len)).bind fun lp =>
      let lp := if new_listpack_bytes < old_listpack_bytes then Memory.realloc 0 lp new_listpack_bytes else lp
      (lpFill lp ele replace poff new_listpack_bytes).map some

/-- `lpInsert`; without an element it deletes. The result is `NULL`, or the block with the
value of `*newp`. -/
def lpInsert (lp : Bytes) (ele : Option Bytes) (p : ℕ) (where_ : LpWhere) : Option (Option (Bytes × LpPtr)) :=
  let where_ := if ele.isNone then .replace else where_
  (if where_ = .after then lpSkip lp p else some p).bind fun poff =>
    (lpGetTotalBytes lp).bind fun old_listpack_bytes =>
      (if where_ = .replace then lpReplacedLen lp poff else some 0).bind fun replaced_len =>
        lpInsertAt lp ele (where_ = .replace) poff old_listpack_bytes replaced_len

def lpAppend (lp ele : Bytes) : Option (Option (Bytes × LpPtr)) :=
  (lpGetTotalBytes lp).bind fun listpack_bytes =>
    if listpack_bytes = 0 then none else lpInsert lp (some ele) (listpack_bytes - 1) .before

def lpDelete (lp : Bytes) (p : ℕ) : Option (Option (Bytes × LpPtr)) := lpInsert lp none p .replace

/-! ### Calls

An element is named by its index, as `lpSeek` takes it. -/

inductive LpOp
  | insert (index : ℤ) (ele : Bytes) (where_ : LpWhere)
  | append (ele : Bytes)
  | delete (index : ℤ)
  | length
  deriving DecidableEq

/-- The block after a call; the old one if the call returns `NULL`. -/
def LpOp.exec (op : LpOp) (lp : Bytes) : Option Bytes :=
  let result (r : Option (Option (Bytes × LpPtr))) : Option Bytes := r.map fun r => (r.map Prod.fst).getD lp
  match op with
  | .insert index ele where_ =>
    (lpSeek lp index).bind fun ele' => ele'.elim (some lp) fun p => result (lpInsert lp (some ele) p where_)
  | .append ele => result (lpAppend lp ele)
  | .delete index => (lpSeek lp index).bind fun ele' => ele'.elim (some lp) fun p => result (lpDelete lp p)
  | .length => (lpLength lp).map Prod.fst

def lpRun : List LpOp → Bytes → Option Bytes
  | [], lp => some lp
  | op :: ops, lp => (op.exec lp).bind (lpRun ops)

def LpOp.apply (op : LpOp) (xs : List Bytes) : List Bytes :=
  match op with
  | .insert index ele .before => (position xs index).elim xs fun i => xs.insertIdx i ele
  | .insert index ele .after => (position xs index).elim xs fun i => xs.insertIdx (i + 1) ele
  | .insert index ele .replace => (position xs index).elim xs fun i => xs.set i ele
  | .append ele => xs ++ [ele]
  | .delete index => (position xs index).elim xs fun i => xs.eraseIdx i
  | .length => xs

end RedisIR
