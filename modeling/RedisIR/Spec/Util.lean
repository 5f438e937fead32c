import RedisIR.Lib.CLib

/-! `util.c`: decimal conversion of 64-bit integers. -/

namespace RedisIR

open CLib

def LLONG_MIN : ℤ := -2 ^ 63
def LLONG_MAX : ℤ := 2 ^ 63 - 1
def ULLONG_MAX : ℕ := 2 ^ 64 - 1

/-- The recursion of `digits10` divides by `10 ^ 12`, so `fuel` above the argument is enough. -/
def digits10Loop : ℕ → ℕ → ℕ
  | 0, _ => 0
  | fuel + 1, v =>
    if v < 10 then 1
    else if v < 100 then 2
    else if v < 1000 then 3
    else if v < 1000000000000 then
      if v < 100000000 then
        if v < 1000000 then
          if v < 10000 then 4
          else 5 + (if v ≥ 100000 then 1 else 0)
        else 7 + (if v ≥ 10000000 then 1 else 0)
      else if v < 10000000000 then 9 + (if v ≥ 1000000000 then 1 else 0)
      else 11 + (if v ≥ 100000000000 then 1 else 0)
    else 12 + digits10Loop fuel (v / 1000000000000)

def digits10 (v : ℕ) : ℕ := digits10Loop (v + 1) v

/-- `sdigits10`: one more for the minus sign. -/
def sdigits10 (v : ℤ) : ℕ := if v < 0 then digits10 v.natAbs + 1 else digits10 v.natAbs

/-- `static const char digits[201]`: the two digits of each number below a hundred. -/
def digitPairs : Bytes := (List.range 100).flatMap fun n => [digitByte (n / 10), digitByte (n % 10)]

/-- The `while (value >= 100)` loop and the last one or two digits, which fill `dst`
from `next` towards the front. -/
def ll2stringLoop : ℕ → ℕ → ℕ → Bytes → Bytes
  | 0, _, _, dst => dst
  | fuel + 1, value, next, dst =>
    if value ≥ 100 then
      let i := (value % 100) * 2
      ll2stringLoop fuel (value / 100) (next - 2)
        ((dst.set next (digitPairs.getD (i + 1) 0)).set (next - 1) (digitPairs.getD i 0))
    else if value < 10 then dst.set next (digitByte value)
    else
      let i := value * 2
      (dst.set next (digitPairs.getD (i + 1) 0)).set (next - 1) (digitPairs.getD i 0)

/-- `ll2string(dst, dstlen, svalue)`: the bytes written before the terminator, none of
them when they do not fit. -/
def ll2string (dstlen : ℕ) (svalue : ℤ) : Bytes :=
  let value := svalue.natAbs
  let negative := if svalue < 0 then 1 else 0
  let length := digits10 value + negative
  if length ≥ dstlen then []
  else
    let dst := ll2stringLoop (value + 1) value (length - 1) (List.replicate length 0)
    if svalue < 0 then dst.set 0 45 else dst

/-- The digit loop of `string2ll`, with its two overflow tests; `none` is overflow. -/
def string2llLoop (v : ℕ) : Bytes → Option (ℕ × Bytes)
  | [] => some (v, [])
  | c :: cs =>
    if isdigit c then
      if v > ULLONG_MAX / 10 then none
      else if v * 10 > ULLONG_MAX - (c.toNat - 48) then none
      else string2llLoop (v * 10 + (c.toNat - 48)) cs
    else some (v, c :: cs)

/-- From the first digit on: it must be 1 to 9 and nothing may follow the digits. -/
def string2llDigits (negative : Bool) : Bytes → Option ℤ
  | [] => none
  | c :: cs =>
    if 49 ≤ c ∧ c ≤ 57 then
      match string2llLoop (c.toNat - 48) cs with
      | some (v, []) =>
        if negative then
          if v > 2 ^ 63 then none else some (-(v : ℤ))
        else if v > 2 ^ 63 - 1 then none else some (v : ℤ)
      | _ => none
    else none

/-- `string2ll(s, slen, &value)`: `none` is the return value 0. -/
def string2ll (s : Bytes) : Option ℤ :=
  match s with
  | [] => none
  | [48] => some 0
  | 45 :: t => string2llDigits true t
  | t => string2llDigits false t

end RedisIR
