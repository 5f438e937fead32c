import RedisIR.Lib.Memory
import RedisIR.Lib.CLib
import RedisIR.Lib.Endian

/-! `intset.c` on a little-endian machine. An intset is a block of memory with a header;
`none` is an access outside of the block. -/

namespace RedisIR

open CLib Endian

/-- `is->encoding` -/
inductive IntsetEnc
  | int16
  | int32
  | int64
  deriving DecidableEq, Repr

/-- `INTSET_ENC_INT16`, `INTSET_ENC_INT32` and `INTSET_ENC_INT64` are sizes. -/
def IntsetEnc.size : IntsetEnc → ℕ
  | .int16 => 2
  | .int32 => 4
  | .int64 => 8

structure Intset where
  encoding : IntsetEnc
  length : ℕ
  contents : Bytes
  deriving DecidableEq

def intsetValueEncoding (v : ℤ) : IntsetEnc :=
  if v < -2 ^ 31 ∨ v > 2 ^ 31 - 1 then .int64
  else if v < -2 ^ 15 ∨ v > 2 ^ 15 - 1 then .int32
  else .int16

/-- `_intsetGetEncoded`; the position is an `int`. -/
def Intset.getEncoded (is : Intset) (pos : ℤ) (enc : IntsetEnc) : Option ℤ :=
  if pos < 0 then none else (Memory.read is.contents (pos.toNat * enc.size) enc.size).map intVal

def Intset.get (is : Intset) (pos : ℤ) : Option ℤ := is.getEncoded pos is.encoding

/-- `_intsetSet` -/
def Intset.set (is : Intset) (pos : ℤ) (value : ℤ) : Option Intset :=
  if pos < 0 then none
  else
    (Memory.write is.contents (pos.toNat * is.encoding.size) (intBytes is.encoding.size value)).map fun contents =>
      { is with contents := contents }

def intsetNew : Intset := ⟨.int16, 0, []⟩

def intsetResize (is : Intset) (len : ℕ) : Intset :=
  { is with contents := Memory.realloc 0 is.contents (len * is.encoding.size % 2 ^ 32) }

/-- The loop of `intsetSearch`; it ends with `min`, `mid` and `cur`. -/
def Intset.searchLoop (is : Intset) (value : ℤ) : ℕ → ℤ → ℤ → ℤ → ℤ → Option (ℤ × ℤ × ℤ)
  | 0, _, _, _, _ => none
  | fuel + 1, min, max, mid, cur =>
    if max ≥ min then do
      let mid := (min % 2 ^ 32 + max % 2 ^ 32) % 2 ^ 32 / 2
      let cur ← is.get mid
      if value > cur then is.searchLoop value fuel (mid + 1) max mid cur
      else if value < cur then is.searchLoop value fuel min (mid - 1) mid cur
      else some (min, mid, cur)
    else some (min, mid, cur)

/-- Whether the value is there, and its position or the one where it belongs. -/
def intsetSearch (is : Intset) (value : ℤ) : Option (Bool × ℕ) :=
  let max := wrapInt (is.length - 1)
  if is.length = 0 then some (false, 0)
  else do
    let last ← is.get max
    if value > last then some (false, is.length)
    else
      let first ← is.get 0
      if value < first then some (false, 0)
      else
        let (min, mid, cur) ← is.searchLoop value (is.length + 1) 0 max (-1) (-1)
        if value = cur then some (true, (mid % 2 ^ 32).toNat) else some (false, (min % 2 ^ 32).toNat)

/-- The loop that rewrites the values from the last to the first. -/
def Intset.upgradeLoop (curenc : IntsetEnc) (prepend : ℕ) : ℕ → Intset → Option Intset
  | 0, is => some is
  | length + 1, is => do
    let value ← is.getEncoded length curenc
    let is ← is.set (length + prepend) value
    upgradeLoop curenc prepend length is

def intsetUpgradeAndAdd (is : Intset) (value : ℤ) : Option Intset := do
  let curenc := is.encoding
  let length := wrapInt is.length
  let prepend := if value < 0 then 1 else 0
  let is := intsetResize { is with encoding := intsetValueEncoding value } ((is.length + 1) % 2 ^ 32)
  -- a negative length would count down through positions before the block
  let is ← (if length < 0 then none else is.upgradeLoop curenc prepend length.toNat)
  let is ← is.set (if value < 0 then 0 else wrapInt is.length) value
  return { is with length := (is.length + 1) % 2 ^ 32 }

def intsetMoveTail (is : Intset) (fromPos toPos : ℕ) : Option Intset :=
  let size := is.encoding.size
  let bytes := ((is.length : ℤ) - fromPos) % 2 ^ 32 * size % 2 ^ 32
  (Memory.move is.contents (toPos * size) (fromPos * size) bytes.toNat).map fun contents =>
    { is with contents := contents }

/-- The new set and `*success`. -/
def intsetAdd (is : Intset) (value : ℤ) : Option (Intset × Bool) :=
  if (intsetValueEncoding value).size > is.encoding.size then do
    return (← intsetUpgradeAndAdd is value, true)
  else do
    let (found, pos) ← intsetSearch is value
    if found then return (is, false)
    let is := intsetResize is ((is.length + 1) % 2 ^ 32)
    let is ← (if pos < is.length then intsetMoveTail is pos (pos + 1) else some is)
    let is ← is.set (wrapInt pos) value
    return ({ is with length := (is.length + 1) % 2 ^ 32 }, true)

def intsetRemove (is : Intset) (value : ℤ) : Option (Intset × Bool) :=
  if (intsetValueEncoding value).size ≤ is.encoding.size then do
    let (found, pos) ← intsetSearch is value
    if found then
      let len := is.length
      let is ← (if pos < len - 1 then intsetMoveTail is (pos + 1) pos else some is)
      return ({ intsetResize is (len - 1) with length := len - 1 }, true)
    else return (is, false)
  else return (is, false)

def intsetFind (is : Intset) (value : ℤ) : Option Bool :=
  if (intsetValueEncoding value).size ≤ is.encoding.size then (intsetSearch is value).map Prod.fst else some false

/-- `some none` is the return value 0. -/
def intsetGet (is : Intset) (pos : ℕ) : Option (Option ℤ) :=
  if pos < is.length then (is.get (wrapInt pos)).map some else some none

/-! ### Runs -/

inductive IntsetOp
  | add (value : ℤ)
  | remove (value : ℤ)
  | find (value : ℤ)
  deriving DecidableEq, Repr

def IntsetOp.value : IntsetOp → ℤ
  | .add v | .remove v | .find v => v

def IntsetOp.run (is : Intset) : IntsetOp → Option (Intset × Bool)
  | .add v => intsetAdd is v
  | .remove v => intsetRemove is v
  | .find v => (intsetFind is v).map fun r => (is, r)

def intsetRun : List IntsetOp → Intset → Option (Intset × List Bool)
  | [], is => some (is, [])
  | op :: ops, is =>
    (op.run is).bind fun r => (intsetRun ops r.1).map fun r' => (r'.1, r.2 :: r'.2)

/-! ### What an intset is for -/

def IntsetEnc.wider (e e' : IntsetEnc) : IntsetEnc := if e'.size > e.size then e' else e

/-- A finite set, with the widest encoding that it has needed so far. -/
def IntsetOp.apply : IntsetOp → Finset ℤ × IntsetEnc → (Finset ℤ × IntsetEnc) × List Bool
  | .add v, (s, e) => ((insert v s, e.wider (intsetValueEncoding v)), [decide (v ∉ s)])
  | .remove v, (s, e) => ((s.erase v, e), [decide (v ∈ s)])
  | .find v, (s, e) => ((s, e), [decide (v ∈ s)])

def IntsetOp.Small (st : Finset ℤ × IntsetEnc) : IntsetOp → Prop
  | .add v => (insert v st.1).card * (st.2.wider (intsetValueEncoding v)).size < 2 ^ 32
  | _ => True

instance (st : Finset ℤ × IntsetEnc) (op : IntsetOp) : Decidable (op.Small st) :=
  match op with
  | .add _ => inferInstanceAs (Decidable (_ < _))
  | .remove _ => isTrue trivial
  | .find _ => isTrue trivial

end RedisIR
