import RedisIR.Lib.Bits
import RedisIR.Spec.Strings

/-! `bitops.c`: integers of up to 64 bits at any place of a string, and the commands `SETBIT`
and `BITFIELD`. `none` is undefined behaviour: a shift by 64 or more, or an access outside of
the string. -/

namespace RedisIR

open CLib

/-- A left shift of a `uint64_t`. -/
def shl64 (x : BitVec 64) (n : ℕ) : Option (BitVec 64) := if n < 64 then some (x <<< n) else none

/-- The byte with one bit replaced, as it is computed in a word of `w` bits. -/
def putBit (w : ℕ) (byteval : UInt8) (bit : ℕ) (bitval : Bool) : UInt8 :=
  let v : BitVec w := byteval.toBitVec.setWidth w
  let v := v &&& ~~~(1#w <<< bit)
  let v := v ||| (BitVec.ofBool bitval).setWidth w <<< bit
  .ofBitVec (v.setWidth 8)

/-- The loop of `setUnsignedBitfield` for the last bits of `value`. The offset does not leave
the `uint64_t`: no string has `2 ^ 61` bytes. -/
def setUnsignedBitfieldLoop (value : BitVec 64) : ℕ → ℕ → Bytes → Option Bytes
  | 0, _, p => some p
  | n + 1, offset, p =>
    (shl64 1 n).bind fun mask =>
      let bitval := decide (value &&& mask ≠ 0)
      let byte := offset / 8
      let bit := 7 - offset % 8
      match p[byte]? with
      | none => none
      | some byteval => setUnsignedBitfieldLoop value n (offset + 1) (p.set byte (putBit 64 byteval bit bitval))

def setUnsignedBitfield (p : Bytes) (offset bits : ℕ) (value : BitVec 64) : Option Bytes :=
  setUnsignedBitfieldLoop value bits offset p

/-- The conversion adds `UINT64_MAX + 1` to a negative value. -/
def setSignedBitfield (p : Bytes) (offset bits : ℕ) (value : ℤ) : Option Bytes :=
  setUnsignedBitfield p offset bits (.ofInt 64 value)

def getUnsignedBitfieldLoop (p : Bytes) : ℕ → ℕ → BitVec 64 → Option (BitVec 64)
  | 0, _, value => some value
  | n + 1, offset, value =>
    match p[offset / 8]? with
    | none => none
    | some byteval =>
      let bitval := (byteval.toBitVec.setWidth 64 >>> (7 - offset % 8)) &&& 1
      getUnsignedBitfieldLoop p n (offset + 1) ((value <<< 1) ||| bitval)

def getUnsignedBitfield (p : Bytes) (offset bits : ℕ) : Option (BitVec 64) :=
  getUnsignedBitfieldLoop p bits offset 0

def getSignedBitfield (p : Bytes) (offset bits : ℕ) : Option ℤ :=
  (getUnsignedBitfield p offset bits).bind fun value =>
    (shl64 1 (bits - 1)).bind fun msb =>
      if value &&& msb ≠ 0 then (shl64 (-1) bits).map fun mask => (value ||| mask).toInt
      else some value.toInt

/-- `BFOVERFLOW_WRAP`, `BFOVERFLOW_SAT` and `BFOVERFLOW_FAIL` -/
inductive OwType
  | wrap
  | sat
  | fail
  deriving DecidableEq, Repr

/-- The return value, and `*limit` if it is written. -/
def checkUnsignedBitfieldOverflow (value : BitVec 64) (incr : ℤ) (bits : ℕ) (owtype : OwType) :
    Option (ℤ × Option (BitVec 64)) :=
  (if bits = 64 then some (-1) else (shl64 1 bits).map (· - 1)).bind fun max =>
    let maxincr := (max - value).toInt
    let minincr := (-value).toInt
    let handleWrap := (shl64 (-1) bits).map fun mask => ((1 : ℤ), some ((value + .ofInt 64 incr) &&& ~~~mask))
    if value > max ∨ (incr > 0 ∧ incr > maxincr) then
      match owtype with
      | .wrap => handleWrap
      | .sat => some (1, some max)
      | .fail => some (1, none)
    else if incr < 0 ∧ incr < minincr then
      match owtype with
      | .wrap => handleWrap
      | .sat => some (-1, some 0)
      | .fail => some (-1, none)
    else some (0, none)

/-- The differences are those of the machine, whatever `value` is. -/
def checkSignedBitfieldOverflow (value incr : ℤ) (bits : ℕ) (owtype : OwType) : Option (ℤ × Option ℤ) :=
  let max : ℤ := if bits = 64 then LLONG_MAX else 2 ^ (bits - 1) - 1
  let min : ℤ := -max - 1
  let maxincr := wrapLongLong (max - value)
  let minincr := wrapLongLong (min - value)
  let handleWrap :=
    (shl64 (-1) bits).bind fun mask =>
      (shl64 1 (bits - 1)).map fun msb =>
        let c := BitVec.ofInt 64 value + BitVec.ofInt 64 incr
        ((1 : ℤ), some (if c &&& msb ≠ 0 then c ||| mask else c &&& ~~~mask).toInt)
  if value > max ∨ (bits ≠ 64 ∧ incr > maxincr) ∨ (value ≥ 0 ∧ incr > 0 ∧ incr > maxincr) then
    match owtype with
    | .wrap => handleWrap
    | .sat => some (1, some max)
    | .fail => some (1, none)
  else if value < min ∨ (bits ≠ 64 ∧ incr < minincr) ∨ (value < 0 ∧ incr < 0 ∧ incr < minincr) then
    match owtype with
    | .wrap => handleWrap
    | .sat => some (-1, some min)
    | .fail => some (-1, none)
  else some (0, none)

/-! ### The arguments of the commands -/

/-- `i1` to `i64` and `u1` to `u63`. -/
structure BitfieldType where
  sign : Bool
  bits : ℕ
  bits_pos : 1 ≤ bits
  bits_le : bits ≤ if sign then 64 else 63

def badOffset : String := "bit offset is not an integer or out of range"

/-- `getBitOffsetFromArgument`: with `#` (and `hash`) the offset counts fields of `bits` bits. -/
def getBitOffsetFromArgument (o : Bytes) (hash : Bool) (bits : ℕ) : Except String ℕ :=
  let usehash := o.head? = some 35 ∧ hash = true ∧ 0 < bits
  match string2ll (if usehash then o.tail else o) with
  | none => .error badOffset
  | some loffset =>
    let loffset := if usehash then wrapLongLong (loffset * bits) else loffset
    if loffset < 0 ∨ 512 * 1024 * 1024 ≤ loffset.toNat / 8 then .error badOffset else .ok loffset.toNat

def badType : String :=
  "Invalid bitfield type. Use something like i16 u8. Note that u64 is not supported but i64 is."

/-- The letter of the sign and the number of bits, which ends at a NUL. -/
def getBitfieldTypeFromArgument (o : Bytes) : Except String BitfieldType :=
  match o with
  | [] => .error badType
  | c :: t =>
    if c = 105 ∨ c = 117 then
      let sign : Bool := c = 105
      match string2ll (cstr t).val with
      | none => .error badType
      | some llbits =>
        if h : 1 ≤ llbits.toNat ∧ llbits.toNat ≤ if sign then 64 else 63 then
          .ok ⟨sign, llbits.toNat, h.1, h.2⟩
        else .error badType
    else .error badType

/-- The string of the key, made or filled up so that the bit `maxbit` is in it. -/
def lookupStringForBitCommand (k : Bytes) (maxbit : ℕ) (db : Db) : Bytes :=
  sdsgrowzero ((db k).getD []) (maxbit / 8 + 1)

def setbitCommand (k off bit : Bytes) (db : Db) : Option CommandEffect :=
  let err := "bit is not an integer or out of range"
  match getBitOffsetFromArgument off false 0 with
  | .error msg => some (.error db msg)
  | .ok bitoffset =>
    match string2ll bit with
    | none => some (.error db err)
    | some on =>
      if on ≠ 0 ∧ on ≠ 1 then some (.error db err)
      else
        let s := lookupStringForBitCommand k bitoffset db
        (s[bitoffset / 8]?).map fun byteval =>
          let old := byteval.toBitVec.getLsbD (7 - bitoffset % 8)
          ⟨setKey db k (s.set (bitoffset / 8) (putBit 32 byteval (7 - bitoffset % 8) (on = 1))),
            [.int old.toNat], 1⟩

/-! ### BITFIELD -/

inductive BitfieldOpcode
  | get
  | set
  | incrby
  deriving DecidableEq, Repr

/-- `struct bitfieldOp` -/
structure BitfieldOp where
  opcode : BitfieldOpcode
  type : BitfieldType
  offset : ℕ
  i64 : ℤ
  owtype : OwType

structure BitfieldArgs where
  ops : List BitfieldOp
  readonly : Bool
  highestWriteOffset : ℕ

def GET_WORD : Bytes := ascii ['G', 'E', 'T']
def SET_WORD : Bytes := ascii ['S', 'E', 'T']
def INCRBY_WORD : Bytes := ascii ['I', 'N', 'C', 'R', 'B', 'Y']
def OVERFLOW_WORD : Bytes := ascii ['O', 'V', 'E', 'R', 'F', 'L', 'O', 'W']

def owtypeOfName (name : Bytes) : Option OwType :=
  if isWord name (ascii ['W', 'R', 'A', 'P']) then some .wrap
  else if isWord name (ascii ['S', 'A', 'T']) then some .sat
  else if isWord name (ascii ['F', 'A', 'I', 'L']) then some .fail
  else none

/-- The subcommand, unless it is `OVERFLOW`; each asks for a number of arguments after it. -/
def opcodeOfName (subcmd : Bytes) (remargs : ℕ) : Option BitfieldOpcode :=
  if isWord subcmd GET_WORD ∧ 2 ≤ remargs then some .get
  else if isWord subcmd SET_WORD ∧ 3 ≤ remargs then some .set
  else if isWord subcmd INCRBY_WORD ∧ 3 ≤ remargs then some .incrby
  else none

/-- One subcommand: its type, its offset and, unless it is `GET`, its value. -/
def parseBitfieldOp (opcode : BitfieldOpcode) (owtype : OwType)
    (type offset value : Bytes) : Except String BitfieldOp :=
  match getBitfieldTypeFromArgument type with
  | .error msg => .error msg
  | .ok type =>
    match getBitOffsetFromArgument offset true type.bits with
    | .error msg => .error msg
    | .ok offset =>
      if opcode = .get then .ok ⟨.get, type, offset, 0, owtype⟩
      else
        match string2ll value with
        | none => .error notInteger
        | some i64 => .ok ⟨opcode, type, offset, i64, owtype⟩

def BitfieldArgs.add (acc : BitfieldArgs) (op : BitfieldOp) : BitfieldArgs :=
  if op.opcode = .get then { acc with ops := acc.ops ++ [op] }
  else ⟨acc.ops ++ [op], false, max acc.highestWriteOffset (op.offset + op.type.bits - 1)⟩

def bitfieldLoop : ℕ → List Bytes → OwType → BitfieldArgs → Except String BitfieldArgs
  | 0, _, _, acc => .ok acc
  | _ + 1, [], _, acc => .ok acc
  | fuel + 1, subcmd :: args, owtype, acc =>
    match opcodeOfName subcmd args.length with
    | some opcode =>
      match parseBitfieldOp opcode owtype (args.getD 0 []) (args.getD 1 []) (args.getD 2 []) with
      | .error msg => .error msg
      | .ok op => bitfieldLoop fuel (args.drop (if opcode = .get then 2 else 3)) owtype (acc.add op)
    | none =>
      if isWord subcmd OVERFLOW_WORD ∧ 1 ≤ args.length then
        match owtypeOfName (args.getD 0 []) with
        | none => .error "Invalid OVERFLOW type specified"
        | some owtype => bitfieldLoop fuel (args.drop 1) owtype acc
      else .error "syntax error"

def bitfieldParse (args : List Bytes) : Except String BitfieldArgs :=
  bitfieldLoop args.length args .wrap ⟨[], true, 0⟩

/-- `SET` and `INCRBY` of a signed type. With `BFOVERFLOW_FAIL` the new value is whatever
`wrapped` holds, and it is not used. -/
def execSigned (op : BitfieldOp) (p : Bytes) : Option (Bytes × Reply) :=
  (getSignedBitfield p op.offset op.type.bits).bind fun oldval =>
    let newval := if op.opcode = .incrby then wrapLongLong (oldval + op.i64) else op.i64
    (if op.opcode = .incrby then checkSignedBitfieldOverflow oldval op.i64 op.type.bits op.owtype
      else checkSignedBitfieldOverflow newval 0 op.type.bits op.owtype).bind fun overflow =>
      let newval := if overflow.1 ≠ 0 then overflow.2.getD newval else newval
      let retval := if op.opcode = .incrby then newval else oldval
      if overflow.1 ≠ 0 ∧ op.owtype = .fail then some (p, .nullBulk)
      else (setSignedBitfield p op.offset op.type.bits newval).map fun p => (p, .int retval)

def execUnsigned (op : BitfieldOp) (p : Bytes) : Option (Bytes × Reply) :=
  (getUnsignedBitfield p op.offset op.type.bits).bind fun oldval =>
    let newval := if op.opcode = .incrby then oldval + .ofInt 64 op.i64 else .ofInt 64 op.i64
    (if op.opcode = .incrby then checkUnsignedBitfieldOverflow oldval op.i64 op.type.bits op.owtype
      else checkUnsignedBitfieldOverflow newval 0 op.type.bits op.owtype).bind fun overflow =>
      let newval := if overflow.1 ≠ 0 then overflow.2.getD newval else newval
      let retval := if op.opcode = .incrby then newval else oldval
      if overflow.1 ≠ 0 ∧ op.owtype = .fail then some (p, .nullBulk)
      else (setUnsignedBitfield p op.offset op.type.bits newval).map fun p => (p, .int retval.toInt)

/-- The local buffer of `GET`: up to nine bytes of the string, filled up with zeros. -/
def getBuf (p : Bytes) (byte : ℕ) : Bytes := (List.range 9).map fun i => p.getD (i + byte) 0

def execGet (op : BitfieldOp) (p : Bytes) : Option Reply :=
  let byte := op.offset / 8
  let offset := op.offset - byte * 8
  if op.type.sign then (getSignedBitfield (getBuf p byte) offset op.type.bits).map .int
  else (getUnsignedBitfield (getBuf p byte) offset op.type.bits).map fun v => .int v.toInt

def BitfieldOp.exec (op : BitfieldOp) (p : Bytes) : Option (Bytes × Reply) :=
  if op.opcode = .get then (execGet op p).map fun r => (p, r)
  else if op.type.sign then execSigned op p
  else execUnsigned op p

def bitfieldExec : List BitfieldOp → Bytes → Option (Bytes × List Reply)
  | [], p => some (p, [])
  | op :: ops, p =>
    (op.exec p).bind fun r => (bitfieldExec ops r.1).map fun rs => (rs.1, r.2 :: rs.2)

/-- A command that only reads leaves an absent key absent. -/
def bitfieldCommand (k : Bytes) (args : List Bytes) (db : Db) : Option CommandEffect :=
  match bitfieldParse args with
  | .error msg => some (.error db msg)
  | .ok ⟨ops, readonly, highest⟩ =>
    if readonly then (bitfieldExec ops ((db k).getD [])).map fun r => ⟨db, r.2, 0⟩
    else
      (bitfieldExec ops (lookupStringForBitCommand k highest db)).map fun r =>
        ⟨setKey db k r.1, r.2, ops.countP (·.opcode ≠ .get)⟩

/-! ### What the fields are for -/

namespace BitfieldType

variable (t : BitfieldType)

def lower : ℤ := if t.sign then -2 ^ (t.bits - 1) else 0

def upper : ℤ := if t.sign then 2 ^ (t.bits - 1) - 1 else 2 ^ t.bits - 1

def InRange (x : ℤ) : Prop := t.lower ≤ x ∧ x ≤ t.upper

instance (x : ℤ) : Decidable (t.InRange x) := inferInstanceAs (Decidable (_ ∧ _))

/-- The number of the range that differs from `x` by a multiple of `2 ^ bits`. -/
def reduce (x : ℤ) : ℤ := t.lower + (x - t.lower) % 2 ^ t.bits

def nearest (x : ℤ) : ℤ := if x < t.lower then t.lower else t.upper

def limit (x : ℤ) : OwType → Option ℤ
  | .wrap => some (t.reduce x)
  | .sat => some (t.nearest x)
  | .fail => none

/-- What is to be stored for a result; `none` is to store nothing. -/
def store (owtype : OwType) (x : ℤ) : Option ℤ := if t.InRange x then some x else t.limit x owtype

/-- The number in the field at `o`, in a string that goes on with zeros. -/
def value (p : Bytes) (o : ℕ) : ℤ :=
  if t.sign then Bits.signed t.bits (Bits.field p o t.bits) else Bits.field p o t.bits

/-- A signed field of the full width with its top bit set, which is shifted by 64. -/
def Unreadable (x : ℤ) : Prop := t.sign = true ∧ t.bits = 64 ∧ x < 0

instance (x : ℤ) : Decidable (t.Unreadable x) := inferInstanceAs (Decidable (_ ∧ _))

def set (p : Bytes) (o : ℕ) (v : ℤ) : Option Bytes :=
  if t.sign then setSignedBitfield p o t.bits v else setUnsignedBitfield p o t.bits (.ofInt 64 v)

def get (p : Bytes) (o : ℕ) : Option ℤ :=
  if t.sign then getSignedBitfield p o t.bits else (getUnsignedBitfield p o t.bits).map BitVec.toInt

end BitfieldType

/-- The two strings are of one length and differ in the field of the operation at most. -/
def BitfieldOp.Frame (op : BitfieldOp) (p q : Bytes) : Prop :=
  q.length = p.length ∧ ∀ k, k < op.offset ∨ op.offset + op.type.bits ≤ k → Bits.bitAt q k = Bits.bitAt p k

/-- The true result of a `SET` or an `INCRBY`. -/
def BitfieldOp.result (op : BitfieldOp) (p : Bytes) : ℤ :=
  if op.opcode = .incrby then op.type.value p op.offset + op.i64 else op.i64

/-- A `SET` or an `INCRBY` stores what its policy makes of the true result, and replies it or
the value that was there; what is not stored is replied as nil. -/
def BitfieldOp.Obeys (op : BitfieldOp) (p : Bytes) : Prop :=
  match op.type.store op.owtype (op.result p) with
  | some y =>
    ∃ q, op.exec p = some (q, .int (if op.opcode = .incrby then y else op.type.value p op.offset)) ∧
      op.type.value q op.offset = y ∧ op.Frame p q
  | none => op.exec p = some (p, .nullBulk)

end RedisIR
