import RedisIR.Lib.Memory
import RedisIR.Lib.Endian
import RedisIR.Lib.Positions
import RedisIR.Spec.Util

/-! `ziplist.c`. A ziplist is one block and a pointer into it is an offset; `none` is an access
outside of the block, a failed assertion or a loop that does not end. -/

namespace RedisIR

open CLib Endian Positions

def ZIP_END : UInt8 := 255
def ZIP_BIG_PREVLEN : ℕ := 254
def ZIP_STR_MASK : UInt8 := 0xc0
def ZIP_STR_06B : UInt8 := 0x00
def ZIP_STR_14B : UInt8 := 0x40
def ZIP_STR_32B : UInt8 := 0x80
def ZIP_INT_16B : UInt8 := 0xc0
def ZIP_INT_32B : UInt8 := 0xd0
def ZIP_INT_64B : UInt8 := 0xe0
def ZIP_INT_24B : UInt8 := 0xf0
def ZIP_INT_8B : UInt8 := 0xfe
def ZIP_INT_IMM_MIN : UInt8 := 0xf1
def ZIP_INT_IMM_MAX : UInt8 := 0xfd
def ZIPLIST_HEADER_SIZE : ℕ := 10

/-! ### The header -/

def ziplistBytes (zl : Bytes) : Option ℕ := (Memory.read zl 0 4).map leVal

def ziplistTailOffset (zl : Bytes) : Option ℕ := (Memory.read zl 4 4).map leVal

def ziplistLength (zl : Bytes) : Option ℕ := (Memory.read zl 8 2).map leVal

def ziplistSetBytes (zl : Bytes) (v : ℕ) : Option Bytes := Memory.write zl 0 (leBytes 4 v)

def ziplistSetTailOffset (zl : Bytes) (v : ℕ) : Option Bytes := Memory.write zl 4 (leBytes 4 v)

def ziplistSetLength (zl : Bytes) (v : ℕ) : Option Bytes := Memory.write zl 8 (leBytes 2 v)

/-- `ZIPLIST_INCR_LENGTH(zl,incr)` -/
def ziplistIncrLength (zl : Bytes) (incr : ℤ) : Option Bytes :=
  (ziplistLength zl).bind fun len =>
    if len < 65535 then ziplistSetLength zl ((len + incr) % 2 ^ 16).toNat else some zl

/-! ### Encodings -/

/-- `ZIP_IS_STR(enc)` -/
def zipIsStr (enc : UInt8) : Bool := enc &&& ZIP_STR_MASK < ZIP_STR_MASK

/-- `ZIP_ENTRY_ENCODING` of the first byte. -/
def zipEntryEncoding (b : UInt8) : UInt8 := if b < ZIP_STR_MASK then b &&& ZIP_STR_MASK else b

def zipIntSize (encoding : UInt8) : Option ℕ :=
  if encoding = ZIP_INT_8B then some 1
  else if encoding = ZIP_INT_16B then some 2
  else if encoding = ZIP_INT_24B then some 3
  else if encoding = ZIP_INT_32B then some 4
  else if encoding = ZIP_INT_64B then some 8
  else if encoding ≥ ZIP_INT_IMM_MIN ∧ encoding ≤ ZIP_INT_IMM_MAX then some 0
  else none

/-- `zipStoreEntryEncoding`: the bytes that it stores; it returns their number. -/
def zipStoreEntryEncoding (encoding : UInt8) (rawlen : ℕ) : Bytes :=
  if zipIsStr encoding then
    if rawlen ≤ 0x3f then [UInt8.ofNat rawlen]
    else if rawlen ≤ 0x3fff then [UInt8.ofNat (0x40 ||| (rawlen >>> 8 &&& 0x3f)), UInt8.ofNat (rawlen &&& 0xff)]
    else ZIP_STR_32B :: beBytes 4 rawlen
  else [encoding]

/-- `ZIP_DECODE_LENGTH`: the encoding, `lensize` and `len`. -/
def zipDecodeLength (zl : Bytes) (ptr : ℕ) : Option (UInt8 × ℕ × ℕ) :=
  zl[ptr]?.bind fun b =>
    let encoding := zipEntryEncoding b
    if encoding < ZIP_STR_MASK then
      if encoding = ZIP_STR_06B then some (encoding, 1, b.toNat &&& 0x3f)
      else if encoding = ZIP_STR_14B then
        zl[ptr + 1]?.map fun b' => (encoding, 2, ((b.toNat &&& 0x3f) <<< 8) ||| b'.toNat)
      else if encoding = ZIP_STR_32B then (Memory.read zl (ptr + 1) 4).map fun bs => (encoding, 5, beVal bs)
      else none
    else (zipIntSize encoding).map fun len => (encoding, 1, len)

def zipStorePrevEntryLengthLarge (len : ℕ) : Bytes := 254 :: leBytes 4 len

def zipStorePrevEntryLength (len : ℕ) : Bytes :=
  if len < ZIP_BIG_PREVLEN then [UInt8.ofNat len] else zipStorePrevEntryLengthLarge len

/-- `ZIP_DECODE_PREVLENSIZE` -/
def zipDecodePrevlensize (zl : Bytes) (ptr : ℕ) : Option ℕ :=
  zl[ptr]?.map fun b => if b.toNat < ZIP_BIG_PREVLEN then 1 else 5

/-- `ZIP_DECODE_PREVLEN`: `prevlensize` and `prevlen`. -/
def zipDecodePrevlen (zl : Bytes) (ptr : ℕ) : Option (ℕ × ℕ) :=
  zl[ptr]?.bind fun b =>
    if b.toNat < ZIP_BIG_PREVLEN then some (1, b.toNat)
    else (Memory.read zl (ptr + 1) 4).map fun bs => (5, leVal bs)

def zipPrevLenByteDiff (zl : Bytes) (p len : ℕ) : Option ℤ :=
  (zipDecodePrevlensize zl p).map fun prevlensize : ℕ => ((zipStorePrevEntryLength len).length : ℤ) - prevlensize

def zipRawEntryLength (zl : Bytes) (p : ℕ) : Option ℕ :=
  (zipDecodePrevlensize zl p).bind fun prevlensize =>
    (zipDecodeLength zl (p + prevlensize)).map fun (_, lensize, len) => (prevlensize + lensize + len) % 2 ^ 32

def zipIntEncoding (value : ℤ) : UInt8 :=
  if value ≥ 0 ∧ value ≤ 12 then ZIP_INT_IMM_MIN + UInt8.ofNat value.toNat
  else if value ≥ -2 ^ 7 ∧ value ≤ 2 ^ 7 - 1 then ZIP_INT_8B
  else if value ≥ -2 ^ 15 ∧ value ≤ 2 ^ 15 - 1 then ZIP_INT_16B
  else if value ≥ -0x7fffff - 1 ∧ value ≤ 0x7fffff then ZIP_INT_24B
  else if value ≥ -2 ^ 31 ∧ value ≤ 2 ^ 31 - 1 then ZIP_INT_32B
  else ZIP_INT_64B

/-- `zipTryEncoding`: the value and its encoding. -/
def zipTryEncoding (entry : Bytes) : Option (ℤ × UInt8) :=
  if entry.length ≥ 32 ∨ entry.length = 0 then none
  else (string2ll entry).map fun value => (value, zipIntEncoding value)

/-- `zipSaveInteger`: the bytes that it stores. For 24 bits they are the upper ones of a
shifted `int32_t`. -/
def zipSaveInteger (value : ℤ) (encoding : UInt8) : Option Bytes :=
  if encoding = ZIP_INT_8B then some (intBytes 1 value)
  else if encoding = ZIP_INT_16B then some (intBytes 2 value)
  else if encoding = ZIP_INT_24B then some ((intBytes 4 (value * 2 ^ 8)).drop 1)
  else if encoding = ZIP_INT_32B then some (intBytes 4 value)
  else if encoding = ZIP_INT_64B then some (intBytes 8 value)
  else if encoding ≥ ZIP_INT_IMM_MIN ∧ encoding ≤ ZIP_INT_IMM_MAX then some []
  else none

def zipLoadInteger (zl : Bytes) (p : ℕ) (encoding : UInt8) : Option ℤ :=
  if encoding = ZIP_INT_8B then (Memory.read zl p 1).map intVal
  else if encoding = ZIP_INT_16B then (Memory.read zl p 2).map intVal
  else if encoding = ZIP_INT_32B then (Memory.read zl p 4).map intVal
  else if encoding = ZIP_INT_24B then (Memory.read zl p 3).map fun bs => intVal (0 :: bs) / 2 ^ 8
  else if encoding = ZIP_INT_64B then (Memory.read zl p 8).map intVal
  else if encoding ≥ ZIP_INT_IMM_MIN ∧ encoding ≤ ZIP_INT_IMM_MAX then some ((encoding.toNat &&& 0x0f : ℕ) - 1)
  else none

/-- `zlentry`, without the pointer to the entry. -/
structure ZlEntry where
  prevrawlensize : ℕ
  prevrawlen : ℕ
  lensize : ℕ
  len : ℕ
  headersize : ℕ
  encoding : UInt8
  deriving DecidableEq

def zipEntry (zl : Bytes) (p : ℕ) : Option ZlEntry :=
  (zipDecodePrevlen zl p).bind fun (prevrawlensize, prevrawlen) =>
    (zipDecodeLength zl (p + prevrawlensize)).map fun (encoding, lensize, len) =>
      ⟨prevrawlensize, prevrawlen, lensize, len, prevrawlensize + lensize, encoding⟩

/-- `headersize + len`, a sum of two `unsigned int`. -/
def ZlEntry.rawlen (e : ZlEntry) : ℕ := (e.headersize + e.len) % 2 ^ 32

/-! ### Changing the list -/

def ziplistNew : Bytes := leBytes 4 11 ++ leBytes 4 10 ++ leBytes 2 0 ++ [ZIP_END]

def ziplistResize (zl : Bytes) (len : ℕ) : Option Bytes :=
  let len := len % 2 ^ 32
  (ziplistSetBytes (Memory.realloc 0 zl len) len).bind fun zl =>
    if len = 0 then none else Memory.write zl (len - 1) [ZIP_END]

/-- The branch of `__ziplistCascadeUpdate` where the entry at `np` needs more bytes for the
length `rawlen` of the one before it. -/
def ziplistGrowPrevlen (zl : Bytes) (np rawlen curlen prevrawlensize : ℕ) : Option Bytes :=
  let rawlensize := (zipStorePrevEntryLength rawlen).length
  let extra := rawlensize - prevrawlensize
  (ziplistResize zl (curlen + extra)).bind fun zl =>
    (ziplistTailOffset zl).bind fun tail =>
      (if tail ≠ np then ziplistSetTailOffset zl (tail + extra) else some zl).bind fun zl =>
        (Memory.move zl (np + rawlensize) (np + prevrawlensize) (curlen - np - prevrawlensize - 1)).bind fun zl =>
          Memory.write zl np (zipStorePrevEntryLength rawlen)

/-- The loop of `__ziplistCascadeUpdate`; each round but the last is at a later entry. -/
def ziplistCascadeLoop : ℕ → Bytes → ℕ → ℕ → Option Bytes
  | 0, _, _, _ => none
  | fuel + 1, zl, p, curlen =>
    zl[p]?.bind fun b =>
      if b = ZIP_END then some zl
      else
        (zipEntry zl p).bind fun cur =>
          let rawlen := cur.rawlen
          let rawlensize := (zipStorePrevEntryLength rawlen).length
          zl[p + rawlen]?.bind fun b =>
            if b = ZIP_END then some zl
            else
              (zipEntry zl (p + rawlen)).bind fun next =>
                if next.prevrawlen = rawlen then some zl
                else if next.prevrawlensize < rawlensize then
                  (ziplistGrowPrevlen zl (p + rawlen) rawlen curlen next.prevrawlensize).bind fun zl =>
                    ziplistCascadeLoop fuel zl (p + rawlen) (curlen + (rawlensize - next.prevrawlensize))
                else if next.prevrawlensize > rawlensize then
                  Memory.write zl (p + rawlen) (zipStorePrevEntryLengthLarge rawlen)
                else Memory.write zl (p + rawlen) (zipStorePrevEntryLength rawlen)

/-- `__ziplistCascadeUpdate` -/
def ziplistCascadeUpdate (zl : Bytes) (p : ℕ) : Option Bytes :=
  (ziplistBytes zl).bind fun curlen => ziplistCascadeLoop zl.length zl p curlen

/-- The first loop of `__ziplistDelete`: the entry behind the deleted ones, and `deleted`. -/
def ziplistSkip (zl : Bytes) : ℕ → ℕ → ℕ → Option (ℕ × ℕ)
  | 0, p, deleted => some (p, deleted)
  | num + 1, p, deleted =>
    zl[p]?.bind fun b =>
      if b = ZIP_END then some (p, deleted)
      else (zipRawEntryLength zl p).bind fun len => ziplistSkip zl num (p + len) (deleted + 1)

/-- The entry behind the deleted ones takes the length of the one before them, and the tail
moves to the front: the block, where the tail was, and `nextdiff`. -/
def ziplistDeleteGap (zl : Bytes) (first p prevrawlen totlen : ℕ) : Option (Bytes × ℤ) :=
  (zipPrevLenByteDiff zl p prevrawlen).bind fun nextdiff =>
    let p := ((p : ℤ) - nextdiff).toNat
    (Memory.write zl p (zipStorePrevEntryLength prevrawlen)).bind fun zl =>
      (ziplistTailOffset zl).bind fun tailOffset =>
        (zipEntry zl p).bind fun tail =>
          zl[p + tail.rawlen]?.bind fun b =>
            let tailOffset := (tailOffset : ℤ) - totlen + if b ≠ ZIP_END then nextdiff else 0
            (ziplistSetTailOffset zl (tailOffset % 2 ^ 32).toNat).bind fun zl =>
              (ziplistBytes zl).bind fun bytes =>
                (Memory.move zl first p (bytes - p - 1)).map fun zl => (zl, nextdiff)

/-- `__ziplistDelete` -/
def _ziplistDelete (zl : Bytes) (first num : ℕ) : Option Bytes :=
  (zipEntry zl first).bind fun e =>
    (ziplistSkip zl num first 0).bind fun (p, deleted) =>
      let totlen := p - first
      if totlen > 0 then
        (zl[p]?.bind fun b =>
          if b ≠ ZIP_END then ziplistDeleteGap zl first p e.prevrawlen totlen
          else (ziplistSetTailOffset zl (first - e.prevrawlen)).map fun zl => (zl, 0)).bind fun (zl, nextdiff) =>
          (ziplistBytes zl).bind fun bytes =>
            (ziplistResize zl (((bytes : ℤ) - totlen + nextdiff) % 2 ^ 32).toNat).bind fun zl =>
              (ziplistIncrLength zl (-deleted)).bind fun zl =>
                if nextdiff ≠ 0 then ziplistCascadeUpdate zl first else some zl
      else some zl

/-- The room of `reqlen` bytes at `p`, in front of an entry that takes their number as the
length before it; the bytes of that entry, or `nextdiff` more or less, move behind the room. -/
def ziplistInsertGap (zl : Bytes) (p reqlen curlen : ℕ) (nextdiff : ℤ) (forcelarge : Bool) : Option Bytes :=
  (Memory.move zl (p + reqlen) ((p : ℤ) - nextdiff).toNat ((curlen : ℤ) - p - 1 + nextdiff).toNat).bind fun zl =>
    (Memory.write zl (p + reqlen)
      (if forcelarge then zipStorePrevEntryLengthLarge reqlen else zipStorePrevEntryLength reqlen)).bind fun zl =>
      (ziplistTailOffset zl).bind fun tailOffset =>
        (zipEntry zl (p + reqlen)).bind fun tail =>
          zl[p + reqlen + tail.rawlen]?.bind fun b =>
            let tailOffset := (tailOffset : ℤ) + reqlen + if b ≠ ZIP_END then nextdiff else 0
            ziplistSetTailOffset zl (tailOffset % 2 ^ 32).toNat

/-- The `prevlen` of an entry that is inserted at `p`. -/
def ziplistInsertPrevlen (zl : Bytes) (p : ℕ) : Option ℕ :=
  zl[p]?.bind fun b =>
    if b ≠ ZIP_END then (zipDecodePrevlen zl p).map Prod.snd
    else
      (ziplistTailOffset zl).bind fun ptail =>
        zl[ptail]?.bind fun b => if b ≠ ZIP_END then zipRawEntryLength zl ptail else some 0

/-- The entry without its `prevlen`, as `__ziplistInsert` writes it. -/
def zipEntryBody (s : Bytes) : Option Bytes :=
  match zipTryEncoding s with
  | some (value, encoding) => (zipSaveInteger value encoding).map (zipStoreEntryEncoding encoding s.length ++ ·)
  | none => some (zipStoreEntryEncoding 0 s.length ++ s)

/-- `__ziplistInsert` -/
def _ziplistInsert (zl : Bytes) (p : ℕ) (s : Bytes) : Option Bytes :=
  (ziplistBytes zl).bind fun curlen =>
    (ziplistInsertPrevlen zl p).bind fun prevlen =>
      (zipEntryBody s).bind fun body =>
        let reqlen := (zipStorePrevEntryLength prevlen).length + body.length
        zl[p]?.bind fun b =>
          (if b ≠ ZIP_END then zipPrevLenByteDiff zl p reqlen else some 0).bind fun nextdiff =>
            let forcelarge : Bool := nextdiff = -4 ∧ reqlen < 4
            let nextdiff := if forcelarge then 0 else nextdiff
            (ziplistResize zl ((curlen : ℤ) + reqlen + nextdiff).toNat).bind fun zl =>
              zl[p]?.bind fun b =>
                (if b ≠ ZIP_END then ziplistInsertGap zl p reqlen curlen nextdiff forcelarge
                  else ziplistSetTailOffset zl p).bind fun zl =>
                  (if nextdiff ≠ 0 then ziplistCascadeUpdate zl (p + reqlen) else some zl).bind fun zl =>
                    (Memory.write zl p (zipStorePrevEntryLength prevlen ++ body)).bind fun zl =>
                      ziplistIncrLength zl 1

/-- `ziplistPush`, to the head or to the tail. -/
def ziplistPush (zl s : Bytes) (head : Bool) : Option Bytes :=
  if head then _ziplistInsert zl ZIPLIST_HEADER_SIZE s
  else
    (ziplistBytes zl).bind fun bytes => if bytes = 0 then none else _ziplistInsert zl (bytes - 1) s

/-! ### Reading the list -/

/-- `while (prevlen > 0 && index--)`: where it ends, and the index there. -/
def ziplistIndexBack (zl : Bytes) : ℕ → ℕ → ℕ → Option (ℕ × ℤ)
  | index, p, 0 => some (p, index)
  | 0, p, _ + 1 => some (p, -1)
  | index + 1, p, prevlen + 1 =>
    if prevlen + 1 ≤ p then
      (zipDecodePrevlen zl (p - (prevlen + 1))).bind fun (_, prevlen') =>
        ziplistIndexBack zl index (p - (prevlen + 1)) prevlen'
    else none

/-- `while (p[0] != ZIP_END && index--)` -/
def ziplistIndexForth (zl : Bytes) : ℕ → ℕ → Option (ℕ × ℤ)
  | 0, p => zl[p]?.map fun b => if b = ZIP_END then (p, 0) else (p, -1)
  | index + 1, p =>
    zl[p]?.bind fun b =>
      if b = ZIP_END then some (p, (index + 1 : ℕ))
      else (zipRawEntryLength zl p).bind fun len => ziplistIndexForth zl index (p + len)

/-- `ziplistIndex`. The negation of the least `int` wraps, and so does the next step, back to the
number that is meant. -/
def ziplistIndex (zl : Bytes) (index : ℤ) : Option (Option ℕ) :=
  (if index < 0 then
    (ziplistTailOffset zl).bind fun p =>
      zl[p]?.bind fun b =>
        if b ≠ ZIP_END then
          (zipDecodePrevlen zl p).bind fun (_, prevlen) => ziplistIndexBack zl (-index - 1).toNat p prevlen
        else some (p, -index - 1)
  else ziplistIndexForth zl index.toNat ZIPLIST_HEADER_SIZE).bind fun (p, index) =>
    zl[p]?.map fun b => if b = ZIP_END ∨ index > 0 then none else some p

def ziplistNext (zl : Bytes) (p : ℕ) : Option (Option ℕ) :=
  zl[p]?.bind fun b =>
    if b = ZIP_END then some none
    else
      (zipRawEntryLength zl p).bind fun len =>
        zl[p + len]?.map fun b => if b = ZIP_END then none else some (p + len)

def ziplistPrev (zl : Bytes) (p : ℕ) : Option (Option ℕ) :=
  zl[p]?.bind fun b =>
    if b = ZIP_END then
      (ziplistTailOffset zl).bind fun p => zl[p]?.map fun b => if b = ZIP_END then none else some p
    else if p = ZIPLIST_HEADER_SIZE then some none
    else
      (zipDecodePrevlen zl p).bind fun (_, prevlen) =>
        if 0 < prevlen ∧ prevlen ≤ p then some (some (p - prevlen)) else none

/-- What `ziplistGet` finds in an entry. -/
inductive ZipValue
  | string (s : Bytes)
  | integer (val : ℤ)
  deriving DecidableEq

def ZipValue.print : ZipValue → Bytes
  | .string s => s
  | .integer v => decimal v

/-- `ziplistGet`; the inner `none` is the return value 0. -/
def ziplistGet (zl : Bytes) (p : ℕ) : Option (Option ZipValue) :=
  zl[p]?.bind fun b =>
    if b = ZIP_END then some none
    else
      (zipEntry zl p).bind fun entry =>
        if zipIsStr entry.encoding then (Memory.read zl (p + entry.headersize) entry.len).map fun s => some (.string s)
        else (zipLoadInteger zl (p + entry.headersize) entry.encoding).map fun v => some (.integer v)

/-- The loop of `ziplistLen`; each round is at a later place of the block. -/
def ziplistCount (zl : Bytes) : ℕ → ℕ → ℕ → Option ℕ
  | 0, _, _ => none
  | fuel + 1, p, len =>
    zl[p]?.bind fun b =>
      if b = ZIP_END then some len
      else (zipRawEntryLength zl p).bind fun l => ziplistCount zl fuel (p + l) ((len + 1) % 2 ^ 32)

/-- `ziplistLen`, which may store the number in the header. -/
def ziplistLen (zl : Bytes) : Option (Bytes × ℕ) :=
  (ziplistLength zl).bind fun len =>
    if len < 65535 then some (zl, len)
    else
      (ziplistCount zl zl.length ZIPLIST_HEADER_SIZE 0).bind fun len =>
        if len < 65535 then (ziplistSetLength zl len).map fun zl => (zl, len) else some (zl, len)

/-! ### Calls

An element is named by its index, as `ziplistIndex` takes it. -/

inductive ZlOp
  | push (s : Bytes) (head : Bool)
  | insert (index : ℤ) (s : Bytes)
  | delete (index : ℤ)
  | deleteRange (index : ℤ) (num : ℕ)
  | len
  deriving DecidableEq

/-- `ziplistInsert`, `ziplistDelete` and `ziplistDeleteRange` of the element at an index. -/
def ZlOp.exec (op : ZlOp) (zl : Bytes) : Option Bytes :=
  match op with
  | .push s head => ziplistPush zl s head
  | .insert index s => (ziplistIndex zl index).bind fun p => p.elim (some zl) fun p => _ziplistInsert zl p s
  | .delete index => (ziplistIndex zl index).bind fun p => p.elim (some zl) fun p => _ziplistDelete zl p 1
  | .deleteRange index num => (ziplistIndex zl index).bind fun p => p.elim (some zl) fun p => _ziplistDelete zl p num
  | .len => (ziplistLen zl).map Prod.fst

def ziplistRun : List ZlOp → Bytes → Option Bytes
  | [], zl => some zl
  | op :: ops, zl => (op.exec zl).bind (ziplistRun ops)

def ZlOp.apply (op : ZlOp) (xs : List Bytes) : List Bytes :=
  match op with
  | .push s head => if head then s :: xs else xs ++ [s]
  | .insert index s => (position xs index).elim xs fun i => xs.insertIdx i s
  | .delete index => (position xs index).elim xs fun i => xs.eraseIdx i
  | .deleteRange index num => (position xs index).elim xs fun i => xs.take i ++ xs.drop (i + num)
  | .len => xs

end RedisIR
