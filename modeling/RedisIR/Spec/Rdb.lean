import RedisIR.Lib.Endian
import RedisIR.Spec.Propagation

/-! Lengths and strings of an RDB file: the functions of `rdb.c` that write them and those
that read them back. Writes and allocations succeed; a read may meet the end of the file. -/

namespace RedisIR

open CLib Endian

def RDB_6BITLEN : ℕ := 0
def RDB_14BITLEN : ℕ := 1
def RDB_32BITLEN : UInt8 := 0x80
def RDB_64BITLEN : UInt8 := 0x81
def RDB_ENCVAL : ℕ := 3
def RDB_LENERR : ℕ := 2 ^ 64 - 1
def RDB_ENC_INT8 : ℕ := 0
def RDB_ENC_INT16 : ℕ := 1
def RDB_ENC_INT32 : ℕ := 2
def RDB_ENC_LZF : ℕ := 3
def UINT32_MAX : ℕ := 2 ^ 32 - 1
def LONG_STR_SIZE : ℕ := 21

/-! ### Writing

A writer appends bytes and returns their number, or -1 for an error. -/

structure Appended where
  bytes : Bytes
  ret : ℤ
  deriving DecidableEq

/-- `if ((n = next) == -1) return -1; nwritten += n;` -/
def Appended.andThen (w next : Appended) : Appended :=
  if w.ret = -1 then w else ⟨w.bytes ++ next.bytes, if next.ret = -1 then -1 else w.ret + next.ret⟩

/-- `rdbWriteRaw` returns the length as an `int`. -/
def rdbWriteRaw (p : Bytes) : Appended := ⟨p, wrapInt p.length⟩

def rdbSaveLen (len : ℕ) : Appended :=
  if len < 1 <<< 6 then rdbWriteRaw [UInt8.ofNat ((len &&& 0xFF) ||| (RDB_6BITLEN <<< 6))]
  else if len < 1 <<< 14 then
    rdbWriteRaw [UInt8.ofNat ((len >>> 8 &&& 0xFF) ||| (RDB_14BITLEN <<< 6)), UInt8.ofNat (len &&& 0xFF)]
  else if len ≤ UINT32_MAX then (rdbWriteRaw [RDB_32BITLEN]).andThen (rdbWriteRaw (beBytes 4 len))
  else (rdbWriteRaw [RDB_64BITLEN]).andThen (rdbWriteRaw (beBytes 8 len))

def encByte (enctype : ℕ) : UInt8 := UInt8.ofNat ((RDB_ENCVAL <<< 6) ||| enctype)

/-- `rdbEncodeInteger`: the buffer that it fills, nothing for the return value 0. -/
def rdbEncodeInteger (value : ℤ) : Bytes :=
  if value ≥ -(2 ^ 7) ∧ value ≤ 2 ^ 7 - 1 then encByte RDB_ENC_INT8 :: intBytes 1 value
  else if value ≥ -(2 ^ 15) ∧ value ≤ 2 ^ 15 - 1 then encByte RDB_ENC_INT16 :: intBytes 2 value
  else if value ≥ -(2 ^ 31) ∧ value ≤ 2 ^ 31 - 1 then encByte RDB_ENC_INT32 :: intBytes 4 value
  else []

/-- Where `strtoll` stops: behind the digits, or where it began if there are none. -/
def strtollEnd (s : Bytes) : Bytes :=
  let t := s.dropWhile isspace
  let u := if t.head? = some 45 ∨ t.head? = some 43 then t.tail else t
  if (u.head?.map isdigit).getD false then u.dropWhile isdigit else s

/-- `rdbTryIntegerEncoding`: `strtoll` reads on behind the string, where `mem` lies, until it
meets a zero byte. -/
def rdbTryIntegerEncoding (s mem : Bytes) : Bytes :=
  let text := (cstr (s ++ mem)).val
  let value := strtol text
  if strtollEnd text ≠ [] then []
  else
    let buf := ll2string 32 value
    if buf.length ≠ s.length ∨ buf ≠ s then [] else rdbEncodeInteger value

/-- The compressor, with what is assumed of it: it keeps to the room that it is given and what
it has compressed can be decompressed. An empty result is the return value 0. -/
structure Lzf where
  compress : Bytes → ℕ → Bytes
  decompress : Bytes → ℕ → Option Bytes
  compress_le : ∀ s outlen, (compress s outlen).length ≤ outlen
  decompress_compress : ∀ s outlen, compress s outlen ≠ [] → decompress (compress s outlen) s.length = some s

def rdbSaveLzfBlob (data : Bytes) (originalLen : ℕ) : Appended :=
  (((rdbWriteRaw [encByte RDB_ENC_LZF]).andThen (rdbSaveLen data.length)).andThen (rdbSaveLen originalLen)).andThen
    (rdbWriteRaw data)

def rdbSaveLzfStringObject (lzf : Lzf) (s : Bytes) : Appended :=
  if s.length ≤ 4 then ⟨[], 0⟩
  else
    let out := lzf.compress s (s.length - 4)
    if out = [] then ⟨[], 0⟩ else rdbSaveLzfBlob out s.length

/-- The end of `rdbSaveRawString`, which stores the string verbatim. -/
def rdbSaveVerbatim (s : Bytes) : Appended :=
  (rdbSaveLen s.length).andThen
    (if s.length > 0 then ⟨s, if (rdbWriteRaw s).ret = -1 then -1 else s.length⟩ else ⟨[], 0⟩)

def rdbSaveRawString (lzf : Lzf) (rdbCompression : Bool) (s mem : Bytes) : Appended :=
  let enc := if s.length ≤ 11 then rdbTryIntegerEncoding s mem else []
  if enc ≠ [] then rdbWriteRaw enc
  else if rdbCompression ∧ s.length > 20 then
    let n := rdbSaveLzfStringObject lzf s
    if n.ret = -1 then n
    else if n.ret > 0 then n
    else ⟨n.bytes ++ (rdbSaveVerbatim s).bytes, (rdbSaveVerbatim s).ret⟩
  else rdbSaveVerbatim s

def rdbSaveLongLongAsStringObject (value : ℤ) : Appended :=
  let enc := rdbEncodeInteger value
  if enc ≠ [] then rdbWriteRaw enc
  else
    let buf := ll2string 32 value
    (rdbSaveLen buf.length).andThen (rdbWriteRaw buf)

/-! ### Reading

What is read and the rest of the file; `none` is a read that failed. A corrupt file ends the
process. -/

/-- `*isencoded` and `*lenptr`. -/
def rdbLoadLenByRef : Bytes → Outcome (Option ((Bool × ℕ) × Bytes))
  | [] => .returned none
  | b :: inp =>
    let type := (b.toNat &&& 0xC0) >>> 6
    if type = RDB_ENCVAL then .returned (some ((true, b.toNat &&& 0x3F), inp))
    else if type = RDB_6BITLEN then .returned (some ((false, b.toNat &&& 0x3F), inp))
    else if type = RDB_14BITLEN then
      .returned ((fread 1 inp).map fun r => ((false, ((b.toNat &&& 0x3F) <<< 8) ||| beVal r.1), r.2))
    else if b = RDB_32BITLEN then .returned ((fread 4 inp).map fun r => ((false, beVal r.1), r.2))
    else if b = RDB_64BITLEN then .returned ((fread 8 inp).map fun r => ((false, beVal r.1), r.2))
    else .exited

/-- `rdbLoadLen`, which returns `RDB_LENERR` for an error. -/
def rdbLoadLen (inp : Bytes) : Outcome ((Bool × ℕ) × Bytes) :=
  (rdbLoadLenByRef inp).bind fun
    | none => .returned ((false, RDB_LENERR), inp)
    | some r => .returned r

/-- `RDB_LOAD_PLAIN`, `RDB_LOAD_SDS` and `RDB_LOAD_ENC` -/
structure LoadFlags where
  plain : Bool
  sds : Bool
  encode : Bool
  deriving DecidableEq

/-- What is loaded: a string in one of its forms, or an object encoded as an integer. -/
inductive Loaded
  | string (s : Bytes)
  | integer (value : ℤ)
  deriving DecidableEq

def Loaded.text : Loaded → Bytes
  | .string s => s
  | .integer value => decimal value

def rdbLoadIntegerObject (enctype : ℕ) (flags : LoadFlags) (inp : Bytes) : Outcome (Option (Loaded × Bytes)) :=
  let load (val : ℤ) : Loaded :=
    if flags.plain || flags.sds then .string (ll2string LONG_STR_SIZE val)
    else if flags.encode then .integer val
    else .string (decimal val)
  if enctype = RDB_ENC_INT8 then .returned ((fread 1 inp).map fun r => (load (intVal r.1), r.2))
  else if enctype = RDB_ENC_INT16 then .returned ((fread 2 inp).map fun r => (load (intVal r.1), r.2))
  else if enctype = RDB_ENC_INT32 then .returned ((fread 4 inp).map fun r => (load (intVal r.1), r.2))
  else .exited

def rdbLoadLzfStringObject (lzf : Lzf) (inp : Bytes) : Outcome (Option (Loaded × Bytes)) :=
  (rdbLoadLen inp).bind fun ((_, clen), inp) =>
    if clen = RDB_LENERR then .returned none
    else
      (rdbLoadLen inp).bind fun ((_, len), inp) =>
        if len = RDB_LENERR then .returned none
        else
          .returned <| (fread clen inp).bind fun r => (lzf.decompress r.1 len).map fun val => (.string val, r.2)

def rdbGenericLoadStringObject (lzf : Lzf) (flags : LoadFlags) (inp : Bytes) : Outcome (Option (Loaded × Bytes)) :=
  (rdbLoadLen inp).bind fun ((isencoded, len), inp) =>
    if isencoded then
      if len = RDB_ENC_INT8 ∨ len = RDB_ENC_INT16 ∨ len = RDB_ENC_INT32 then rdbLoadIntegerObject len flags inp
      else if len = RDB_ENC_LZF then rdbLoadLzfStringObject lzf inp
      else .exited
    else if len = RDB_LENERR then .returned none
    else if len = 0 then .returned (some (.string [], inp))
    else .returned ((fread len inp).map fun r => (.string r.1, r.2))

end RedisIR
