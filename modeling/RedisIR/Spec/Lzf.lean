import RedisIR.Lib.CLib

/-! `lzf_c.c` and `lzf_d.c`, which pack the long strings of an RDB file, as `lzfP.h` sets them
up: `HLOG` 16, `VERY_FAST`, offsets in a hash table that is not cleared, inputs checked. -/

namespace RedisIR

open CLib Function

def MAX_LIT : ℕ := 1 <<< 5
def MAX_OFF : ℕ := 1 <<< 13
def MAX_REF : ℕ := (1 <<< 8) + (1 <<< 3)

/-! ### lzf_compress -/

/-- `IDX (hval)`. Of `hval` only the low 24 bits count, which are the three bytes at `ip`. -/
def lzfIdx (s : Bytes) (ip : ℕ) : ℕ :=
  let h : ℤ := (s.getD ip 0).toNat * 2 ^ 16 + (s.getD (ip + 1) 0).toNat * 2 ^ 8 + (s.getD (ip + 2) 0).toNat
  ((h / 2 ^ 8 - h * 5) % 2 ^ 16).toNat

/-- What `lzf_compress` carries from byte to byte: the place in the input, the hash table, what is
written in front of the current run, and the literals of that run, whose control byte is still to
come. -/
structure LzfState where
  ip : ℕ
  htab : ℕ → ℕ
  out : Bytes
  lit : Bytes

/-- `op`: the control byte of the run has its place already. -/
def LzfState.op (r : LzfState) : ℕ := r.out.length + 1 + r.lit.length

/-- Stop the run, or undo it if it is empty. -/
def LzfState.stop (r : LzfState) : Bytes :=
  r.out ++ if r.lit = [] then [] else UInt8.ofNat (r.lit.length - 1) :: r.lit

/-- One more literal byte. -/
def LzfState.literal (s : Bytes) (r : LzfState) : LzfState :=
  let r := { r with ip := r.ip + 1, lit := r.lit ++ [s.getD r.ip 0] }
  if r.lit.length = MAX_LIT then { r with out := r.stop, lit := [] } else r

/-- The loop that compares the bytes behind the first three. Of its turns the first `k`, which are
unrolled, do not look at `maxlen`. -/
def lzfMatchLoop (s : Bytes) (ref ip maxlen : ℕ) : ℕ → ℕ → ℕ → ℕ
  | 0, _, len => len + 1
  | fuel + 1, k, len =>
    if (0 < k ∨ len + 1 < maxlen) ∧ s.getD (ref + (len + 1)) 0 = s.getD (ip + (len + 1)) 0 then
      lzfMatchLoop s ref ip maxlen fuel (k - 1) (len + 1)
    else len + 1

/-- The number of bytes that a match at `ref` covers. -/
def lzfMatchLen (s : Bytes) (ref ip : ℕ) : ℕ :=
  let maxlen := min (s.length - ip - 2) MAX_REF
  lzfMatchLoop s ref ip maxlen maxlen (if maxlen > 16 then 16 else 0) 2

/-- The code of a back reference that covers `len + 2` bytes. -/
def lzfBackRef (off len : ℕ) : Bytes :=
  if len < 7 then [UInt8.ofNat ((off >>> 8) + (len <<< 5)), UInt8.ofNat off]
  else [UInt8.ofNat ((off >>> 8) + (7 <<< 5)), UInt8.ofNat (len - 7), UInt8.ofNat off]

/-- The test for a match at `ref`; `off` is unsigned, so that a place not behind is too far. The
first byte of the input is never referred to. -/
def LzfMatch (s : Bytes) (ref ip : ℕ) : Prop :=
  ref < ip ∧ ip - ref - 1 < MAX_OFF ∧ 0 < ref ∧ s.getD (ref + 2) 0 = s.getD (ip + 2) 0 ∧
    s.getD ref 0 = s.getD ip 0 ∧ s.getD (ref + 1) 0 = s.getD (ip + 1) 0

instance (s : Bytes) (ref ip : ℕ) : Decidable (LzfMatch s ref ip) := inferInstanceAs (Decidable (_ ∧ _))

/-- The main loop's body; `none` is its `return 0`. -/
def lzfStep (s : Bytes) (outLen : ℕ) (r : LzfState) : Option LzfState :=
  let ref := r.htab (lzfIdx s r.ip)
  let htab := update r.htab (lzfIdx s r.ip) r.ip
  if LzfMatch s ref r.ip then
    -- `op - !lit + 3 + 1 >= out_end`, which implies the faster test before it
    if outLen ≤ r.op - (if r.lit = [] then 1 else 0) + 3 + 1 then none
    else
      let len := lzfMatchLen s ref r.ip
      let ip := r.ip + len
      let htab :=
        if s.length ≤ ip + 2 then htab
        else update (update htab (lzfIdx s (ip - 2)) (ip - 2)) (lzfIdx s (ip - 1)) (ip - 1)
      some ⟨ip, htab, r.stop ++ lzfBackRef (r.ip - ref - 1) (len - 2), []⟩
  else if outLen ≤ r.op then none
  else some ({ r with htab }.literal s)

def lzfLoop (s : Bytes) (outLen : ℕ) : ℕ → LzfState → Option LzfState
  | 0, r => some r
  | fuel + 1, r => if r.ip + 2 < s.length then (lzfStep s outLen r).bind (lzfLoop s outLen fuel) else some r

/-- `lzf_compress`, with what the stack holds where `htab` comes to lie. The empty result is the
return value 0. -/
def lzfCompress (htab : ℕ → ℕ) (s : Bytes) (outLen : ℕ) : Bytes :=
  if s = [] ∨ outLen = 0 then []
  else
    match lzfLoop s outLen s.length ⟨0, htab, [], []⟩ with
    | none => []
    | some r => if r.op + 3 > outLen then [] else ((LzfState.literal s)^[s.length - r.ip] r).stop

/-! ### lzf_decompress -/

/-- Octet by octet, so that the two areas may overlap. -/
def lzfCopy (dist : ℕ) : ℕ → Bytes → Bytes
  | 0, out => out
  | n + 1, out => lzfCopy dist n (out ++ [out.getD (out.length - dist) 0])

/-- A back reference: what is left of the input, and the output. -/
def lzfReadRef (outLen ctrl : ℕ) (input out : Bytes) : Option (Bytes × Bytes) :=
  let long : Option (ℕ × Bytes) :=
    match input with
    | [] => none
    | l :: rest =>
      if ctrl >>> 5 = 7 then if rest = [] then none else some (7 + l.toNat, rest) else some (ctrl >>> 5, input)
  long.bind fun (len, input) =>
    let dist := ((ctrl &&& 0x1f) <<< 8) + 1 + (input.headD 0).toNat
    if out.length + len + 2 > outLen then none
    else if out.length < dist then none
    else some (input.tail, lzfCopy dist (len + 2) out)

/-- One turn of the loop: a literal run or a back reference. -/
def lzfRead (outLen : ℕ) (input out : Bytes) : Option (Bytes × Bytes) :=
  match input with
  | [] => none
  | c :: input =>
    if c.toNat < 1 <<< 5 then
      if out.length + (c.toNat + 1) > outLen then none
      else if input.length < c.toNat + 1 then none
      else some (input.drop (c.toNat + 1), out ++ input.take (c.toNat + 1))
    else lzfReadRef outLen c.toNat input out

/-- `lzf_decompress`, from what is written already; each turn reads a byte at least. -/
def lzfUnpack (outLen : ℕ) : ℕ → Bytes → Bytes → Option Bytes
  | 0, _, _ => none
  | fuel + 1, input, out =>
    (lzfRead outLen input out).bind fun (input, out) => if input = [] then some out else lzfUnpack outLen fuel input out

def lzfDecompress (data : Bytes) (outLen : ℕ) : Option Bytes :=
  lzfUnpack outLen data.length data []

end RedisIR
