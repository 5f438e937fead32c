import RedisIR.Proofs.Util
import RedisIR.Spec.Listpack

/-! A listpack is a list of strings: what its functions read, write and move is what they would
do to the list. -/

namespace RedisIR

open Memory CLib Endian Positions List Option

variable {num total fuel shift val : ℕ} {a b xs : List Bytes} {s x lp room : Bytes}
variable {v : ℤ} {m n l : ℕ}

/-! ### Numbers -/

/-- The second test for a lone zero is never reached with one. -/
theorem lpStringToInt64Digits_eq {slen : ℕ} {t : Bytes} (h : slen = 1 → t.head? ≠ some 48) (negative : Bool) :
    lpStringToInt64Digits slen negative t = string2llDigits negative t := by
  cases t with
  | nil => rfl
  | cons c cs =>
    simp only [lpStringToInt64Digits, string2llDigits]
    by_cases hc : 49 ≤ c ∧ c ≤ 57
    · exact (if_pos hc).trans (if_pos hc).symm
    · have h0 : ¬ (c = 48 ∧ slen = 1) := fun h0 => h h0.2 (congrArg some h0.1)
      rw [if_neg hc, if_neg hc, if_neg h0]

theorem lpStringToInt64_eq (s : Bytes) : lpStringToInt64 s = string2ll s := by
  cases s with
  | nil => rfl
  | cons c cs =>
    by_cases hzero : c = 48 ∧ cs = []
    · rw [hzero.1, hzero.2]
      rfl
    · have hlone : (c :: cs).length = 1 → (c :: cs).head? ≠ some 48 := by
        intro hlen hhead
        exact hzero ⟨some.inj hhead, by simpa using hlen⟩
      by_cases hneg : c = 45
      · rw [hneg]
        refine lpStringToInt64Digits_eq ?_ true
        cases cs with
        | nil => simp
        | cons c' cs' => simp
      · have hlp : lpStringToInt64 (c :: cs) = lpStringToInt64Digits (c :: cs).length false (c :: cs) := by
          unfold lpStringToInt64
          split <;> simp_all
        have hll : string2ll (c :: cs) = string2llDigits false (c :: cs) := by
          unfold string2ll
          split <;> simp_all
        rw [hlp, hll, lpStringToInt64Digits_eq hlone]

/-- Decimal conversion: `string2ll` accepts exactly the canonical numerals of 64-bit integers,
`ll2string` writes them in `sdigits10` bytes whenever the buffer has room for them, and
`lpStringToInt64` is the same function as `string2ll`. -/
theorem decimal_conversion_exact :
    (∀ (s : Bytes) (v : ℤ), string2ll s = some v ↔ LLONG_MIN ≤ v ∧ v ≤ LLONG_MAX ∧ s = decimal v) ∧
      (∀ v : ℤ, LLONG_MIN ≤ v → v ≤ LLONG_MAX → ∀ dstlen > sdigits10 v,
        (ll2string dstlen v).length = sdigits10 v ∧ string2ll (ll2string dstlen v) = some v) ∧
      ∀ s : Bytes, lpStringToInt64 s = string2ll s := by
  refine ⟨string2ll_eq_some_iff, ?_, lpStringToInt64_eq⟩
  intro v h1 h2 dstlen hlen
  rw [sdigits10_eq] at hlen ⊢
  rw [ll2string_eq hlen]
  exact ⟨rfl, string2ll_decimal h1 h2⟩

/-! ### One element -/

def lpEncode (s : Bytes) : Bytes := (lpEncodeGetType s).1.getD (lpEncodeString s)

theorem lpKind_uint7 : ∀ n < 128, lpKind (UInt8.ofNat n) = .uint7 ∧ (UInt8.ofNat n).toNat &&& 0x7f = n := by decide

theorem lpKind_str6 : ∀ n < 64, lpKind (UInt8.ofNat (n ||| LP_ENCODING_6BIT_STR)) = .str6 ∧
    (UInt8.ofNat (n ||| LP_ENCODING_6BIT_STR)).toNat &&& 0x3F = n := by decide

theorem lpKind_int13 : ∀ n < 32, lpKind (UInt8.ofNat (n ||| LP_ENCODING_13BIT_INT)) = .int13 ∧
    (UInt8.ofNat (n ||| LP_ENCODING_13BIT_INT)).toNat &&& 0x1f = n := by decide

theorem lpKind_str12 : ∀ n < 16, lpKind (UInt8.ofNat (n ||| LP_ENCODING_12BIT_STR)) = .str12 ∧
    (UInt8.ofNat (n ||| LP_ENCODING_12BIT_STR)).toNat &&& 0xF = n := by decide

/-- What the readers find at an encoding `enc`, wherever it lies and whatever follows it: its
size, and the value that it stands for. -/
structure LpReads (enc : Bytes) (number : Bool → LpValue) : Prop where
  head_ne : enc.head? ≠ none ∧ enc.head? ≠ some LP_EOF
  size : ∀ pre rest : Bytes, lpCurrentEncodedSize (pre ++ (enc ++ rest)) pre.length = some enc.length
  get : ∀ (pre rest : Bytes) (intbuf : Bool), lpGet (pre ++ (enc ++ rest)) pre.length intbuf = some (number intbuf)

theorem head_ne_of_kind {b : UInt8} {k : LpKind} (hkind : lpKind b = k) (hk : lpKind LP_EOF ≠ k) (t : Bytes) :
    (b :: t).head? ≠ none ∧ (b :: t).head? ≠ some LP_EOF := by
  refine ⟨by simp, fun heq => ?_⟩
  rw [some.inj heq] at hkind
  exact hk hkind

def lpNumber (v : ℤ) (intbuf : Bool) : LpValue := if intbuf then .string (decimal v) else .integer v

theorem lpSigned_eq (hm : 0 < m) (h1 : -(m : ℤ) ≤ v) (h2 : v < m)
    (hn : (n : ℤ) = if v < 0 then 2 * m + v else v) : lpSigned n m (2 * m - 1) = v := by
  unfold lpSigned
  split_ifs at hn ⊢ <;> omega

theorem LpReads.word {tag : UInt8} {w : ℕ} (hne : tag ≠ LP_EOF)
    (hm : 2 * m = 256 ^ w) (h1 : -(m : ℤ) ≤ v) (h2 : v < m) (hn : (n : ℤ) = if v < 0 then 2 * m + v else v)
    (hsize : ∀ lp p, lp[p]? = some tag → lpCurrentEncodedSize lp p = some (w + 1) := by
      intro lp p hb; rw [lpCurrentEncodedSize, hb]; rfl)
    (hget : ∀ lp p intbuf, lp[p]? = some tag → lpGet lp p intbuf = (Memory.read lp (p + 1) w).map
      fun bs => lpNumber (lpSigned (leVal bs) m (2 * m - 1)) intbuf := by
      intro lp p intbuf hb; rw [lpGet, hb]; rfl) :
    LpReads (tag :: leBytes w n) (lpNumber v) where
  head_ne := ⟨by simp, by simpa using hne⟩
  size pre rest := by
    rw [cons_append, hsize _ _ (getElem?_at _ _ _), length_cons, leBytes_length]
  get pre rest intbuf := by
    have hlt : n < 256 ^ w := by
      rw [← hm]
      split_ifs at hn <;> omega
    rw [cons_append, hget _ _ _ (getElem?_at _ _ _), read_behind _ _ _ _ (leBytes_length _ _), map_some,
      leVal_leBytes_of_lt hlt, lpSigned_eq (by omega) h1 h2 hn]

theorem lpEncode7_reads (h : v ≥ 0 ∧ v ≤ 127) : LpReads [UInt8.ofNat v.toNat] (lpNumber v) := by
  obtain ⟨hkind, hval⟩ := lpKind_uint7 v.toNat (by omega)
  refine ⟨head_ne_of_kind hkind (by decide) _, ?_, ?_⟩
  · intro pre rest
    rw [singleton_append, lpCurrentEncodedSize, getElem?_at, bind_some, hkind]
    rfl
  · intro pre rest intbuf
    rw [singleton_append, lpGet]
    simp only [getElem?_at, bind_some, hkind, hval]
    have hsigned : lpSigned v.toNat (2 ^ 64 - 1) 0 = v := by
      unfold lpSigned
      split_ifs <;> omega
    rw [hsigned]
    rfl

theorem lpEncode13_reads (h1 : v ≥ -4096 ∧ v ≤ 4095) (hn : (n : ℤ) = if v < 0 then 2 ^ 13 + v else v) :
    LpReads [UInt8.ofNat ((n >>> 8) ||| LP_ENCODING_13BIT_INT), UInt8.ofNat (n &&& 0xff)] (lpNumber v) := by
  have hhigh : n >>> 8 < 32 := by
    rw [Nat.shiftRight_eq_div_pow]
    omega
  obtain ⟨hkind, hval⟩ := lpKind_int13 _ hhigh
  refine ⟨head_ne_of_kind hkind (by decide) _, ?_, ?_⟩
  · intro pre rest
    rw [cons_append, lpCurrentEncodedSize, getElem?_at, bind_some, hkind]
    rfl
  · intro pre rest intbuf
    have hsecond : ∀ (b b' : UInt8), (pre ++ (b :: b' :: rest))[pre.length + 1]? = some b' :=
      fun b b' => Memory.getElem?_append_length pre (b :: b' :: rest) 1
    rw [cons_append, singleton_append, lpGet]
    simp only [getElem?_at, bind_some, hkind, hsecond, map_some, hval, low_byte, join_byte]
    have hsigned : lpSigned n (2 ^ 12) 8191 = v := lpSigned_eq (m := 2 ^ 12) (by norm_num) (by omega) (by omega) hn
    rw [hsigned]
    rfl

theorem lpEncodeInteger_reads (h1 : LLONG_MIN ≤ v) (h2 : v ≤ LLONG_MAX) :
    LpReads (lpEncodeInteger v) (lpNumber v) := by
  unfold LLONG_MIN at h1
  unfold LLONG_MAX at h2
  unfold lpEncodeInteger
  split
  case isTrue h7 => exact lpEncode7_reads h7
  split
  case isTrue h13 => exact lpEncode13_reads h13 (by split_ifs <;> omega)
  split
  · exact LpReads.word (m := 2 ^ 15) (by decide) (by norm_num) (by omega) (by omega) (by split_ifs <;> omega)
  split
  · exact LpReads.word (m := 2 ^ 23) (by decide) (by norm_num) (by omega) (by omega) (by split_ifs <;> omega)
  split
  · exact LpReads.word (m := 2 ^ 31) (by decide) (by norm_num) (by omega) (by omega) (by split_ifs <;> omega)
  exact LpReads.word (m := 2 ^ 63) (by decide) (by norm_num) (by omega) (by omega) (by split_ifs <;> omega)

theorem lpEncode6_reads (h : s.length < 64) :
    LpReads (UInt8.ofNat (s.length ||| LP_ENCODING_6BIT_STR) :: s) fun _ => .string s := by
  obtain ⟨hkind, hval⟩ := lpKind_str6 _ h
  refine ⟨head_ne_of_kind hkind (by decide) _, ?_, ?_⟩
  · intro pre rest
    rw [cons_append, lpCurrentEncodedSize, getElem?_at, bind_some, hkind]
    simp only [hval, length_cons, Nat.add_comm]
  · intro pre rest intbuf
    rw [cons_append, lpGet]
    simp only [getElem?_at, bind_some, hkind, hval, read_behind _ _ _ _ rfl, map_some]

theorem lpEncode12_reads (h : s.length < 4096) :
    LpReads (UInt8.ofNat ((s.length >>> 8) ||| LP_ENCODING_12BIT_STR) :: UInt8.ofNat (s.length &&& 0xff) :: s)
      fun _ => .string s := by
  have hhigh : s.length >>> 8 < 16 := by
    rw [Nat.shiftRight_eq_div_pow]
    omega
  obtain ⟨hkind, hval⟩ := lpKind_str12 _ hhigh
  have hlen : ∀ (pre t : Bytes), lp12BitStrLen (pre ++ (UInt8.ofNat ((s.length >>> 8) ||| LP_ENCODING_12BIT_STR) ::
      UInt8.ofNat (s.length &&& 0xff) :: t)) pre.length = some s.length := by
    intro pre t
    have hsecond : ∀ (b b' : UInt8), (pre ++ (b :: b' :: t))[pre.length + 1]? = some b' :=
      fun b b' => Memory.getElem?_append_length pre (b :: b' :: t) 1
    rw [lp12BitStrLen, getElem?_at, bind_some, hsecond, map_some, hval, low_byte, join_byte]
  refine ⟨head_ne_of_kind hkind (by decide) _, ?_, ?_⟩
  · intro pre rest
    rw [cons_append, cons_append, lpCurrentEncodedSize, getElem?_at, bind_some, hkind]
    simp only [hlen, map_some, length_cons, some.injEq]
    omega
  · intro pre rest intbuf
    have hread :
      ∀ b b' : UInt8, Memory.read (pre ++ (b :: b' :: (s ++ rest))) (pre.length + 2) s.length = some s := by
      intro b b'
      rw [read_append_right]
      exact read_append (a := [b, b']) rfl rfl
    rw [cons_append, cons_append, lpGet]
    simp only [getElem?_at, bind_some, hkind, hlen, hread, map_some]

theorem lpEncode32_reads (h : s.length + 5 < 2 ^ 32) :
    LpReads (LP_ENCODING_32BIT_STR :: (leBytes 4 s.length ++ s)) fun _ => .string s := by
  have hlen : ∀ pre rest : Bytes, lp32BitStrLen (pre ++ (LP_ENCODING_32BIT_STR :: (leBytes 4 s.length ++ s) ++ rest))
      pre.length = some s.length := by
    intro pre rest
    rw [cons_append, append_assoc, lp32BitStrLen, read_behind _ _ _ _ (leBytes_length _ _), map_some,
      leVal_leBytes_of_lt (by omega)]
  refine ⟨⟨by simp, fun heq => absurd (some.inj heq) (by decide)⟩, ?_, ?_⟩
  · intro pre rest
    have hlen' := hlen pre rest
    rw [cons_append] at hlen' ⊢
    rw [lpCurrentEncodedSize, getElem?_at, bind_some]
    change (lp32BitStrLen _ _).map _ = _
    rw [hlen', map_some, Nat.mod_eq_of_lt (by omega), length_cons, length_append, leBytes_length]
    congr 1
    omega
  · intro pre rest intbuf
    have hlen' := hlen pre rest
    have hread : Memory.read (pre ++ (LP_ENCODING_32BIT_STR :: (leBytes 4 s.length ++ s) ++ rest)) (pre.length + 5)
        s.length = some s := by
      rw [read_append_right]
      exact read_append (a := LP_ENCODING_32BIT_STR :: leBytes 4 s.length) (by simp) rfl
    rw [cons_append] at hlen' hread ⊢
    rw [lpGet]
    simp only [getElem?_at, bind_some]
    change (lp32BitStrLen _ _).bind _ = _
    rw [hlen', bind_some, hread, map_some]

theorem lpEncodeString_reads (h : s.length + 5 < 2 ^ 32) :
    LpReads (lpEncodeString s) fun _ => .string s := by
  unfold lpEncodeString
  split_ifs with h6 h12
  · exact lpEncode6_reads h6
  · exact lpEncode12_reads h12
  · exact lpEncode32_reads h

/-- The value of an element, as `lpGet` returns it. -/
def lpValue (s : Bytes) (intbuf : Bool) : LpValue :=
  (lpStringToInt64 s).elim (.string s) fun v => lpNumber v intbuf

theorem lpValue_true (s : Bytes) : lpValue s true = .string s := by
  unfold lpValue
  cases hv : lpStringToInt64 s with
  | none => rfl
  | some v =>
    rw [lpStringToInt64_eq, string2ll_eq_some_iff] at hv
    rw [hv.2.2]
    rfl

/-- Without one it is a number exactly if the string is its numeral. -/
theorem lpEncode_reads (h : s.length + 5 < 2 ^ 32) : LpReads (lpEncode s) (lpValue s) := by
  unfold lpEncode lpEncodeGetType lpValue
  cases hv : lpStringToInt64 s with
  | none => exact lpEncodeString_reads h
  | some v =>
    rw [lpStringToInt64_eq, string2ll_eq_some_iff] at hv
    exact lpEncodeInteger_reads hv.1 hv.2.1

theorem lpEncodeString_length (s : Bytes) : (lpEncodeString s).length =
    if s.length < 64 then 1 + s.length else if s.length < 4096 then 2 + s.length else 5 + s.length := by
  unfold lpEncodeString
  split_ifs
  · rw [length_cons, Nat.add_comm]
  · rw [length_cons, length_cons]
    omega
  · rw [length_cons, length_append, leBytes_length]
    omega

theorem lpEncodeGetType_snd (h : s.length + 5 < 2 ^ 32) : (lpEncodeGetType s).2 = (lpEncode s).length := by
  unfold lpEncode lpEncodeGetType
  cases lpStringToInt64 s with
  | none =>
    simp only [getD_none, lpEncodeString_length]
    split_ifs
    · rfl
    · rfl
    · exact Nat.mod_eq_of_lt (by omega)
  | some v => rfl

/-! ### Back lengths -/

/-- The lowest `n` groups of seven bits, each with the bit that says that there is more. -/
def lpContinued : ℕ → ℕ → Bytes
  | 0, _ => []
  | n + 1, l => lpContinued n (l / 128) ++ [UInt8.ofNat (l % 128 ||| 128)]

theorem lpContinued_length (n l : ℕ) : (lpContinued n l).length = n := by
  induction n generalizing l with
  | zero => rfl
  | succ n ih => rw [lpContinued, length_append, ih, length_singleton]

theorem lpEncodeBacklen_eq (h : l < 2 ^ 35) :
    ∃ n ≤ 4, l / 128 ^ n < 128 ∧ lpEncodeBacklen l = UInt8.ofNat (l / 128 ^ n) :: lpContinued n l := by
  have hand : ∀ m, m &&& 127 = m % 128 := fun m => Nat.and_two_pow_sub_one_eq_mod m 7
  unfold lpEncodeBacklen
  simp only [hand, Nat.shiftRight_eq_div_pow]
  split_ifs with h1 h2 h3 h4
  · exact ⟨0, by norm_num, by omega, by simp [lpContinued]⟩
  · exact ⟨1, by norm_num, by omega, by simp [lpContinued]⟩
  · exact ⟨2, by norm_num, by omega, by simp [lpContinued]⟩
  · exact ⟨3, by norm_num, by omega, by simp [lpContinued, Nat.div_div_eq_div_mul]⟩
  · exact ⟨4, by norm_num, by omega, by simp [lpContinued, Nat.div_div_eq_div_mul]⟩

theorem lpContinued_byte : ∀ n < 128, (UInt8.ofNat (n ||| 128)).toNat &&& 127 = n ∧
    (UInt8.ofNat (n ||| 128)).toNat &&& 128 ≠ 0 := by decide

theorem lpFirst_byte : ∀ n < 128, (UInt8.ofNat n).toNat &&& 127 = n ∧ (UInt8.ofNat n).toNat &&& 128 = 0 := by decide

theorem or_shiftLeft (h : val < 2 ^ shift) (m : ℕ) : val ||| m <<< shift = val + m * 2 ^ shift := by
  rw [Nat.or_comm, ← Nat.shiftLeft_add_eq_or_of_lt h, Nat.shiftLeft_eq, Nat.add_comm]

theorem lpDecodeBacklenLoop_eq (pre rest : Bytes) (hn : n < fuel) (hl : l / 128 ^ n < 128)
    (hshift : shift + 7 * n ≤ 28) (hval : val < 2 ^ shift) :
    lpDecodeBacklenLoop (pre ++ (UInt8.ofNat (l / 128 ^ n) :: lpContinued n l) ++ rest) fuel
      (pre.length + n) shift val =
      some (val + l * 2 ^ shift) := by
  induction n generalizing fuel shift val l rest with
  | zero =>
    obtain ⟨fuel, rfl⟩ := Nat.exists_eq_add_of_lt hn
    simp only [pow_zero, Nat.div_one] at hl ⊢
    obtain ⟨hlow, hlast⟩ := lpFirst_byte l hl
    rw [Nat.zero_add, lpDecodeBacklenLoop, lpContinued, append_assoc, singleton_append, Nat.add_zero,
      getElem?_at, bind_some, hlow, if_pos hlast, or_shiftLeft hval]
  | succ n ih =>
    obtain ⟨fuel, rfl⟩ := Nat.exists_eq_add_of_lt (Nat.zero_lt_of_lt hn)
    have hdiv : l / 128 ^ (n + 1) = l / 128 / 128 ^ n := by rw [Nat.div_div_eq_div_mul, pow_succ']
    rw [hdiv] at hl ⊢
    have hsplit : pre ++ (UInt8.ofNat (l / 128 / 128 ^ n) :: lpContinued (n + 1) l) ++ rest =
        pre ++ (UInt8.ofNat (l / 128 / 128 ^ n) :: lpContinued n (l / 128)) ++
          (UInt8.ofNat (l % 128 ||| 128) :: rest) := by
      simp [lpContinued]
    have hlast : (pre ++ (UInt8.ofNat (l / 128 / 128 ^ n) :: lpContinued n (l / 128)) ++
        (UInt8.ofNat (l % 128 ||| 128) :: rest))[pre.length + (n + 1)]? = some (UInt8.ofNat (l % 128 ||| 128)) := by
      have hlen : pre.length + (n + 1) =
          (pre ++ (UInt8.ofNat (l / 128 / 128 ^ n) :: lpContinued n (l / 128))).length := by
        rw [length_append, length_cons, lpContinued_length]
      rw [hlen]
      exact getElem?_at _ _ _
    obtain ⟨hlow, hmore⟩ := lpContinued_byte (l % 128) (Nat.mod_lt _ (by norm_num))
    rw [hsplit, Nat.zero_add, lpDecodeBacklenLoop, hlast, bind_some]
    simp only [hlow, if_neg hmore, or_shiftLeft hval]
    have hmod : l % 128 < 128 := Nat.mod_lt _ (by norm_num)
    have hval' : val + l % 128 * 2 ^ shift < 2 ^ (shift + 7) := by
      rw [pow_add]
      nlinarith
    rw [if_neg (by omega), if_neg (by omega), show pre.length + (n + 1) - 1 = pre.length + n by omega,
      ih _ (by omega) hl (by omega) hval', pow_add]
    congr 1
    have hl' : l = l / 128 * 128 + l % 128 := (Nat.div_add_mod' l 128).symm
    generalize l / 128 = q, l % 128 = m at hl'
    subst hl'
    ring

theorem lpDecodeBacklen_eq (h : l < 2 ^ 35) (pre rest : Bytes) :
    lpDecodeBacklen (pre ++ lpEncodeBacklen l ++ rest) (pre.length + (lpEncodeBacklen l).length - 1) = some l := by
  obtain ⟨n, hn, hlt, heq⟩ := lpEncodeBacklen_eq h
  rw [heq, length_cons, lpContinued_length, lpDecodeBacklen, Nat.add_succ_sub_one,
    lpDecodeBacklenLoop_eq pre rest (by omega) hlt (by omega) (by norm_num)]
  simp

theorem lpEncodeBacklen_length_pos (l : ℕ) : 0 < (lpEncodeBacklen l).length := by
  unfold lpEncodeBacklen
  split_ifs <;> simp

theorem lpEncodeBacklen_length_le (l : ℕ) : (lpEncodeBacklen l).length ≤ 5 := by
  unfold lpEncodeBacklen
  split_ifs <;> simp

/-! ### The block of a list -/

def lpEntry (s : Bytes) : Bytes := lpEncode s ++ lpEncodeBacklen (lpEncode s).length

def lpEntries (xs : List Bytes) : Bytes := xs.flatMap lpEntry

def lpSize (xs : List Bytes) : ℕ := LP_HDR_SIZE + (lpEntries xs).length + 1

def lpHeader (total num : ℕ) : Bytes := leBytes 4 total ++ leBytes 2 num

def lpBlock (num : ℕ) (xs : List Bytes) : Bytes := lpHeader (lpSize xs) num ++ lpEntries xs ++ [LP_EOF]

/-- The number in the header: the number of elements, or unknown. -/
def LpCounts (num n : ℕ) : Prop := num = LP_HDR_NUMELE_UNKNOWN ∨ num = n ∧ n < LP_HDR_NUMELE_UNKNOWN

/-- The block of the elements `xs`, within the size that the header can tell. -/
structure LpHolds (lp : Bytes) (num : ℕ) (xs : List Bytes) : Prop where
  block : lp = lpBlock num xs
  counts : LpCounts num xs.length
  size : lpSize xs ≤ 2 ^ 32 - 1

theorem lpEntries_append (a b : List Bytes) : lpEntries (a ++ b) = lpEntries a ++ lpEntries b :=
  flatMap_append

theorem lpEntries_cons (x : Bytes) (b : List Bytes) : lpEntries (x :: b) = lpEntry x ++ lpEntries b :=
  flatMap_cons

theorem lpEntries_singleton (x : Bytes) : lpEntries [x] = lpEntry x := by
  rw [lpEntries_cons]
  exact append_nil _

theorem lpHeader_length (total num : ℕ) : (lpHeader total num).length = LP_HDR_SIZE := by
  rw [lpHeader, length_append, leBytes_length, leBytes_length, LP_HDR_SIZE]

theorem lpBlock_length (num : ℕ) (xs : List Bytes) : (lpBlock num xs).length = lpSize xs := by
  rw [lpBlock, length_append, length_append, lpHeader_length, length_singleton, lpSize]

theorem LpCounts.lt (h : LpCounts num n) : num < 256 ^ 2 := by
  unfold LpCounts LP_HDR_NUMELE_UNKNOWN at h
  omega

theorem lpGetTotalBytes_header (h : total < 256 ^ 4) (t : Bytes) :
    lpGetTotalBytes (lpHeader total num ++ t) = some total := by
  have hread : Memory.read (lpHeader total num ++ t) 0 4 = some (leBytes 4 total) := by
    rw [lpHeader, append_assoc]
    exact read_append (a := []) rfl (leBytes_length _ _).symm
  rw [lpGetTotalBytes, hread, map_some, leVal_leBytes_of_lt h]

theorem lpGetNumElements_header (h : num < 256 ^ 2) (t : Bytes) :
    lpGetNumElements (lpHeader total num ++ t) = some num := by
  have hread : Memory.read (lpHeader total num ++ t) 4 2 = some (leBytes 2 num) :=
    read_append (leBytes_length _ _).symm (leBytes_length _ _).symm
  rw [lpGetNumElements, hread, map_some, leVal_leBytes_of_lt h]

theorem lpSetTotalBytes_header (total num v : ℕ) (t : Bytes) :
    lpSetTotalBytes (lpHeader total num ++ t) v = some (lpHeader v num ++ t) := by
  have hlen : (leBytes 4 v).length = (leBytes 4 total).length := by rw [leBytes_length, leBytes_length]
  rw [lpHeader, lpHeader, append_assoc, append_assoc]
  exact write_append (a := []) rfl hlen

theorem lpSetNumElements_header (total num v : ℕ) (t : Bytes) :
    lpSetNumElements (lpHeader total num ++ t) v = some (lpHeader total v ++ t) :=
  write_append (leBytes_length _ _).symm (by rw [leBytes_length, leBytes_length])

namespace LpHolds

theorem lpGetTotalBytes_eq (h : LpHolds lp num xs) : lpGetTotalBytes lp = some (lpSize xs) := by
  rw [h.block, lpBlock, append_assoc]
  exact lpGetTotalBytes_header (by have := h.size; omega) _

theorem lpGetNumElements_eq (h : LpHolds lp num xs) : lpGetNumElements lp = some num := by
  rw [h.block, lpBlock, append_assoc]
  exact lpGetNumElements_header h.counts.lt _

theorem split (h : LpHolds lp num (a ++ b)) :
    lp = lpHeader (lpSize (a ++ b)) num ++ lpEntries a ++ (lpEntries b ++ [LP_EOF]) := by
  rw [h.block, lpBlock, lpEntries_append, append_assoc, append_assoc, append_assoc]

end LpHolds

/-- The place behind the elements `a`. -/
def lpPlace (a : List Bytes) : ℕ := LP_HDR_SIZE + (lpEntries a).length

theorem lpPlace_eq (total num : ℕ) (a : List Bytes) : lpPlace a = (lpHeader total num ++ lpEntries a).length := by
  rw [length_append, lpHeader_length, lpPlace]

theorem lpPlace_snoc (a : List Bytes) (x : Bytes) : lpPlace (a ++ [x]) = lpPlace a + (lpEntry x).length := by
  rw [lpPlace, lpEntries_append, lpEntries_singleton, length_append, lpPlace, Nat.add_assoc]

theorem lpEncode_length_of_ge (h : 4096 ≤ x.length) : (lpEncode x).length = 5 + x.length := by
  unfold lpEncode lpEncodeGetType
  cases hv : lpStringToInt64 x with
  | none =>
    rw [getD_none, lpEncodeString_length, if_neg (by omega), if_neg (by omega)]
  | some v =>
    -- no number has that many digits
    rw [lpStringToInt64_eq, string2ll_eq_some_iff] at hv
    obtain ⟨h1, h2, rfl⟩ := hv
    unfold LLONG_MIN at h1
    unfold LLONG_MAX at h2
    have := decimal_length_le (i := v) (by omega) (by omega)
    omega

theorem length_of_size (h : lpSize (a ++ x :: b) ≤ 2 ^ 32 - 1) :
    x.length + 5 < 2 ^ 32 := by
  by_cases hlong : 4096 ≤ x.length
  · have hlen := lpEncode_length_of_ge hlong
    rw [lpSize, lpEntries_append, lpEntries_cons, lpEntry] at h
    simp only [length_append] at h
    omega
  · omega

theorem length_le_entries (xs : List Bytes) : xs.length ≤ (lpEntries xs).length := by
  induction xs with
  | nil => exact Nat.le_refl 0
  | cons x xs ih =>
    have hpos := lpEncodeBacklen_length_pos (lpEncode x).length
    rw [lpEntries_cons, lpEntry, length_append, length_append, length_cons]
    omega

/-! ### Traversal -/

theorem byte_behind (pre : Bytes) (h : lpSize (a ++ b) ≤ 2 ^ 32 - 1) :
    ∃ c, (pre ++ (lpEntries b ++ [LP_EOF]))[pre.length]? = some c ∧ (c = LP_EOF ↔ b = []) := by
  cases b with
  | nil => exact ⟨LP_EOF, getElem?_at _ _ _, by simp⟩
  | cons y b =>
    obtain ⟨hne, heof⟩ := (lpEncode_reads (length_of_size h)).head_ne
    rw [lpEntries_cons, lpEntry]
    cases henc : lpEncode y with
    | nil => exact absurd (by rw [henc]; rfl) hne
    | cons c t =>
      rw [henc] at heof
      refine ⟨c, getElem?_at _ _ _, ?_⟩
      constructor
      · intro hc
        exact absurd (congrArg some hc) heof
      · exact fun hnil => absurd hnil (cons_ne_nil _ _)

namespace LpHolds

variable {i : ℕ}

theorem byte_at (h : LpHolds lp num (a ++ b)) : ∃ c, lp[lpPlace a]? = some c ∧ (c = LP_EOF ↔ b = []) := by
  obtain ⟨c, hc, hend⟩ := byte_behind (lpHeader (lpSize (a ++ b)) num ++ lpEntries a) h.size
  rw [← lpPlace_eq, ← h.split] at hc
  exact ⟨c, hc, hend⟩

variable (h : LpHolds lp num (a ++ x :: b))
include h

theorem reads : LpReads (lpEncode x) (lpValue x) :=
  lpEncode_reads (length_of_size h.size)

theorem split_cons : lp = lpHeader (lpSize (a ++ x :: b)) num ++ lpEntries a ++
    (lpEncode x ++ (lpEncodeBacklen (lpEncode x).length ++ (lpEntries b ++ [LP_EOF]))) := by
  rw [h.split, lpEntries_cons, lpEntry]
  simp [append_assoc]

theorem lpCurrentEncodedSize_eq : lpCurrentEncodedSize lp (lpPlace a) = some (lpEncode x).length := by
  rw [h.split_cons, lpPlace_eq _ _ a]
  exact h.reads.size _ _

theorem lpGet_eq (intbuf : Bool) : lpGet lp (lpPlace a) intbuf = some (lpValue x intbuf) := by
  rw [h.split_cons, lpPlace_eq _ _ a]
  exact h.reads.get _ _ _

theorem lpSkip_eq : lpSkip lp (lpPlace a) = some (lpPlace (a ++ [x])) := by
  rw [lpSkip, h.lpCurrentEncodedSize_eq, map_some, lpPlace_snoc, lpEntry, length_append]

theorem lpNext_eq :
    lpNext lp (lpPlace a) = some (if b = [] then none else some (lpPlace (a ++ [x]))) := by
  have h' : LpHolds lp num ((a ++ [x]) ++ b) := by rwa [append_assoc]
  obtain ⟨c, hc, hend⟩ := h'.byte_at
  rw [lpNext, h.lpSkip_eq, bind_some, hc, map_some]
  simp [hend]

theorem lpPrev_eq : lpPrev lp (lpPlace (a ++ [x])) = some (some (lpPlace a)) := by
  have hpos := lpEncodeBacklen_length_pos (lpEncode x).length
  have hle := lpEncodeBacklen_length_le (lpEncode x).length
  have hsmall : (lpEncode x).length < 2 ^ 32 := by
    have hsize := h.size
    rw [lpSize, lpEntries_append, lpEntries_cons, lpEntry] at hsize
    simp only [length_append] at hsize
    omega
  have hplace : lpPlace (a ++ [x]) =
      lpPlace a + ((lpEncode x).length + (lpEncodeBacklen (lpEncode x).length).length) := by
    rw [lpPlace_snoc, lpEntry, length_append]
  have hge : LP_HDR_SIZE ≤ lpPlace a := Nat.le_add_right _ _
  have hback : lpDecodeBacklen lp (lpPlace (a ++ [x]) - 1) = some (lpEncode x).length := by
    have hsplit := h.split_cons
    rw [← append_assoc, ← append_assoc] at hsplit
    have hpre : lpPlace a + (lpEncode x).length =
        (lpHeader (lpSize (a ++ x :: b)) num ++ lpEntries a ++ lpEncode x).length := by
      rw [length_append, ← lpPlace_eq]
    rw [hplace, ← Nat.add_assoc, hpre, hsplit]
    exact lpDecodeBacklen_eq (by omega) _ _
  rw [lpPrev, if_neg (by omega), if_neg (by omega), hback, bind_some, Nat.mod_eq_of_lt (by omega),
    if_pos (by omega)]
  congr 2
  omega

omit h in
theorem lpPrev_first (lp : Bytes) : lpPrev lp (lpPlace []) = some none := if_pos rfl

end LpHolds

/-- The element at a position, `NULL` behind the last one. -/
def lpPtr (xs : List Bytes) (i : ℕ) : LpPtr := if i < xs.length then some (lpPlace (xs.take i)) else none

/-- The element at a position counted from the end, `NULL` before the first one. -/
def lpBack (xs : List Bytes) (j : ℕ) : LpPtr := if j < xs.length then lpPtr xs (xs.length - 1 - j) else none

namespace LpHolds

variable {i : ℕ}

variable (h : LpHolds lp num xs)
include h

theorem lpNext_ptr (hi : i < xs.length) : lpNext lp (lpPlace (xs.take i)) = some (lpPtr xs (i + 1)) := by
  obtain ⟨a, x, b, hxs, ha, hax, hb, -⟩ := split_at hi
  rw [hxs] at h
  rw [ha, h.lpNext_eq, lpPtr, hax, ← hb]
  by_cases hlast : i + 1 < xs.length
  · rw [if_pos hlast, if_neg (by rw [drop_eq_nil_iff]; omega)]
  · rw [if_neg hlast, if_pos (by rw [drop_eq_nil_iff]; omega)]

theorem lpPrev_succ (hi : i < xs.length) :
    lpPrev lp (lpPlace (xs.take (i + 1))) = some (some (lpPlace (xs.take i))) := by
  obtain ⟨a, x, b, hxs, ha, hax, -, -⟩ := split_at hi
  rw [hxs] at h
  rw [ha, hax, h.lpPrev_eq]

theorem lpFirst_eq : lpFirst lp = some (lpPtr xs 0) := by
  obtain ⟨c, hc, hend⟩ := h.byte_at (a := [])
  rw [lpFirst, show LP_HDR_SIZE = lpPlace [] from rfl, hc, map_some, lpPtr, take_zero]
  by_cases hnil : xs = []
  · rw [if_pos (hend.mpr hnil), hnil]
    rfl
  · rw [if_neg (mt hend.mp hnil), if_pos (length_pos_iff.mpr hnil)]

theorem lpPrev_back {j : ℕ} (hj : j < xs.length) :
    lpPrev lp (lpPlace (xs.take (xs.length - 1 - j))) = some (lpBack xs (j + 1)) := by
  rw [lpBack]
  split_ifs with hfirst
  · rw [lpPtr, if_pos (by omega), show xs.length - 1 - j = xs.length - 1 - (j + 1) + 1 by omega]
    exact h.lpPrev_succ (by omega)
  · rw [show xs.length - 1 - j = 0 by omega]
    exact lpPrev_first lp

theorem lpLast_eq : lpLast lp = some (lpBack xs 0) := by
  have hend : lpSize xs - 1 = lpPlace xs := rfl
  rw [lpLast, h.lpGetTotalBytes_eq, bind_some, if_neg (by rw [lpSize]; omega), hend, lpBack]
  by_cases hpos : 0 < xs.length
  · have htake : xs = xs.take (xs.length - 1 + 1) := by rw [Nat.sub_add_cancel hpos, take_length]
    have hprev := h.lpPrev_succ (i := xs.length - 1) (by omega)
    rw [← htake] at hprev
    rw [if_pos hpos, hprev, lpPtr, Nat.sub_zero, if_pos (by omega)]
  · rw [if_neg hpos, length_eq_zero_iff.mp (by omega : xs.length = 0)]
    exact lpPrev_first lp

/-! ### The length -/

theorem lpCount_eq {count : ℕ} (hfuel : xs.length ≤ fuel + i)
    (hcount : count + (xs.length - i) < 2 ^ 32) :
    lpCount lp fuel (lpPtr xs i) count = some (count + (xs.length - i)) := by
  induction fuel generalizing i count with
  | zero =>
    rw [lpPtr, if_neg (by omega), lpCount, show xs.length - i = 0 by omega, Nat.add_zero]
  | succ fuel ih =>
    by_cases hi : i < xs.length
    · rw [lpPtr, if_pos hi, lpCount, h.lpNext_ptr hi, bind_some, Nat.mod_eq_of_lt (by omega),
        ih (by omega) (by omega)]
      congr 1
      omega
    · rw [lpPtr, if_neg hi, lpCount, show xs.length - i = 0 by omega, Nat.add_zero]

theorem length_lt : xs.length < 2 ^ 32 := by
  have hle := length_le_entries xs
  have hsize := h.size
  unfold lpSize at hsize
  omega

theorem lpLength_eq : ∃ lp' num', lpLength lp = some (lp', xs.length) ∧ LpHolds lp' num' xs := by
  have hlt := h.length_lt
  rw [lpLength, h.lpGetNumElements_eq, bind_some]
  by_cases hknown : num = LP_HDR_NUMELE_UNKNOWN
  · have hfuel : xs.length ≤ lp.length + 0 := by
      have hle := length_le_entries xs
      rw [h.block, lpBlock_length, lpSize]
      omega
    rw [if_neg (not_not_intro hknown), h.lpFirst_eq, bind_some, h.lpCount_eq hfuel (by omega), bind_some,
      Nat.zero_add, Nat.sub_zero]
    split_ifs with hfew
    · rw [h.block, lpBlock, append_assoc, lpSetNumElements_header, map_some]
      exact ⟨_, xs.length, rfl, by rw [← append_assoc, ← lpBlock], .inr ⟨rfl, hfew⟩, h.size⟩
    · exact ⟨lp, num, rfl, h⟩
  · rw [if_pos hknown, (h.counts.resolve_left hknown).1]
    exact ⟨lp, num, rfl, h⟩

/-! ### Seeking -/

theorem lpSeekForward_eq (index : ℕ) : lpSeekForward lp index (lpPtr xs i) = some (lpPtr xs (i + index)) := by
  induction index generalizing i with
  | zero => rfl
  | succ index ih =>
    by_cases hi : i < xs.length
    · rw [lpPtr, if_pos hi, lpSeekForward, h.lpNext_ptr hi, bind_some, ih]
      congr 2
      omega
    · rw [lpPtr, if_neg hi, lpSeekForward, lpPtr, if_neg (by omega)]

theorem lpSeekBackward_eq (rounds : ℕ) {j : ℕ} :
    lpSeekBackward lp rounds (lpBack xs j) = some (lpBack xs (j + rounds)) := by
  induction rounds generalizing j with
  | zero => rfl
  | succ rounds ih =>
    by_cases hj : j < xs.length
    · rw [lpBack, if_pos hj, lpPtr, if_pos (by omega), lpSeekBackward, h.lpPrev_back hj, bind_some, ih]
      congr 2
      omega
    · rw [lpBack, if_neg hj, lpSeekBackward, lpBack, if_neg (by omega)]

theorem lpSeek_eq (index : ℤ) : lpSeek lp index = some ((position xs index).map fun i => lpPlace (xs.take i)) := by
  have hforward : ∀ index : ℤ, (lpFirst lp).bind (lpSeekForward lp index.toNat) = some (lpPtr xs index.toNat) := by
    intro index
    rw [h.lpFirst_eq, bind_some, h.lpSeekForward_eq, Nat.zero_add]
  have hbackward : ∀ index : ℤ, (lpLast lp).bind (lpSeekBackward lp (-1 - index).toNat) =
      some (lpBack xs (-1 - index).toNat) := by
    intro index
    rw [h.lpLast_eq, bind_some, h.lpSeekBackward_eq, Nat.zero_add]
  rw [lpSeek, h.lpGetNumElements_eq, bind_some]
  simp only [hforward, hbackward]
  have hback : ∀ j < xs.length, lpBack xs j = lpPtr xs (xs.length - 1 - j) := fun j hj => if_pos hj
  have hnone : ∀ j ≥ xs.length, lpBack xs j = none := fun j hj => if_neg (Nat.not_lt.mpr hj)
  have hptr : ∀ i < xs.length, lpPtr xs i = some (lpPlace (xs.take i)) := fun i hi => if_pos hi
  have hout : ∀ i ≥ xs.length, lpPtr xs i = none := fun i hi => if_neg (Nat.not_lt.mpr hi)
  unfold position
  by_cases hknown : num = LP_HDR_NUMELE_UNKNOWN
  · rw [if_neg (not_not_intro hknown)]
    by_cases hneg : index < 0
    · simp only [if_pos hneg]
      split_ifs with hin
      · rw [hback _ (by omega), hptr _ (by omega), map_some,
          show xs.length - 1 - (-1 - index).toNat = ((xs.length : ℤ) + index).toNat by omega]
      · rw [hnone _ (by omega), map_none]
    · simp only [if_neg hneg]
      split_ifs with hin
      · rw [hptr _ (by omega), map_some]
      · rw [hout _ (by omega), map_none]
  · -- the header knows the number: the index becomes one from the front, and the way is the shorter one
    rw [if_pos hknown, (h.counts.resolve_left hknown).1]
    generalize (if index < 0 then (xs.length : ℤ) + index else index) = i
    by_cases hin : 0 ≤ i ∧ i < xs.length
    · rw [if_neg (by omega), if_neg (by omega), if_pos hin, map_some]
      split_ifs with hhalf
      · rw [hback _ (by omega), hptr _ (by omega),
          show xs.length - 1 - (-1 - (i - xs.length)).toNat = i.toNat by omega]
      · rw [hptr _ (by omega)]
    · rw [if_neg hin, map_none]
      by_cases hlow : i < 0
      · rw [if_pos hlow]
      · rw [if_neg hlow, if_pos (by omega)]

end LpHolds

theorem lpPtr_eq_some {i p : ℕ} (h : lpPtr xs i = some p) :
    i < xs.length ∧ lpPlace (xs.take i) = p := by
  unfold lpPtr at h
  split_ifs at h with hi
  exact ⟨hi, some.inj h⟩

namespace LpHolds

variable {i : ℕ} (h : LpHolds lp num xs)
include h

theorem lpLast_ptr : lpLast lp = some (lpPtr xs (xs.length - 1)) := by
  rw [h.lpLast_eq, lpBack, Nat.sub_zero]
  split_ifs with hpos
  · rfl
  · rw [lpPtr, if_neg (by omega)]

theorem lpSeek_ptr (index : ℤ) :
    lpSeek lp index = some ((position xs index).bind (lpPtr xs)) := by
  rw [h.lpSeek_eq]
  cases hpos : position xs index with
  | none => rfl
  | some i =>
    rw [map_some, bind_some, lpPtr, if_pos (lt_of_position hpos)]

theorem lpGet_at (hi : i < xs.length) (intbuf : Bool) :
    lpGet lp (lpPlace (xs.take i)) intbuf = some (lpValue xs[i] intbuf) := by
  obtain ⟨a, x, b, hxs, ha, -, -, hx⟩ := split_at hi
  rw [hxs] at h
  rw [ha, h.lpGet_eq, some.inj ((List.getElem?_eq_getElem hi).symm.trans hx)]

end LpHolds

/-! ### Changing the list -/

theorem lpStore_eq (hs : s.length + 5 < 2 ^ 32) {pre : Bytes} (rest : Bytes)
    (hroom : room.length = (lpEntry s).length) :
    lpStore (pre ++ room ++ rest) pre.length s = some (pre ++ lpEntry s ++ rest) := by
  have hsplit : pre ++ room ++ rest =
      pre ++ room.take (lpEncode s).length ++ (room.drop (lpEncode s).length ++ rest) := by
    rw [← append_assoc, append_assoc pre (room.take _), take_append_drop]
  rw [lpEntry, length_append] at hroom
  have hfirst : Memory.write (pre ++ room ++ rest) pre.length (lpEncode s) =
      some (pre ++ lpEncode s ++ (room.drop (lpEncode s).length ++ rest)) := by
    rw [hsplit]
    apply write_append rfl
    rw [length_take]
    omega
  have hsecond : Memory.write (pre ++ lpEncode s ++ (room.drop (lpEncode s).length ++ rest))
      (pre.length + (lpEncode s).length) (lpEncodeBacklen (lpEncode s).length) =
      some (pre ++ lpEncode s ++ lpEncodeBacklen (lpEncode s).length ++ rest) := by
    rw [← append_assoc]
    apply write_append
    · rw [length_append]
    · rw [length_drop]
      omega
  have hstore : lpStore (pre ++ room ++ rest) pre.length s =
      (Memory.write (pre ++ room ++ rest) pre.length (lpEncode s)).bind fun lp =>
        Memory.write lp (pre.length + (lpEncodeGetType s).2) (lpEncodeBacklen (lpEncodeGetType s).2) := rfl
  rw [hstore, lpEncodeGetType_snd hs, hfirst, bind_some, hsecond, lpEntry, ← append_assoc pre]

theorem lpUpdateNumElements_header (hnum : LpCounts num n) (inserted : Bool)
    (hm : if inserted then m = n + 1 else m + 1 = n) (total : ℕ) (t : Bytes) :
    ∃ num', lpUpdateNumElements (lpHeader total num ++ t) inserted = some (lpHeader total num' ++ t) ∧
      LpCounts num' m := by
  rw [lpUpdateNumElements, lpGetNumElements_header hnum.lt, bind_some]
  by_cases hknown : num = LP_HDR_NUMELE_UNKNOWN
  · rw [if_neg (not_not_intro hknown)]
    exact ⟨num, rfl, .inl hknown⟩
  · obtain ⟨rfl, hlt⟩ := hnum.resolve_left hknown
    rw [if_pos hknown]
    cases inserted with
    | true =>
      refine ⟨num + 1, lpSetNumElements_header _ _ _ _, ?_⟩
      simp only [if_true] at hm
      unfold LpCounts
      omega
    | false =>
      refine ⟨num - 1, lpSetNumElements_header _ _ _ _, .inr ?_⟩
      simp only [Bool.false_eq_true, if_false] at hm
      omega

/-- A block with `room` between the elements `a` and `b`. -/
def lpAround (total num : ℕ) (a : List Bytes) (room : Bytes) (b : List Bytes) : Bytes :=
  lpHeader total num ++ lpEntries a ++ room ++ (lpEntries b ++ [LP_EOF])

theorem lpSetTotalBytes_block (total num : ℕ) (a e b : List Bytes) :
    lpSetTotalBytes (lpAround total num a (lpEntries e) b)
      (lpSize (a ++ (e ++ b))) = some (lpBlock num (a ++ (e ++ b))) := by
  rw [lpBlock, lpEntries_append, lpEntries_append, lpAround]
  simp only [append_assoc]
  exact lpSetTotalBytes_header _ _ _ _

theorem lpUpdateNumElements_block (hnum : LpCounts num n) (inserted : Bool)
    (hm : if inserted then m = n + 1 else m + 1 = n) (total : ℕ) (a e b : List Bytes) :
    ∃ num', lpUpdateNumElements (lpAround total num a (lpEntries e) b) inserted =
        some (lpAround total num' a (lpEntries e) b) ∧ LpCounts num' m := by
  simp only [lpAround, append_assoc]
  exact lpUpdateNumElements_header hnum inserted hm total _

theorem lpFill_eq {n : ℕ} (hnum : LpCounts num n) {ele : Option Bytes} {replace : Bool}
    (hroom : room.length = (lpEntries ele.toList).length) (hele : ele.isNone → replace)
    (hn : n = (a ++ b).length + if replace then 1 else 0) (hsize : lpSize (a ++ (ele.toList ++ b)) ≤ 2 ^ 32 - 1) :
    ∃ lp' num', lpFill (lpAround total num a room b) ele replace (lpPlace a)
        (lpSize (a ++ (ele.toList ++ b))) = some (lp', if ele.toList ++ b = [] then none else some (lpPlace a)) ∧
      LpHolds lp' num' (a ++ (ele.toList ++ b)) := by
  have hbyte : ∃ c, (lpAround total num a room b)[lpPlace a]? = some c ∧
      ((ele.isNone ∧ c = LP_EOF) ↔ ele.toList ++ b = []) := by
    cases ele with
    | none =>
      obtain rfl := eq_nil_of_length_eq_zero hroom
      obtain ⟨c, hc, hend⟩ := byte_behind (lpHeader total num ++ lpEntries a) hsize
      rw [← lpPlace_eq] at hc
      refine ⟨c, ?_, by simpa using hend⟩
      rw [lpAround, append_nil]
      exact hc
    | some s =>
      have hlt : lpPlace a < (lpAround total num a room b).length := by
        rw [lpAround, length_append, length_append, ← lpPlace_eq, length_append, length_singleton]
        omega
      exact ⟨_, List.getElem?_eq_getElem hlt, by simp⟩
  have hstore : (ele.elim (some (lpAround total num a room b))
      (lpStore (lpAround total num a room b) (lpPlace a))) =
      some (lpAround total num a (lpEntries ele.toList) b) := by
    cases ele with
    | none =>
      obtain rfl := eq_nil_of_length_eq_zero hroom
      rfl
    | some s =>
      rw [toList_some, lpEntries_singleton] at hroom ⊢
      rw [elim_some, lpPlace_eq total num a]
      exact lpStore_eq (length_of_size hsize) _ hroom
  have hupdate : ∃ num', (if !replace ∨ ele.isNone then
        lpUpdateNumElements (lpAround total num a (lpEntries ele.toList) b) ele.isSome
      else some (lpAround total num a (lpEntries ele.toList) b)) =
      some (lpAround total num' a (lpEntries ele.toList) b) ∧
        LpCounts num' (a ++ (ele.toList ++ b)).length := by
    split_ifs with hcount
    · refine lpUpdateNumElements_block hnum _ ?_ _ _ _ _
      cases ele with
      | none => simp [hn, hele rfl]
      | some s =>
        have hrep : replace = false := by simpa using hcount
        simp [hn, hrep]
        omega
    · refine ⟨num, rfl, ?_⟩
      cases ele with
      | none => simp at hcount
      | some s =>
        have hrep : replace = true := by simpa using hcount
        have hlen : (a ++ ((some s).toList ++ b)).length = n := by
          simp [hn, hrep]
          omega
        rwa [hlen]
  obtain ⟨c, hc, hend⟩ := hbyte
  obtain ⟨num', hupdate, hnum'⟩ := hupdate
  refine ⟨_, num', ?_, rfl, hnum', hsize⟩
  rw [lpFill, hc]
  simp only [bind_some, hstore, hupdate, lpSetTotalBytes_block, map_some, hend]

/-- Elements `d` of the list, none or one, make way for `ele`, one or none. -/
theorem LpHolds.lpInsertAt_eq {d : List Bytes} (h : LpHolds lp num (a ++ (d ++ b)))
    (ele : Option Bytes) (replace : Bool) (hd : d.length = if replace then 1 else 0) (hele : ele.isNone → replace)
    (hsize : lpSize (a ++ (ele.toList ++ b)) ≤ 2 ^ 32 - 1) :
    ∃ lp' num', lpInsertAt lp ele replace (lpPlace a) (lpSize (a ++ (d ++ b))) (lpEntries d).length =
        some (some (lp', if ele.toList ++ b = [] then none else some (lpPlace a))) ∧
      LpHolds lp' num' (a ++ (ele.toList ++ b)) := by
  have hlp : lp = lpAround (lpSize (a ++ (d ++ b))) num a (lpEntries d) b := by
    rw [h.split, lpAround, lpEntries_append, append_assoc, append_assoc, append_assoc, append_assoc]
  have hsum : ∀ e : List Bytes,
      lpSize (a ++ (e ++ b)) = lpPlace a + (lpEntries e).length + (lpEntries b ++ [LP_EOF]).length := by
    intro e
    rw [lpSize, lpPlace, lpEntries_append, lpEntries_append]
    simp only [length_append, length_singleton]
    omega
  have hold := hsum d
  have hnew := hsum ele.toList
  -- the sizes that the program computes
  have henc : (ele.elim 0 fun s => (lpEncodeGetType s).2) +
      (ele.elim 0 fun s => (lpEncodeBacklen (lpEncodeGetType s).2).length) = (lpEntries ele.toList).length := by
    cases ele with
    | none => rfl
    | some s =>
      rw [elim_some, elim_some, lpEncodeGetType_snd (length_of_size hsize), toList_some,
        lpEntries_singleton, lpEntry, length_append]
  simp only [lpInsertAt]
  generalize (ele.elim 0 fun s => (lpEncodeGetType s).2) = enclen at henc ⊢
  generalize (ele.elim 0 fun s => (lpEncodeBacklen (lpEncodeGetType s).2).length) = backlen at henc ⊢
  have hbytes : lpSize (a ++ (d ++ b)) + enclen + backlen - (lpEntries d).length = lpSize (a ++ (ele.toList ++ b)) := by
    omega
  have hdst : lpPlace a + enclen + backlen = lpPlace a + (lpEntries ele.toList).length := by omega
  have htail : lpSize (a ++ (d ++ b)) - lpPlace a - (lpEntries d).length = (lpEntries b ++ [LP_EOF]).length := by omega
  -- the room for the element
  rw [lpPlace_eq (lpSize (a ++ (d ++ b))) num a] at hnew
  obtain ⟨room, m, hroom, hmove, hshrink⟩ := make_room (0 : UInt8)
    (lpHeader (lpSize (a ++ (d ++ b))) num ++ lpEntries a) (lpEntries d) (lpEntries b ++ [LP_EOF]) hnew
  have hlen : (lpAround (lpSize (a ++ (d ++ b))) num a (lpEntries d) b).length = lpSize (a ++ (d ++ b)) := by
    rw [hold, lpAround, length_append, length_append, ← lpPlace_eq]
  rw [← lpAround, hlen, ← hlp, ← lpPlace_eq] at hmove
  rw [← lpAround, hlen, ← lpAround] at hshrink
  obtain ⟨lp', num', hfill, hholds⟩ := @lpFill_eq num (lpSize (a ++ (d ++ b))) _ _ _ _ h.counts _ _ hroom hele
    (by rw [length_append, length_append, length_append, hd]; ac_rfl) hsize
  refine ⟨lp', num', ?_, hholds⟩
  simp only [hbytes, hdst, htail, hmove, bind_some, hshrink, hfill, map_some]
  rw [if_neg (Nat.not_lt.mpr hsize)]

namespace LpHolds

theorem lpInsert_before (h : LpHolds lp num (a ++ b)) (hsize : lpSize (a ++ s :: b) ≤ 2 ^ 32 - 1) :
    ∃ lp' num', lpInsert lp (some s) (lpPlace a) .before = some (some (lp', some (lpPlace a))) ∧
      LpHolds lp' num' (a ++ s :: b) := by
  obtain ⟨lp', num', hrun, hholds⟩ := lpInsertAt_eq (d := []) h (some s) false rfl (by simp) hsize
  refine ⟨lp', num', ?_, hholds⟩
  rw [lpInsert, h.lpGetTotalBytes_eq]
  exact hrun

theorem lpAppend_eq (h : LpHolds lp num xs) (hsize : lpSize (xs ++ [s]) ≤ 2 ^ 32 - 1) :
    ∃ lp' num', lpAppend lp s = some (some (lp', some (lpPlace xs))) ∧ LpHolds lp' num' (xs ++ [s]) := by
  have h' : LpHolds lp num (xs ++ []) := by rwa [append_nil]
  obtain ⟨lp', num', hrun, hholds⟩ := h'.lpInsert_before hsize
  refine ⟨lp', num', ?_, hholds⟩
  rw [lpAppend, h.lpGetTotalBytes_eq, bind_some, if_neg (by rw [lpSize]; omega)]
  exact hrun

variable (h : LpHolds lp num (a ++ x :: b))
include h

theorem lpReplacedLen_eq :
    lpReplacedLen lp (lpPlace a) = some (lpEntries [x]).length := by
  have hsize := h.size
  rw [lpSize, lpEntries_append, lpEntries_cons, lpEntry] at hsize
  simp only [length_append] at hsize
  rw [lpReplacedLen, h.lpCurrentEncodedSize_eq, map_some, Nat.mod_eq_of_lt (by omega), lpEntries_singleton, lpEntry,
    length_append]

theorem lpInsert_after (hsize : lpSize (a ++ x :: s :: b) ≤ 2 ^ 32 - 1) :
    ∃ lp' num', lpInsert lp (some s) (lpPlace a) .after = some (some (lp', some (lpPlace (a ++ [x])))) ∧
      LpHolds lp' num' (a ++ x :: s :: b) := by
  have h' := h
  rw [append_cons] at h' hsize
  obtain ⟨lp', num', hrun, hholds⟩ := h'.lpInsert_before hsize
  rw [← append_cons] at hholds
  refine ⟨lp', num', ?_, hholds⟩
  rw [← hrun, lpInsert, lpInsert]
  simp [h.lpSkip_eq]

theorem lpInsert_replace (hsize : lpSize (a ++ s :: b) ≤ 2 ^ 32 - 1) :
    ∃ lp' num', lpInsert lp (some s) (lpPlace a) .replace = some (some (lp', some (lpPlace a))) ∧
      LpHolds lp' num' (a ++ s :: b) := by
  obtain ⟨lp', num', hrun, hholds⟩ := lpInsertAt_eq (d := [x]) h (some s) true rfl (by simp) hsize
  refine ⟨lp', num', ?_, hholds⟩
  rw [lpInsert, h.lpGetTotalBytes_eq]
  simp only [isNone_some, Bool.false_eq_true, if_false, reduceCtorEq, bind_some, if_true,
    h.lpReplacedLen_eq]
  exact hrun

theorem lpDelete_eq (hsize : lpSize (a ++ b) ≤ 2 ^ 32 - 1) :
    ∃ lp' num', lpDelete lp (lpPlace a) = some (some (lp', if b = [] then none else some (lpPlace a))) ∧
      LpHolds lp' num' (a ++ b) := by
  obtain ⟨lp', num', hrun, hholds⟩ := lpInsertAt_eq (d := [x]) h none true rfl (by simp) hsize
  refine ⟨lp', num', ?_, hholds⟩
  rw [lpDelete, lpInsert, h.lpGetTotalBytes_eq]
  simp only [isNone_none, reduceCtorEq, bind_some, if_false, if_true, h.lpReplacedLen_eq]
  exact hrun

end LpHolds

/-! ### Runs -/

theorem LpHolds.exec (h : LpHolds lp num xs) (op : LpOp)
    (hsize : lpSize (op.apply xs) ≤ 2 ^ 32 - 1) :
    ∃ lp' num', op.exec lp = some lp' ∧ LpHolds lp' num' (op.apply xs) := by
  cases op with
  | insert index ele where_ =>
    rw [LpOp.exec, h.lpSeek_eq, bind_some]
    obtain hnone | ⟨a, x, b, rfl, hsome⟩ := position_cases xs index
    · rw [hnone]
      refine ⟨lp, num, rfl, ?_⟩
      cases where_ <;> simpa [LpOp.apply, hnone] using h
    · rw [hsome, map_some, take_left, elim_some]
      cases where_ with
      | before =>
        have happly : (LpOp.insert index ele .before).apply (a ++ x :: b) = a ++ ele :: x :: b := by
          simp [LpOp.apply, hsome, insertIdx_length_append]
        rw [happly] at hsize ⊢
        obtain ⟨lp', num', hrun, hholds⟩ := h.lpInsert_before hsize
        exact ⟨lp', num', by rw [hrun]; rfl, hholds⟩
      | after =>
        have happly : (LpOp.insert index ele .after).apply (a ++ x :: b) = a ++ x :: ele :: b := by
          have hidx := insertIdx_length_append (a ++ [x]) b ele
          simpa [LpOp.apply, hsome] using hidx
        rw [happly] at hsize ⊢
        obtain ⟨lp', num', hrun, hholds⟩ := h.lpInsert_after hsize
        exact ⟨lp', num', by rw [hrun]; rfl, hholds⟩
      | replace =>
        have happly : (LpOp.insert index ele .replace).apply (a ++ x :: b) = a ++ ele :: b := by
          simp [LpOp.apply, hsome]
        rw [happly] at hsize ⊢
        obtain ⟨lp', num', hrun, hholds⟩ := h.lpInsert_replace hsize
        exact ⟨lp', num', by rw [hrun]; rfl, hholds⟩
  | append ele =>
    obtain ⟨lp', num', hrun, hholds⟩ := h.lpAppend_eq hsize
    exact ⟨lp', num', by rw [LpOp.exec, hrun]; rfl, hholds⟩
  | delete index =>
    rw [LpOp.exec, h.lpSeek_eq, bind_some]
    obtain hnone | ⟨a, x, b, rfl, hsome⟩ := position_cases xs index
    · rw [hnone]
      exact ⟨lp, num, rfl, by simpa [LpOp.apply, hnone] using h⟩
    · have happly : (LpOp.delete index).apply (a ++ x :: b) = a ++ b := by
        simp [LpOp.apply, hsome, eraseIdx_append_of_length_le]
      rw [happly] at hsize ⊢
      rw [hsome, map_some, take_left, elim_some]
      obtain ⟨lp', num', hrun, hholds⟩ := h.lpDelete_eq hsize
      exact ⟨lp', num', by rw [hrun]; rfl, hholds⟩
  | length =>
    obtain ⟨lp', num', hrun, hholds⟩ := h.lpLength_eq
    exact ⟨lp', num', by rw [LpOp.exec, hrun]; rfl, hholds⟩

def lpElements (ops : List LpOp) (xs : List Bytes) : List Bytes := ops.foldl (fun xs op => op.apply xs) xs

theorem LpHolds.run (h : LpHolds lp num xs) {ops : List LpOp}
    (hsize : ∀ pre, pre <+: ops → lpSize (lpElements pre xs) ≤ 2 ^ 32 - 1) :
    ∃ lp' num', lpRun ops lp = some lp' ∧ LpHolds lp' num' (lpElements ops xs) := by
  induction ops generalizing lp num xs with
  | nil => exact ⟨lp, num, rfl, h⟩
  | cons op ops ih =>
    obtain ⟨lp₁, num₁, hexec, h₁⟩ := h.exec op (hsize [op] (by simp))
    obtain ⟨lp₂, num₂, hrun, h₂⟩ := ih h₁ fun pre hpre => hsize (op :: pre) (by simpa using hpre)
    exact ⟨lp₂, num₂, by rw [lpRun, hexec, bind_some, hrun], h₂⟩

theorem lpNew_holds : LpHolds lpNew 0 [] := ⟨rfl, .inr ⟨rfl, by decide⟩, by decide⟩

/-- A listpack is a list of byte strings. After every sequence of calls that stays within the
size limit the block is the one of the list of the model, whatever the header still knows of its
length; traversal in both directions, the length, seeking from either end and reading agree with
the list. -/
theorem listpack_refines {ops : List LpOp}
    (hsize : ∀ pre, pre <+: ops → lpSize (lpElements pre []) ≤ 2 ^ 32 - 1) : let xs := lpElements ops []
    ∃ lp num, lpRun ops lpNew = some lp ∧ LpHolds lp num xs ∧
      (∃ lp' num', lpLength lp = some (lp', xs.length) ∧ LpHolds lp' num' xs) ∧
      lpFirst lp = some (lpPtr xs 0) ∧ lpLast lp = some (lpPtr xs (xs.length - 1)) ∧
      (∀ index, lpSeek lp index = some ((position xs index).bind (lpPtr xs))) ∧
        ∀ (i : ℕ) (p : ℕ), lpPtr xs i = some p →
        lpNext lp p = some (lpPtr xs (i + 1)) ∧ (∀ q, lpNext lp p = some (some q) →
          lpPrev lp q = some (some p)) ∧
          (i = 0 → lpPrev lp p = some none) ∧ lpGet lp p true = xs[i]?.map .string ∧
            lpGet lp p false = xs[i]?.map fun x => (string2ll x).elim (.string x) .integer := by
  intro xs
  obtain ⟨lp, num, hrun, h⟩ := lpNew_holds.run hsize
  refine ⟨lp, num, hrun, h, h.lpLength_eq, h.lpFirst_eq, h.lpLast_ptr, h.lpSeek_ptr, ?_⟩
  intro i p hp
  obtain ⟨hi, rfl⟩ := lpPtr_eq_some hp
  refine ⟨h.lpNext_ptr hi, ?_, ?_, ?_, ?_⟩
  · intro q hq
    rw [h.lpNext_ptr hi] at hq
    obtain ⟨hi', rfl⟩ := lpPtr_eq_some (some.inj hq)
    exact h.lpPrev_succ hi
  · intro h0
    rw [h0]
    exact LpHolds.lpPrev_first lp
  · rw [h.lpGet_at hi, List.getElem?_eq_getElem hi, map_some, lpValue_true]
  · rw [h.lpGet_at hi, List.getElem?_eq_getElem hi, map_some, lpValue, lpStringToInt64_eq]
    rfl

/-- Insertions at both ends and in between, of numbers and of strings, a replacement and a
deletion. -/
def lpCalls : List LpOp :=
  [.append [53], .insert 0 [104, 105] .before, .insert (-1) [45, 52, 48, 57, 55] .after, .insert 1 [48, 49] .replace,
    .append [], .delete 0, .length]

theorem listpack_refines_lpCalls : ∃ lp, lpRun lpCalls lpNew = some lp ∧
      lpSeek lp (-2) = some (lpPtr [[48, 49], [45, 52, 48, 57, 55], []] 1) ∧
      ∀ p, lpPtr [[48, 49], [45, 52, 48, 57, 55], []] 1 = some p →
        lpGet lp p true = some (.string [45, 52, 48, 57, 55]) ∧ lpGet lp p false = some (.integer (-4097)) := by
  have hinits : ∀ pre ∈ lpCalls.inits, lpSize (lpElements pre []) ≤ 2 ^ 32 - 1 := by decide
  obtain ⟨lp, -, hrun, -, -, -, -, hseek, hget⟩ :=
    listpack_refines fun pre hpre => hinits pre ((mem_inits pre lpCalls).mpr hpre)
  refine ⟨lp, hrun, hseek (-2), ?_⟩
  intro p hp
  obtain ⟨-, -, -, hstring, hnumber⟩ := hget 1 p hp
  exact ⟨hstring, hnumber⟩

end RedisIR
