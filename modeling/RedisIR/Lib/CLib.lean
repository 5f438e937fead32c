import Mathlib

/-! The part of the C library that byte-oriented programs lean on: strings that
end at their first zero byte, decimal conversion in both directions, and buffered
reads from the front of a file. Nothing here knows which program uses it. -/

namespace CLib

open List

variable {b rest l : Bytes} {i : ℤ} {n : ℕ} {c : UInt8}

abbrev Bytes := List UInt8

def LF : UInt8 := 10
def CR : UInt8 := 13

def ascii (cs : List Char) : Bytes := cs.map Char.toUInt8

@[ext] structure CStr where
  val : Bytes
  nul_free : (0 : UInt8) ∉ val
  deriving DecidableEq

theorem takeWhile_nul_free (b : Bytes) : (0 : UInt8) ∉ b.takeWhile (fun c => c ≠ 0) := by
  intro h
  simpa using mem_takeWhile_imp h

/-- What `strlen`, `strcpy` and `%s` see of a byte buffer. -/
def cstr (b : Bytes) : CStr := ⟨b.takeWhile (fun c => c ≠ 0), takeWhile_nul_free b⟩

def strlen (b : Bytes) : ℕ := (cstr b).val.length

theorem cstr_length_le (b : Bytes) : (cstr b).val.length ≤ b.length :=
  (takeWhile_sublist _).length_le

theorem cstr_val_of_nul_free (h : (0 : UInt8) ∉ b) : (cstr b).val = b := by
  apply takeWhile_eq_self_iff.mpr
  intro c hc
  have : c ≠ 0 := fun h0 => h (h0 ▸ hc)
  simpa using this

theorem cstr_val (s : CStr) : cstr s.val = s := by
  ext1
  exact cstr_val_of_nul_free s.nul_free

theorem cstr_eq_iff (h : (0 : UInt8) ∉ b) (s : CStr) : cstr b = s ↔ b = s.val := by
  refine ⟨?_, ?_⟩
  · rintro rfl
    exact (cstr_val_of_nul_free h).symm
  · rintro rfl
    exact cstr_val s

theorem cstr_append_val {a : Bytes} (h : (0 : UInt8) ∉ a) (b : Bytes) : (cstr (a ++ b)).val = a ++ (cstr b).val := by
  apply takeWhile_append_of_pos
  intro c hc
  have : c ≠ 0 := fun h0 => h (h0 ▸ hc)
  simpa using this

theorem strlen_of_nul_free (h : (0 : UInt8) ∉ b) : strlen b = b.length := by
  rw [strlen, cstr_val_of_nul_free h]

theorem nul_free_append {a : Bytes} (ha : (0 : UInt8) ∉ a) (hb : (0 : UInt8) ∉ b) : (0 : UInt8) ∉ a ++ b := by
  simp [ha, hb]

/-! ### Characters -/

def toupper (c : UInt8) : UInt8 := if 97 ≤ c ∧ c ≤ 122 then c - 32 else c

/-- `tolower` in the C locale. -/
def tolower (c : ℤ) : ℤ := if 65 ≤ c ∧ c ≤ 90 then c + 32 else c

/-- The value of a plain `char`, which is signed. -/
def char (c : UInt8) : ℤ := c.toInt8.toInt

def isspace (c : UInt8) : Bool := c == 32 || (9 ≤ c && c ≤ 13)

def isdigit (c : UInt8) : Bool := 48 ≤ c && c ≤ 57

/-- `'0' + d` -/
def digitByte (d : ℕ) : UInt8 := 48 + UInt8.ofNat d

theorem isdigit_digitByte {d : ℕ} (h : d < 10) : isdigit (digitByte d) = true := by
  interval_cases d <;> rfl

theorem toNat_digitByte {d : ℕ} (h : d < 10) : (digitByte d).toNat - 48 = d := by
  interval_cases d <;> rfl

theorem char_eq (c : UInt8) : char c = if c.toNat < 128 then (c.toNat : ℤ) else c.toNat - 256 := by
  revert c
  decide +kernel

/-! ### Decimal numerals -/

/-- `%llu` -/
def natDecimal (n : ℕ) : Bytes :=
  if n = 0 then [digitByte 0] else (Nat.digits 10 n).reverse.map digitByte

/-- `%lld` -/
def decimal (i : ℤ) : Bytes :=
  if i < 0 then 45 :: natDecimal i.natAbs else natDecimal i.natAbs

/-- The value of the longest run of digits at the front, on top of `acc`. -/
def readDigits (acc : ℕ) : Bytes → ℕ
  | [] => acc
  | c :: cs => if isdigit c then readDigits (acc * 10 + (c.toNat - 48)) cs else acc

/-- `strtol` in base ten: leading blanks, a sign, digits, saturation at the ends
of a 64-bit `long`. -/
def strtol (s : Bytes) : ℤ :=
  match s.dropWhile isspace with
  | 45 :: t => max (-(2 ^ 63)) (-(readDigits 0 t : ℤ))
  | 43 :: t => min (2 ^ 63 - 1) (readDigits 0 t : ℤ)
  | t => min (2 ^ 63 - 1) (readDigits 0 t : ℤ)

/-- Reduction to a 32-bit `int`. -/
def wrapInt (i : ℤ) : ℤ := Int.bmod i (2 ^ 32)

/-- `(int) strtol(s, NULL, 10)` -/
def atoi (s : Bytes) : ℤ := wrapInt (strtol s)

theorem wrapInt_eq (h1 : -2 ^ 31 ≤ i) (h2 : i < 2 ^ 31) : wrapInt i = i := by
  unfold wrapInt
  rw [Int.bmod_eq_of_le] <;> norm_num <;> omega

theorem wrapInt_range (i : ℤ) : -2 ^ 31 ≤ wrapInt i ∧ wrapInt i < 2 ^ 31 := by
  refine ⟨?_, ?_⟩
  · have := Int.le_bmod (x := i) (m := 2 ^ 32) (by norm_num)
    norm_num at this
    unfold wrapInt
    norm_num
    omega
  · have := Int.bmod_lt (x := i) (m := 2 ^ 32) (by norm_num)
    norm_num at this
    unfold wrapInt
    norm_num
    omega

theorem wrapInt_add (i j : ℤ) : wrapInt (wrapInt i + j) = wrapInt (i + j) := by
  simp [wrapInt]

theorem wrapInt_eq_iff (i j : ℤ) : wrapInt i = wrapInt j ↔ (2 : ℤ) ^ 32 ∣ i - j := by
  simp only [wrapInt, Int.bmod_def]
  norm_num
  split_ifs <;> omega

/-- A digit string after which something other than a digit comes. -/
def Stops (rest : Bytes) : Prop := ∀ c ∈ rest.head?, isdigit c = false

theorem readDigits_stop (acc : ℕ) (h : Stops rest) : readDigits acc rest = acc := by
  cases rest with
  | nil => rfl
  | cons c cs =>
    have hc : isdigit c = false := h c rfl
    simp [readDigits, hc]

theorem le_readDigits (v : ℕ) (s : Bytes) : v ≤ readDigits v s := by
  induction s generalizing v with
  | nil => exact le_rfl
  | cons c cs ih =>
    unfold readDigits
    split_ifs
    · have := ih (v * 10 + (c.toNat - 48))
      omega
    · exact le_rfl

theorem readDigits_prefix_le {p s : Bytes} (h : p <+: s) (acc : ℕ) : readDigits acc p ≤ readDigits acc s := by
  induction p generalizing s acc with
  | nil => exact le_readDigits acc s
  | cons c p ih =>
    obtain ⟨t, rfl⟩ := h
    simp only [cons_append, readDigits]
    split_ifs
    · exact ih (prefix_append p t) _
    · exact le_rfl

theorem readDigits_digits (ds : List ℕ) (hd : ∀ d ∈ ds, d < 10) (acc : ℕ) (rest : Bytes) :
    readDigits acc (ds.reverse.map digitByte ++ rest) =
      readDigits (acc * 10 ^ ds.length + Nat.ofDigits 10 ds) rest := by
  induction ds generalizing acc rest with
  | nil => simp [Nat.ofDigits]
  | cons d ds ih =>
    have hd0 : d < 10 := hd d (by simp)
    simp only [reverse_cons, map_append, append_assoc]
    rw [ih (forall_mem_cons.mp hd).2]
    simp only [map_cons, map_nil, singleton_append, readDigits,
      isdigit_digitByte hd0, if_true, toNat_digitByte hd0, length_cons, Nat.ofDigits_cons]
    congr 1
    rw [pow_succ]
    ring

theorem readDigits_natDecimal (n : ℕ) (h : Stops rest) : readDigits 0 (natDecimal n ++ rest) = n := by
  unfold natDecimal
  split_ifs with hn
  · subst hn
    simp [readDigits, isdigit_digitByte, toNat_digitByte, readDigits_stop 0 h]
  · rw [readDigits_digits _ (fun d hd => Nat.digits_lt_base (by norm_num) hd), readDigits_stop _ h]
    simp [Nat.ofDigits_digits]

theorem natDecimal_digits (n : ℕ) : ∀ c ∈ natDecimal n, isdigit c = true := by
  unfold natDecimal
  split_ifs with hn
  · intro c hc
    rw [mem_singleton.mp hc]
    exact isdigit_digitByte (by norm_num)
  · intro c hc
    obtain ⟨d, hd, rfl⟩ := mem_map.mp hc
    exact isdigit_digitByte (Nat.digits_lt_base (by norm_num) (mem_reverse.mp hd))

theorem natDecimal_ne_nil (n : ℕ) : natDecimal n ≠ [] := by
  unfold natDecimal
  split_ifs with hn
  · simp
  · simpa using Nat.digits_ne_nil_iff_ne_zero.mpr hn

theorem natDecimal_length_le {k : ℕ} (h : n < 10 ^ k) (hk : 0 < k) : (natDecimal n).length ≤ k := by
  unfold natDecimal
  split_ifs with hn
  · simpa using Nat.succ_le_of_lt hk
  · simpa using Nat.digits_length_le_iff (by norm_num) n |>.mpr h

theorem not_mem_natDecimal (hc : isdigit c = false) (n : ℕ) : c ∉ natDecimal n := by
  intro h
  rw [natDecimal_digits n c h] at hc
  exact absurd hc (by decide)

theorem not_mem_decimal (hc : isdigit c = false) (h45 : c ≠ 45) (i : ℤ) : c ∉ decimal i := by
  unfold decimal
  split_ifs
  · simp [h45, not_mem_natDecimal hc]
  · exact not_mem_natDecimal hc _

theorem isspace_of_isdigit (h : isdigit c = true) : isspace c = false := by
  unfold isdigit at h
  unfold isspace
  simp only [Bool.and_eq_true, decide_eq_true_eq, UInt8.le_iff_toNat_le] at h
  simp only [Bool.or_eq_false_iff, beq_eq_false_iff_ne, ne_eq, Bool.and_eq_false_iff,
    decide_eq_false_iff_not, UInt8.le_iff_toNat_le, ← UInt8.toNat_inj]
  have h48 : (48 : UInt8).toNat = 48 := rfl
  have h32 : (32 : UInt8).toNat = 32 := rfl
  have h13 : (13 : UInt8).toNat = 13 := rfl
  omega

theorem strtol_digit (h : isdigit c = true) (cs : Bytes) :
    strtol (c :: cs) = min (2 ^ 63 - 1) (readDigits 0 (c :: cs) : ℤ) := by
  have h45 : c ≠ 45 := fun hc => absurd (hc ▸ h) (by decide)
  have h43 : c ≠ 43 := fun hc => absurd (hc ▸ h) (by decide)
  unfold strtol
  simp only [dropWhile_cons, isspace_of_isdigit h, Bool.false_eq_true, if_false]
  split
  · next heq => exact absurd (List.cons.inj heq).1 h45
  · next heq => exact absurd (List.cons.inj heq).1 h43
  · rfl

theorem strtol_natDecimal (hn : n < 2 ^ 63) (h : Stops rest) : strtol (natDecimal n ++ rest) = n := by
  have hread := readDigits_natDecimal n h
  obtain ⟨c, cs, hc⟩ := exists_cons_of_ne_nil (natDecimal_ne_nil n)
  have hdig : isdigit c = true := natDecimal_digits n c (by simp [hc])
  rw [hc, cons_append] at hread ⊢
  rw [strtol_digit hdig, hread]
  omega

theorem strtol_decimal (h1 : -2 ^ 63 ≤ i) (h2 : i < 2 ^ 63) : strtol (decimal i) = i := by
  unfold decimal
  split_ifs with hneg
  · have hstop : Stops [] := by simp [Stops]
    have hread := readDigits_natDecimal i.natAbs hstop
    rw [append_nil] at hread
    have : strtol (45 :: natDecimal i.natAbs) = max (-(2 ^ 63)) (-(readDigits 0 (natDecimal i.natAbs) : ℤ)) := rfl
    rw [this, hread]
    omega
  · have hstop : Stops [] := by simp [Stops]
    have := strtol_natDecimal (n := i.natAbs) (by omega) hstop
    rw [append_nil] at this
    rw [this]
    omega

theorem atoi_decimal (h1 : -2 ^ 31 ≤ i) (h2 : i < 2 ^ 31) : atoi (decimal i) = i := by
  unfold atoi
  rw [strtol_decimal (by omega) (by omega), wrapInt_eq h1 h2]

theorem atoi_decimal_wrapInt (i : ℤ) : atoi (decimal (wrapInt i)) = wrapInt i :=
  atoi_decimal (wrapInt_range i).1 (wrapInt_range i).2

theorem decimal_injective_int {j : ℤ} (hi1 : -2 ^ 31 ≤ i) (hi2 : i < 2 ^ 31) (hj1 : -2 ^ 31 ≤ j)
    (hj2 : j < 2 ^ 31) (h : decimal i = decimal j) : i = j := by
  rw [← atoi_decimal hi1 hi2, h, atoi_decimal hj1 hj2]

/-! ### Reading a file from the front -/

/-- The bytes up to and including the first line feed, at most `n` of them. -/
def takeLine : ℕ → Bytes → Bytes × Bytes
  | 0, inp => ([], inp)
  | _ + 1, [] => ([], [])
  | n + 1, c :: cs =>
      if c = LF then ([c], cs)
      else ((c :: (takeLine n cs).1), (takeLine n cs).2)

/-- `fgets(buf, size, fp)`: `none` is the `NULL` of a read at the end of the file. -/
def fgets (size : ℕ) (inp : Bytes) : Option (Bytes × Bytes) :=
  if inp = [] then none else some (takeLine (size - 1) inp)

/-- `fread(ptr, len, 1, fp)`: `none` is a short read, which returns zero items. -/
def fread (len : ℕ) (inp : Bytes) : Option (Bytes × Bytes) :=
  if len ≤ inp.length then some (inp.take len, inp.drop len) else none

theorem takeLine_append (hlf : LF ∉ l) (rest : Bytes) :
    takeLine (l.length + n) (l ++ rest) = (l ++ (takeLine n rest).1, (takeLine n rest).2) := by
  induction l with
  | nil => simp
  | cons c cs ih =>
    obtain ⟨hc, hcs⟩ := not_or.mp (mem_cons.not.mp hlf)
    rw [length_cons, Nat.add_right_comm, cons_append, takeLine, if_neg (Ne.symm hc), ih hcs]
    rfl

theorem fgets_line {size : ℕ} (hlf : LF ∉ l) (hn : l.length + 1 < size) (rest : Bytes) :
    fgets size (l ++ LF :: rest) = some (l ++ [LF], rest) := by
  unfold fgets
  obtain ⟨m, rfl⟩ := Nat.exists_eq_add_of_lt hn
  rw [if_neg (by simp), show l.length + 1 + m + 1 - 1 = l.length + (m + 1) by omega, takeLine_append hlf]
  rfl

theorem fgets_open {size : ℕ} (hne : l ≠ []) (hlf : LF ∉ l) (hn : l.length < size) :
    fgets size l = some (l, []) := by
  unfold fgets
  obtain ⟨m, rfl⟩ := Nat.exists_eq_add_of_lt hn
  have h := takeLine_append (n := m) hlf []
  rw [append_nil] at h
  rw [if_neg hne, Nat.add_sub_cancel, h]
  cases m <;> simp [takeLine]

theorem fread_append (a rest : Bytes) : fread a.length (a ++ rest) = some (a, rest) := by
  simp [fread]

theorem fread_short {len : ℕ} {inp : Bytes} (h : inp.length < len) : fread len inp = none :=
  if_neg (by omega)

end CLib
