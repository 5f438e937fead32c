import Mathlib

/-! Words in the order of their reversed bits. The words that agree in their `a` lowest bits are
an interval of this order, so a cursor that steps from one such interval to the next visits
them in order, whatever `a` is at each step. -/

namespace ReverseCursor

variable {w : ℕ}
variable {v : BitVec w} {a : ℕ}

def pos (v : BitVec w) : ℕ := v.reverse.toNat

/-- The interval that a word is in when only its `a` lowest bits count. -/
def block (a : ℕ) (v : BitVec w) : ℕ := pos v / 2 ^ (w - a)

/-- The `a` lowest bits. -/
def mask (w a : ℕ) : BitVec w := BitVec.ofNat w (2 ^ a - 1)

/-- The first word behind those that agree with `v` in the bits of a mask. -/
def advance (m v : BitVec w) : BitVec w := ((v ||| ~~~m).reverse + 1).reverse

theorem pos_lt (v : BitVec w) : pos v < 2 ^ w := v.reverse.isLt

theorem pos_injective : Function.Injective (pos (w := w)) := by
  intro v v' h
  have hrev : v.reverse = v'.reverse := BitVec.eq_of_toNat_eq h
  rw [← BitVec.reverse_reverse_eq (x := v), hrev, BitVec.reverse_reverse_eq]

@[simp] theorem pos_zero : pos (0 : BitVec w) = 0 := by
  have hzero : (0 : BitVec w).reverse = 0 := by
    refine BitVec.eq_of_getLsbD_eq ?_
    intro i _
    rw [BitVec.getLsbD_reverse, BitVec.getMsbD_eq_getLsbD]
    simp
  rw [pos, hzero]
  simp

theorem pos_eq_zero : pos v = 0 ↔ v = 0 :=
  ⟨fun h => pos_injective (h.trans pos_zero.symm), fun h => h ▸ pos_zero⟩

theorem block_lt (ha : a ≤ w) (v : BitVec w) : block a v < 2 ^ a := by
  refine (Nat.div_lt_iff_lt_mul (by positivity)).mpr ?_
  rw [← pow_add, Nat.add_sub_cancel' ha]
  exact pos_lt v

theorem block_div {b : ℕ} (hab : a ≤ b) (hb : b ≤ w) (v : BitVec w) : block a v = block b v / 2 ^ (b - a) := by
  rw [block, block, Nat.div_div_eq_div_mul, ← pow_add]
  congr 2
  omega

theorem block_mono {v' : BitVec w} (h : pos v ≤ pos v') : block a v ≤ block a v' :=
  Nat.div_le_div_right h

theorem next_le_of_block_lt {v' : BitVec w} (h : block a v < block a v') : (block a v + 1) * 2 ^ (w - a) ≤ pos v' :=
  (Nat.mul_le_mul_right _ h).trans (Nat.div_mul_le_self _ _)

theorem testBit_pos (v : BitVec w) (i : ℕ) : (pos v).testBit i = (decide (i < w) && v.getLsbD (w - 1 - i)) := by
  rw [pos, BitVec.testBit_toNat, BitVec.getLsbD_reverse, BitVec.getMsbD_eq_getLsbD]

theorem getLsbD_mask (i : ℕ) : (mask w a).getLsbD i = (decide (i < w) && decide (i < a)) := by
  rw [mask, BitVec.getLsbD_ofNat, Nat.testBit_two_pow_sub_one]

theorem pos_or_not_mask (ha : a ≤ w) (v : BitVec w) :
    pos (v ||| ~~~mask w a) = 2 ^ (w - a) * block a v + (2 ^ (w - a) - 1) := by
  have hlt : 2 ^ (w - a) - 1 < 2 ^ (w - a) := Nat.sub_lt (by positivity) one_pos
  refine Nat.eq_of_testBit_eq ?_
  intro i
  rw [testBit_pos, Nat.testBit_two_pow_mul_add _ hlt, Nat.testBit_two_pow_sub_one, block, Nat.testBit_div_two_pow,
    BitVec.getLsbD_or, BitVec.getLsbD_not, getLsbD_mask]
  split_ifs with hi
  · have h1 : i < w := by omega
    have h2 : w - 1 - i < w := by omega
    have h3 : ¬ w - 1 - i < a := by omega
    simp [hi, h1, h2, h3]
  · rw [testBit_pos, Nat.sub_add_cancel (Nat.le_of_not_lt hi)]
    by_cases h1 : i < w
    · have h2 : w - 1 - i < w := by omega
      have h3 : w - 1 - i < a := by omega
      simp [h1, h2, h3]
    · simp [h1]

theorem pos_advance (ha : a ≤ w) (v : BitVec w) :
    pos (advance (mask w a) v) = (block a v + 1) * 2 ^ (w - a) % 2 ^ w := by
  have hpos : 0 < 2 ^ (w - a) := by positivity
  have hone : (1 : BitVec w).toNat = 1 % 2 ^ w := BitVec.toNat_ofNat 1 w
  have hrev := pos_or_not_mask ha v
  rw [pos] at hrev
  rw [pos, advance, BitVec.reverse_reverse_eq, BitVec.toNat_add, hrev, hone, Nat.add_mod_mod, Nat.add_assoc,
    Nat.sub_add_cancel hpos, Nat.add_one_mul, Nat.mul_comm]

theorem testBit_block (ha : a ≤ w) (v : BitVec w) (i : ℕ) :
    (block a v).testBit i = (decide (i < a) && v.getLsbD (a - 1 - i)) := by
  rw [block, Nat.testBit_div_two_pow, testBit_pos]
  by_cases hi : i < a
  · have h1 : i + (w - a) < w := by omega
    have h2 : w - 1 - (i + (w - a)) = a - 1 - i := by omega
    simp [hi, h1, h2]
  · have h1 : ¬ i + (w - a) < w := by omega
    simp [hi, h1]

theorem and_mask_eq_iff (ha : a ≤ w) (v v' : BitVec w) :
    v.toNat &&& (2 ^ a - 1) = v'.toNat &&& (2 ^ a - 1) ↔ block a v = block a v' := by
  have hlow : ∀ (u : BitVec w) (i : ℕ), (u.toNat &&& (2 ^ a - 1)).testBit i = (u.getLsbD i && decide (i < a)) := by
    intro u i
    rw [Nat.testBit_and, BitVec.testBit_toNat, Nat.testBit_two_pow_sub_one]
  constructor
  · intro h
    refine Nat.eq_of_testBit_eq ?_
    intro i
    rw [testBit_block ha, testBit_block ha]
    by_cases hi : i < a
    · have hbit := congrArg (Nat.testBit · (a - 1 - i)) h
      simp only [hlow, show a - 1 - i < a by omega, decide_true, Bool.and_true] at hbit
      rw [hbit]
    · simp [hi]
  · intro h
    refine Nat.eq_of_testBit_eq ?_
    intro i
    rw [hlow, hlow]
    by_cases hi : i < a
    · have hbit := congrArg (Nat.testBit · (a - 1 - i)) h
      simp only [testBit_block ha, show a - 1 - i < a by omega, show a - 1 - (a - 1 - i) = i by omega, decide_true,
        Bool.true_and] at hbit
      rw [hbit]
    · simp [hi]

/-- The bits between two masks are zero at the start of an interval of the smaller mask. -/
theorem and_xor_mask_eq_zero_iff {b : ℕ} (hab : a ≤ b) (hb : b ≤ w) (hv : 2 ^ (w - b) ∣ pos v) :
    v &&& (mask w a ^^^ mask w b) = 0 ↔ 2 ^ (w - a) ∣ pos v := by
  have hbits : ∀ i, (v &&& (mask w a ^^^ mask w b)).getLsbD i = (v.getLsbD i && decide (a ≤ i ∧ i < b)) := by
    intro i
    rw [BitVec.getLsbD_and, BitVec.getLsbD_xor, getLsbD_mask, getLsbD_mask]
    rcases Nat.lt_or_ge i a with h1 | h1
    · simp [h1, show i < b by omega, show ¬ a ≤ i by omega]
    · rcases Nat.lt_or_ge i b with h2 | h2
      · simp [h1, h2, show ¬ i < a by omega, show i < w by omega]
      · simp [show ¬ i < a by omega, show ¬ i < b by omega]
  have hlow : ∀ i < w - b, (pos v).testBit i = false := by
    intro i hi
    obtain ⟨q, hq⟩ := hv
    rw [hq, Nat.testBit_two_pow_mul]
    simp [show ¬ w - b ≤ i by omega]
  rw [Nat.dvd_iff_mod_eq_zero]
  constructor
  · intro h
    refine Nat.eq_of_testBit_eq ?_
    intro i
    rw [Nat.testBit_mod_two_pow, Nat.zero_testBit]
    by_cases h1 : i < w - a
    · rcases Nat.lt_or_ge i (w - b) with h2 | h2
      · simp [hlow i h2]
      · have hbit := hbits (w - 1 - i)
        rw [h] at hbit
        rw [testBit_pos]
        simp only [show a ≤ w - 1 - i ∧ w - 1 - i < b by omega, and_self, decide_true, Bool.and_true] at hbit
        rw [← hbit]
        simp
    · simp [h1]
  · intro h
    refine BitVec.eq_of_getLsbD_eq ?_
    intro i hi
    rw [hbits]
    by_cases h1 : a ≤ i ∧ i < b
    · have hbit := congrArg (Nat.testBit · (w - 1 - i)) h
      simp only [Nat.testBit_mod_two_pow, testBit_pos, Nat.zero_testBit, show w - 1 - i < w - a by omega,
        show w - 1 - i < w by omega, show w - 1 - (w - 1 - i) = i by omega, decide_true, Bool.true_and] at hbit
      simp [hbit]
    · simp [h1]

end ReverseCursor
