import Mathlib

/-! Byte strings as strings of bits, the most significant bit of each byte first, and the
numbers that lie in them. -/

namespace Bits

variable {p : List UInt8} {n v : ℕ}

/-- The bit number `k`; behind the end every bit is zero. -/
def bitAt (p : List UInt8) (k : ℕ) : Bool := (p.getD (k / 8) 0).toBitVec.getLsbD (7 - k % 8)

/-- The number in the `n` bits from `o` on. -/
def field (p : List UInt8) (o : ℕ) : ℕ → ℕ
  | 0 => 0
  | n + 1 => 2 * field p o n + (bitAt p (o + n)).toNat

/-- A number of `n` bits read in two's complement. -/
def signed (n v : ℕ) : ℤ := if v < 2 ^ (n - 1) then v else v - 2 ^ n

theorem bitAt_of_le {k : ℕ} (h : p.length ≤ k / 8) : bitAt p k = false := by
  rw [bitAt, List.getD_eq_default _ _ h]
  simp

/-- Zero bytes at the end are not seen. -/
theorem bitAt_append_zeros (p : List UInt8) (n k : ℕ) : bitAt (p ++ List.replicate n 0) k = bitAt p k := by
  by_cases h : k / 8 < p.length
  · rw [bitAt, bitAt, List.getD_append _ _ _ _ h]
  · have hle : p.length ≤ k / 8 := Nat.le_of_not_lt h
    have hzero : (List.replicate n (0 : UInt8)).getD (k / 8 - p.length) 0 = 0 := by
      rw [List.getD_eq_getElem?_getD, List.getElem?_replicate]
      split <;> rfl
    rw [bitAt_of_le hle, bitAt, List.getD_append_right _ _ _ _ hle, hzero]
    simp

theorem bitAt_set {i : ℕ} (h : i < p.length) (c : UInt8) (k : ℕ) :
    bitAt (p.set i c) k = if k / 8 = i then c.toBitVec.getLsbD (7 - k % 8) else bitAt p k := by
  simp only [bitAt, List.getD_eq_getElem?_getD]
  split_ifs with hk
  · rw [hk, List.getElem?_set_self h, Option.getD_some]
  · rw [List.getElem?_set_ne (Ne.symm hk)]

theorem field_lt (p : List UInt8) (o n : ℕ) : field p o n < 2 ^ n := by
  induction n with
  | zero => exact Nat.one_pos
  | succ n ih =>
    have hbit := Bool.toNat_le (bitAt p (o + n))
    rw [field, pow_succ]
    omega

theorem field_congr {q : List UInt8} {o o' : ℕ} (h : ∀ i < n, bitAt p (o + i) = bitAt q (o' + i)) :
    field p o n = field q o' n := by
  induction n with
  | zero => rfl
  | succ n ih =>
    rw [field, field, ih fun i hi => h i (Nat.lt_succ_of_lt hi), h n (Nat.lt_succ_self n)]

theorem testBit_field (p : List UInt8) (o n i : ℕ) :
    (field p o n).testBit i = (decide (i < n) && bitAt p (o + (n - 1 - i))) := by
  induction n generalizing i with
  | zero => simp [field]
  | succ n ih =>
    rw [field]
    cases i with
    | zero =>
      rw [Nat.testBit_zero]
      cases hbit : bitAt p (o + n) <;> simp [hbit]
    | succ i =>
      have hhalf : (2 * field p o n + (bitAt p (o + n)).toNat) / 2 = field p o n := by
        have hbit := Bool.toNat_le (bitAt p (o + n))
        omega
      rw [Nat.testBit_succ, hhalf, ih, show n + 1 - 1 - (i + 1) = n - 1 - i by omega]
      simp

theorem field_succ_left (p : List UInt8) (o n : ℕ) :
    field p o (n + 1) = (bitAt p o).toNat * 2 ^ n + field p (o + 1) n := by
  induction n with
  | zero => simp [field]
  | succ n ih =>
    rw [field, ih, field, show o + (n + 1) = o + 1 + n by omega, pow_succ]
    ring

theorem field_eq_mod {o : ℕ} (h : ∀ i < n, bitAt p (o + i) = v.testBit (n - 1 - i)) : field p o n = v % 2 ^ n := by
  refine Nat.eq_of_testBit_eq fun i => ?_
  rw [testBit_field, Nat.testBit_mod_two_pow]
  by_cases hi : i < n
  · rw [h _ (by omega), show n - 1 - (n - 1 - i) = i by omega]
  · simp [hi]

theorem signed_of_lt (h : v < 2 ^ (n - 1)) : signed n v = v := if_pos h

theorem signed_of_ge (h : 2 ^ (n - 1) ≤ v) : signed n v = v - 2 ^ n := if_neg (by omega)

theorem signed_emod (hn : 0 < n) {v : ℤ} (h1 : -2 ^ (n - 1) ≤ v) (h2 : v < 2 ^ (n - 1)) :
    signed n (v % 2 ^ n).toNat = v := by
  obtain ⟨m, rfl⟩ := Nat.exists_eq_add_of_lt hn
  simp only [Nat.zero_add, Nat.add_sub_cancel] at *
  have hcast : ((2 ^ m : ℕ) : ℤ) = 2 ^ m := by norm_num
  rcases lt_or_ge v 0 with hneg | hpos
  · have hmod : v % 2 ^ (m + 1) = v + 2 ^ (m + 1) := by
      rw [← Int.add_emod_right, Int.emod_eq_of_lt (by omega) (by omega)]
    rw [hmod, signed_of_ge (by rw [Nat.add_sub_cancel]; omega)]
    omega
  · have hmod : v % 2 ^ (m + 1) = v := Int.emod_eq_of_lt hpos (by omega)
    rw [hmod, signed_of_lt (by rw [Nat.add_sub_cancel]; omega)]
    omega

end Bits
