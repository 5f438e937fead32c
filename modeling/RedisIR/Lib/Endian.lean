import Mathlib

/-! Numbers as a fixed number of bytes, in either byte order, unsigned or in two's
complement. -/

namespace Endian

variable {w : ℕ}

/-- The low `w` bytes of `n`, the lowest first. -/
def leBytes : ℕ → ℕ → List UInt8
  | 0, _ => []
  | w + 1, n => UInt8.ofNat n :: leBytes w (n / 256)

def leVal : List UInt8 → ℕ
  | [] => 0
  | b :: bs => b.toNat + 256 * leVal bs

def beBytes (w n : ℕ) : List UInt8 := (leBytes w n).reverse

def beVal (bs : List UInt8) : ℕ := leVal bs.reverse

/-- Two's complement in `w` bytes. -/
def intBytes (w : ℕ) (i : ℤ) : List UInt8 := leBytes w (i % 256 ^ w).toNat

def intVal (bs : List UInt8) : ℤ := Int.bmod (leVal bs) (256 ^ bs.length)

@[simp] theorem leBytes_length (w n : ℕ) : (leBytes w n).length = w := by
  induction w generalizing n with
  | zero => rfl
  | succ w ih => simp [leBytes, ih]

@[simp] theorem beBytes_length (w n : ℕ) : (beBytes w n).length = w := by
  simp [beBytes]

@[simp] theorem intBytes_length (w : ℕ) (i : ℤ) : (intBytes w i).length = w := leBytes_length w _

theorem leVal_leBytes (w n : ℕ) : leVal (leBytes w n) = n % 256 ^ w := by
  induction w generalizing n with
  | zero => simp [leBytes, leVal, Nat.mod_one]
  | succ w ih =>
    have hbyte : (UInt8.ofNat n).toNat = n % 256 := UInt8.toNat_ofNat'
    rw [leBytes, leVal, ih, hbyte, pow_succ', Nat.mod_mul]

theorem leVal_leBytes_of_lt {n : ℕ} (h : n < 256 ^ w) : leVal (leBytes w n) = n := by
  rw [leVal_leBytes, Nat.mod_eq_of_lt h]

theorem beVal_beBytes_of_lt {n : ℕ} (h : n < 256 ^ w) : beVal (beBytes w n) = n := by
  rw [beVal, beBytes, List.reverse_reverse, leVal_leBytes_of_lt h]

theorem low_byte (n : ℕ) : (UInt8.ofNat (n &&& 0xff)).toNat = n % 2 ^ 8 := by
  rw [show 0xff = 2 ^ 8 - 1 from rfl, Nat.and_two_pow_sub_one_eq_mod]
  exact UInt8.toNat_ofNat_of_lt' (Nat.mod_lt _ (by norm_num))

theorem join_byte (n : ℕ) : (n >>> 8) <<< 8 ||| n % 2 ^ 8 = n := by
  rw [← Nat.shiftLeft_add_eq_or_of_lt (Nat.mod_lt _ (by norm_num)), Nat.shiftLeft_eq, Nat.shiftRight_eq_div_pow,
    Nat.div_add_mod']

/-- What two's complement in `w` bytes can hold. -/
def Fits (w : ℕ) (i : ℤ) : Prop := -(256 ^ w) ≤ 2 * i ∧ 2 * i < 256 ^ w

instance (w : ℕ) (i : ℤ) : Decidable (Fits w i) := inferInstanceAs (Decidable (_ ∧ _))

theorem intVal_intBytes {i : ℤ} (h : Fits w i) : intVal (intBytes w i) = i := by
  have hpos : (0 : ℤ) < 256 ^ w := by positivity
  have hmod := Int.emod_nonneg i hpos.ne'
  have hlt := Int.emod_lt_of_pos i hpos
  have hval : leVal (intBytes w i) = (i % 256 ^ w).toNat := by
    refine leVal_leBytes_of_lt ?_
    zify
    rwa [Int.toNat_of_nonneg hmod]
  rw [intVal, hval, intBytes_length, Int.toNat_of_nonneg hmod]
  have hcast : ((256 ^ w : ℕ) : ℤ) = 256 ^ w := by norm_num
  obtain ⟨h1, h2⟩ := h
  rw [← hcast, Int.emod_bmod]
  refine Int.bmod_eq_of_le_mul_two ?_ ?_
  · rw [hcast]
    linarith
  · rw [hcast]
    linarith

end Endian
