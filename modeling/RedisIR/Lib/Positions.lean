import Mathlib

/-! Positions in a list that are counted from either end. -/

namespace Positions

open List

variable {α : Type*}

/-- The position that an index names: from the front, or if it is negative from the end. -/
def position (xs : List α) (index : ℤ) : Option ℕ :=
  let i := if index < 0 then (xs.length : ℤ) + index else index
  if 0 ≤ i ∧ i < xs.length then some i.toNat else none

theorem split_at {xs : List α} {i : ℕ} (hi : i < xs.length) :
    ∃ a x b, xs = a ++ x :: b ∧ xs.take i = a ∧ xs.take (i + 1) = a ++ [x] ∧ xs.drop (i + 1) = b ∧
      xs[i]? = some x :=
  ⟨xs.take i, xs[i], xs.drop (i + 1), by rw [← drop_eq_getElem_cons hi, take_append_drop], rfl,
    by rw [take_append_getElem], rfl, List.getElem?_eq_getElem hi⟩

theorem lt_of_position {xs : List α} {index : ℤ} {i : ℕ} (h : position xs index = some i) : i < xs.length := by
  unfold position at h
  simp only [Option.ite_none_right_eq_some, Option.some.injEq] at h
  omega

theorem position_cases (xs : List α) (index : ℤ) : position xs index = none ∨
    ∃ a x b, xs = a ++ x :: b ∧ position xs index = some a.length := by
  cases hpos : position xs index with
  | none => exact .inl rfl
  | some i =>
    have hi := lt_of_position hpos
    obtain ⟨a, x, b, hxs, ha, -, -, -⟩ := split_at hi
    refine .inr ⟨a, x, b, hxs, ?_⟩
    rw [← ha, length_take, Nat.min_eq_left hi.le]

theorem position_congr {β : Type*} {xs : List α} {ys : List β} (h : xs.length = ys.length) (index : ℤ) :
    position xs index = position ys index := by
  unfold position
  rw [h]

theorem insertIdx_length_append (a b : List α) (s : α) : (a ++ b).insertIdx a.length s = a ++ s :: b := by
  induction a with
  | nil => rfl
  | cons x a ih => rw [cons_append, length_cons, insertIdx_succ_cons, ih, cons_append]

end Positions
