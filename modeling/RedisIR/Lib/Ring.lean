import RedisIR.Lib.Memory

/-! A block of memory that is written in a circle: an index says where the next cell goes, and what
it points to is the oldest cell. -/

namespace Ring

open List

variable {α : Type*}

def unroll (m : List α) (i : ℕ) : List α := m.drop i ++ m.take i

@[simp] theorem unroll_length (m : List α) (i : ℕ) : (unroll m i).length = m.length := by
  simp only [unroll, length_append, length_drop, length_take]
  omega

theorem unroll_zero (m : List α) : unroll m 0 = m := by simp [unroll]

/-- The index after `k` cells from `i` in a block of `n`. -/
def next (n i k : ℕ) : ℕ := if i + k = n then 0 else i + k

/-- Cells that are written up to the end of the block at most replace the oldest ones. -/
theorem unroll_write {m bs : List α} {i : ℕ} (h : i + bs.length ≤ m.length) :
    ∃ m', Memory.write m i bs = some m' ∧ m'.length = m.length ∧
      unroll m' (next m.length i bs.length) = (unroll m i).drop bs.length ++ bs := by
  have hi : (m.take i).length = i := by
    rw [length_take]
    omega
  refine ⟨m.take i ++ bs ++ m.drop (i + bs.length), if_pos h, ?_, ?_⟩
  · simp only [length_append, length_drop, hi]
    omega
  have hdrop : (unroll m i).drop bs.length = m.drop (i + bs.length) ++ m.take i := by
    rw [unroll, drop_append_of_le_length (by rw [length_drop]; omega), drop_drop]
  rw [hdrop, next]
  split_ifs with hend
  · rw [unroll_zero, hend, drop_length, append_nil, nil_append]
  · have hlen : i + bs.length = (m.take i ++ bs).length := by rw [length_append, hi]
    rw [unroll, hlen, drop_left, take_left, append_assoc]

/-- The cells from the `k`th oldest on are in two pieces if they go across the end of the block. -/
theorem unroll_drop {m : List α} {i k : ℕ} (hi : i ≤ m.length) : (unroll m i).drop k =
      if i + k < m.length then m.drop (i + k) ++ m.take i else (m.take i).drop (i + k - m.length) := by
  split_ifs with h
  · rw [unroll, drop_append_of_le_length (by rw [length_drop]; omega), drop_drop]
  · have hlen : (m.drop i).length ≤ k := by
      rw [length_drop]
      omega
    rw [unroll, drop_append, drop_eq_nil_of_le hlen, nil_append, length_drop]
    congr 1
    omega

end Ring
