import Mathlib

/-! A block of allocated memory. Every access is checked against its length; `none` is an
access outside of the block, of which nothing more can be said. -/

namespace Memory

open List Option

variable {α : Type*}
variable {m a : List α} {n : ℕ}

def read (m : List α) (off len : ℕ) : Option (List α) :=
  if off + len ≤ m.length then some ((m.drop off).take len) else none

def write (m : List α) (off : ℕ) (bs : List α) : Option (List α) :=
  if off + bs.length ≤ m.length then some (m.take off ++ bs ++ m.drop (off + bs.length)) else none

/-- `memmove`: the source is read before anything is written. -/
def move (m : List α) (dst src len : ℕ) : Option (List α) := (read m src len).bind (write m dst)

/-- `realloc`: what the block already held stays, as far as there is room for it; `fill`
stands for the bytes that are new. -/
def realloc (fill : α) (m : List α) (n : ℕ) : List α := m.take n ++ replicate (n - m.length) fill

@[simp] theorem realloc_length (fill : α) (m : List α) (n : ℕ) : (realloc fill m n).length = n := by
  simp only [realloc, length_append, length_take, length_replicate]
  omega

theorem realloc_of_le (fill : α) (h : m.length ≤ n) : realloc fill m n = m ++ replicate (n - m.length) fill := by
  rw [realloc, take_of_length_le h]

theorem realloc_of_ge (fill : α) (h : n ≤ m.length) : realloc fill m n = m.take n := by
  rw [realloc, Nat.sub_eq_zero_of_le h, replicate_zero, append_nil]

theorem realloc_append (fill : α) (t : List α) (h : a.length ≤ n) :
    realloc fill (a ++ t) n = a ++ realloc fill t (n - a.length) := by
  rw [realloc, realloc, take_append, take_of_length_le h, append_assoc, length_append, Nat.sub_sub]

theorem realloc_succ (fill : α) (m : List α) (n : ℕ) : ∃ c, realloc fill m (n + 1) = realloc fill m n ++ [c] := by
  by_cases h : n < m.length
  · refine ⟨m[n], ?_⟩
    rw [realloc_of_ge fill h, realloc_of_ge fill h.le, take_append_getElem]
  · refine ⟨fill, ?_⟩
    rw [realloc_of_le fill (by omega), realloc_of_le fill (by omega), append_assoc, ← replicate_succ']
    congr 2
    omega

theorem read_append {a b c : List α} {off len : ℕ} (hoff : off = a.length) (hlen : len = b.length) :
    read (a ++ b ++ c) off len = some b := by
  subst hoff hlen
  rw [read, if_pos (by simp)]
  simp

theorem write_append {a b c bs : List α} {off : ℕ} (hoff : off = a.length) (hlen : bs.length = b.length) :
    write (a ++ b ++ c) off bs = some (a ++ bs ++ c) := by
  subst hoff
  have htake : (a ++ b ++ c).take a.length = a := by simp
  have hdrop : (a ++ b ++ c).drop (a.length + b.length) = c := by
    rw [← length_append, drop_left]
  rw [write, if_pos (by simp [hlen]), hlen, htake, hdrop]

theorem read_append_right (a m : List α) (k len : ℕ) : read (a ++ m) (a.length + k) len = read m k len := by
  have hdrop : (a ++ m).drop (a.length + k) = m.drop k := by
    rw [← drop_drop, drop_left]
  unfold read
  rw [hdrop, length_append]
  congr 1
  rw [Nat.add_assoc, Nat.add_le_add_iff_left]

theorem getElem?_append_length (a m : List α) (k : ℕ) : (a ++ m)[a.length + k]? = m[k]? := by
  rw [List.getElem?_append_right (Nat.le_add_right _ _), Nat.add_sub_cancel_left]

theorem getElem?_at (pre : List α) (b : α) (t : List α) : (pre ++ (b :: t))[pre.length]? = some b := by
  simp

theorem read_behind (pre : List α) (b : α) (bs rest : List α) {w : ℕ} (hw : bs.length = w) :
    read (pre ++ (b :: (bs ++ rest))) (pre.length + 1) w = some bs := by
  rw [read_append_right, ← singleton_append, ← append_assoc]
  exact read_append rfl hw.symm

theorem write_none {bs : List α} {off : ℕ} (h : m.length < off + bs.length) : write m off bs = none :=
  if_neg (by omega)

theorem write_length {bs m' : List α} {off : ℕ} (h : write m off bs = some m') : m'.length = m.length := by
  unfold write at h
  split_ifs at h with hle
  obtain rfl := some.inj h
  simp only [length_append, length_take, length_drop]
  omega

theorem move_eq {m s : List α} {dst src len : ℕ} (hread : read m src len = some s)
    (hfit : dst + s.length ≤ m.length) :
    move m dst src len = some (m.take dst ++ s ++ m.drop (dst + s.length)) := by
  rw [move, hread, bind_some, write, if_pos hfit]

/-- A move that ends where `t` does leaves `r` cells of room behind `a`. -/
theorem move_within {a t z s : List α} {r dst src len : ℕ} (hread : read (a ++ t ++ z) src len = some s)
    (hdst : dst = a.length + r) (hfit : r + s.length = t.length) :
    ∃ w, w.length = r ∧ move (a ++ t ++ z) dst src len = some (a ++ w ++ s ++ z) := by
  refine ⟨t.take r, by rw [length_take]; omega, ?_⟩
  have htake : (a ++ t ++ z).take dst = a ++ t.take r := by
    rw [hdst, append_assoc, take_length_add_append, take_append_of_le_length (by omega)]
  have hdrop : (a ++ t ++ z).drop (dst + s.length) = z := by
    rw [hdst, Nat.add_assoc, hfit, ← length_append, drop_left]
  rw [move_eq hread (by simp only [length_append]; omega), htake, hdrop]

theorem read_last (a b c : List α) {k : ℕ} (hk : k ≤ a.length) :
    read (a ++ b ++ c) (a.length - k) (k + b.length) = some (a.drop (a.length - k) ++ b) := by
  have hsplit : a ++ b ++ c = a.take (a.length - k) ++ (a.drop (a.length - k) ++ b) ++ c := by
    rw [← append_assoc, take_append_drop]
  rw [hsplit]
  apply read_append
  · rw [length_take]
    omega
  · rw [length_append, length_drop]
    omega

/-- A tail moved towards the end of the block, over `p.length` bytes behind it. -/
theorem move_up {b p : List α} {dst src len : ℕ} (hdst : dst = a.length + p.length) (hsrc : src = a.length)
    (hlen : len = b.length) : move (a ++ b ++ p) dst src len = some (a ++ (b ++ p).take p.length ++ b) := by
  rw [move, read_append hsrc hlen, bind_some]
  have hsplit : a ++ b ++ p = a ++ (b ++ p).take p.length ++ (b ++ p).drop p.length ++ [] := by
    rw [append_nil, append_assoc, append_assoc, take_append_drop]
  rw [hsplit, write_append, append_nil]
  · simp [hdst]
  · simp

/-- A tail moved towards the front, over the `d.length` bytes before it. -/
theorem move_down {d b : List α} {dst src len : ℕ} (hdst : dst = a.length) (hsrc : src = a.length + d.length)
    (hlen : len = b.length) : move (a ++ d ++ b) dst src len = some (a ++ b ++ (d ++ b).drop b.length) := by
  have hread : read (a ++ d ++ b) src len = some b := by
    rw [← append_nil (a ++ d ++ b)]
    exact read_append (by simp [hsrc]) hlen
  rw [move, hread, bind_some]
  have hsplit : a ++ d ++ b = a ++ (d ++ b).take b.length ++ (d ++ b).drop b.length := by
    rw [append_assoc, append_assoc, take_append_drop]
  rw [hsplit, write_append hdst]
  simp

/-- Room for `e` cells between `a` and `b`, in place of `d`: the block grows before the tail is
moved, or shrinks after it. -/
theorem make_room (fill : α) (a d b : List α) {e new : ℕ} (hnew : new = a.length + e + b.length) :
    ∃ r m : List α, r.length = e ∧
      move (if new > (a ++ d ++ b).length then realloc fill (a ++ d ++ b) new else a ++ d ++ b) (a.length + e)
        (a.length + d.length) b.length = some m ∧
      (if new < (a ++ d ++ b).length then realloc fill m new else m) = a ++ r ++ b := by
  have hlen : (a ++ d ++ b).length = a.length + d.length + b.length := by
    rw [length_append, length_append]
  by_cases hgrow : d.length ≤ e
  · -- the tail moves up into cells that were behind it, none when the sizes agree
    obtain ⟨k, rfl⟩ := Nat.exists_eq_add_of_le hgrow
    have hblock : (if new > (a ++ d ++ b).length then realloc fill (a ++ d ++ b) new else a ++ d ++ b)
        = a ++ d ++ b ++ replicate k fill := by
      split_ifs with hgt
      · rw [realloc_of_le _ (by omega), show new - (a ++ d ++ b).length = k by omega]
      · rw [show k = 0 by omega, replicate_zero, append_nil]
    have hk : (replicate k fill).length = k := length_replicate
    refine ⟨d ++ (b ++ replicate k fill).take k, a ++ d ++ (b ++ replicate k fill).take k ++ b, ?_, ?_, ?_⟩
    · rw [length_append, length_take, length_append, hk]
      omega
    · rw [hblock, move_up (by rw [length_append, hk]; omega) (by rw [length_append]) rfl, hk]
    · rw [if_neg (by omega), append_assoc a d]
  · have hsplit : a ++ d ++ b = a ++ d.take e ++ d.drop e ++ b := by
      rw [append_assoc a (d.take e), take_append_drop]
    have htake : (d.take e).length = e := by
      rw [length_take]
      omega
    refine ⟨d.take e, a ++ d.take e ++ b ++ (d.drop e ++ b).drop b.length, htake, ?_, ?_⟩
    · rw [if_neg (by omega), hsplit]
      apply move_down
      · rw [length_append, htake]
      · rw [length_append, htake, length_drop]
        omega
      · rfl
    · have hnewlen : new = (a ++ d.take e ++ b).length := by
        rw [length_append, length_append, htake, hnew]
      rw [if_pos (by omega), realloc_of_ge _ (by rw [length_append]; omega), hnewlen, take_left]

end Memory
