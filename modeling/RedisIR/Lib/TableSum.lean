import Mathlib

/-! Sums over the values of an association list, and over a family of them: what inserting and
erasing a key does to the sum. -/

namespace TableSum

open List Function

variable {K V M ι : Type*} [DecidableEq K] [AddCommMonoid M]

/-- The sum of `f` over all values of a table. -/
def total (f : V → M) (t : AList (fun _ : K => V)) : M := (t.entries.map fun e => f e.2).sum

def part (f : V → M) (o : Option V) : M := o.elim 0 f

theorem kerase_sum (f : V → M) (k : K) (l : List (Sigma fun _ : K => V)) :
    ((l.kerase k).map fun e => f e.2).sum + part f (l.dlookup k) = (l.map fun e => f e.2).sum := by
  induction l with
  | nil => simp [part]
  | cons e l ih =>
    obtain ⟨k', v⟩ := e
    by_cases h : k = k'
    · subst h
      simp [part, add_comm]
    · rw [kerase_cons_ne h, dlookup_cons_ne _ _ h]
      simp only [map_cons, sum_cons]
      rw [← ih, add_assoc]

theorem total_erase (f : V → M) (k : K) (t : AList (fun _ : K => V)) :
    total f (t.erase k) + part f (t.lookup k) = total f t := kerase_sum f k t.entries

theorem total_insert (f : V → M) (k : K) (v : V) (t : AList (fun _ : K => V)) :
    total f (t.insert k v) + part f (t.lookup k) = total f t + f v := by
  unfold total
  rw [AList.entries_insert, map_cons, sum_cons, add_assoc]
  exact (congrArg (f v + ·) (kerase_sum f k t.entries)).trans (add_comm _ _)

def grandTotal [Fintype ι] (f : V → M) (t : ι → AList (fun _ : K => V)) : M := ∑ i, total f (t i)

omit [DecidableEq K] in
theorem grandTotal_update [Fintype ι] [DecidableEq ι] (f : V → M) (t : ι → AList (fun _ : K => V)) (i : ι)
    (u : AList (fun _ : K => V)) :
    grandTotal f (update t i u) + total f (t i) = grandTotal f t + total f u := by
  unfold grandTotal
  rw [← Finset.add_sum_erase Finset.univ (fun j => total f (update t i u j)) (Finset.mem_univ i),
    ← Finset.add_sum_erase Finset.univ (fun j => total f (t j)) (Finset.mem_univ i), update_self]
  have hsame :
    ∑ j ∈ Finset.univ.erase i, total f (update t i u j) = ∑ j ∈ Finset.univ.erase i, total f (t j) := by
    refine Finset.sum_congr rfl fun j hj => ?_
    rw [update_of_ne (Finset.ne_of_mem_erase hj)]
  rw [hsame]
  abel

section Cancel

variable [Fintype ι] [DecidableEq ι] [IsCancelAdd M] (f : V → M) (t : ι → AList (fun _ : K => V))
    (i : ι) (k : K)

theorem grandTotal_insert (v : V) :
    grandTotal f (update t i ((t i).insert k v)) + part f ((t i).lookup k) = grandTotal f t + f v := by
  apply add_right_cancel (b := total f (t i))
  calc grandTotal f (update t i ((t i).insert k v)) + part f ((t i).lookup k) + total f (t i)
      = grandTotal f t + (total f ((t i).insert k v) + part f ((t i).lookup k)) := by
        rw [add_right_comm, grandTotal_update, add_assoc]
    _ = grandTotal f t + f v + total f (t i) := by
        rw [total_insert, add_comm (total f (t i)), add_assoc]

theorem grandTotal_erase :
    grandTotal f (update t i ((t i).erase k)) + part f ((t i).lookup k) = grandTotal f t := by
  apply add_right_cancel (b := total f (t i))
  rw [add_right_comm, grandTotal_update, add_assoc, total_erase]

end Cancel

end TableSum
