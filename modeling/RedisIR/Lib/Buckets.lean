import Mathlib

/-! Chained buckets as a multiset of their entries, and a multiset of entries with distinct
keys as a finite map. -/

namespace Buckets

open Option Function Multiset

variable {n : ℕ}

section Contents

variable {α : Type*}

/-- Everything in the first `n` chains. -/
def contents (n : ℕ) (chain : ℕ → List α) : Multiset α := ∑ i ∈ Finset.range n, (chain i : Multiset α)

theorem mem_contents {chain : ℕ → List α} {x : α} : x ∈ contents n chain ↔ ∃ i < n, x ∈ chain i := by
  simp [contents, mem_sum]

@[simp] theorem contents_nil (n : ℕ) : contents n (fun _ => ([] : List α)) = 0 := by
  simp [contents]

theorem contents_update {i : ℕ} (hi : i < n) (chain : ℕ → List α) (c : List α) :
    contents n (update chain i c) + chain i = contents n chain + c := by
  have hmem := Finset.mem_range.mpr hi
  have hrest : ∑ j ∈ (Finset.range n).erase i, (update chain i c j : Multiset α) =
      ∑ j ∈ (Finset.range n).erase i, (chain j : Multiset α) :=
    Finset.sum_congr rfl fun j hj => by rw [update_of_ne (Finset.ne_of_mem_erase hj)]
  rw [contents, contents, ← Finset.add_sum_erase _ _ hmem, ← Finset.add_sum_erase _ _ hmem, hrest, update_self]
  abel

theorem exists_chain_of_card_ne_zero {chain : ℕ → List α} (h : (contents n chain).card ≠ 0) :
    ∃ i < n, chain i ≠ [] := by
  obtain ⟨x, hx⟩ := card_pos_iff_exists_mem.mp (Nat.pos_of_ne_zero h)
  obtain ⟨i, hi, hxi⟩ := mem_contents.mp hx
  exact ⟨i, hi, List.ne_nil_of_mem hxi⟩

theorem filter_contents_eq_sum (n : ℕ) (chain : ℕ → List α) (p : α → Prop) [DecidablePred p] :
    (contents n chain).filter p = ∑ i ∈ Finset.range n, (chain i : Multiset α).filter p := by
  unfold contents
  induction n with
  | zero => rfl
  | succ n ih => rw [Finset.sum_range_succ, Finset.sum_range_succ, filter_add, ih]

/-- If every entry is in the chain of its index, a chain is what has that index. -/
theorem filter_contents {chain : ℕ → List α} {index : α → ℕ}
    (hplaced : ∀ i < n, ∀ x ∈ chain i, index x = i) {j : ℕ}
    (hj : j < n) : (contents n chain).filter (index · = j) = chain j := by
  have hfilter : ∀ i ∈ Finset.range n, (chain i : Multiset α).filter (index · = j) =
      if i = j then (chain i : Multiset α) else 0 := by
    intro i hi
    have hi' := Finset.mem_range.mp hi
    split_ifs with hij
    · exact filter_eq_self.mpr fun x hx => (hplaced i hi' x hx).trans hij
    · exact filter_eq_nil.mpr fun x hx hxj => hij ((hplaced i hi' x hx).symm.trans hxj)
  rw [filter_contents_eq_sum, Finset.sum_congr rfl hfilter, Finset.sum_ite_eq', if_pos (Finset.mem_range.mpr hj)]

theorem filter_add_filter_interval (s : Multiset α) (index : α → ℕ) {i : ℕ} (h : i < n) :
    s.filter (index · = i) + s.filter (fun x => i + 1 ≤ index x ∧ index x < n) =
      s.filter fun x => i ≤ index x ∧ index x < n := by
  have hnone : s.filter (fun x => index x = i ∧ i + 1 ≤ index x ∧ index x < n) = 0 := by
    refine filter_eq_nil.mpr ?_
    intro x _ hx
    omega
  rw [filter_add_filter, hnone, add_zero]
  refine filter_congr ?_
  intro x _
  omega

end Contents

section Map

variable {K V : Type*} [DecidableEq K]

structure Represents (es : Multiset (K × V)) (m : Finmap fun _ : K => V) : Prop where
  nodup : (es.map Prod.fst).Nodup
  lookup_iff : ∀ k v, m.lookup k = some v ↔ (k, v) ∈ es

variable {es : Multiset (K × V)} {m : Finmap fun _ : K => V} {k : K} {v w : V}

theorem Represents.empty : Represents (0 : Multiset (K × V)) ∅ where
  nodup := nodup_zero
  lookup_iff k v := by simp

theorem Represents.lookup_eq_none (h : Represents es m) (hk : ∀ e ∈ es, e.1 ≠ k) : m.lookup k = none := by
  rw [eq_none_iff_forall_ne_some]
  intro v hv
  exact hk (k, v) ((h.lookup_iff k v).mp hv) rfl

theorem Represents.insert (h : Represents es m) (hk : ∀ e ∈ es, e.1 ≠ k) :
    Represents ((k, v) ::ₘ es) (m.insert k v) where
  nodup := by
    rw [map_cons, nodup_cons, Multiset.mem_map]
    refine ⟨?_, h.nodup⟩
    intro hmem
    obtain ⟨e, he, hek⟩ := hmem
    exact hk e he hek
  lookup_iff k' v' := by
    rw [mem_cons, Prod.mk.injEq]
    by_cases hkk : k' = k
    · subst hkk
      have hnot : (k', v') ∉ es := fun hmem => hk _ hmem rfl
      rw [Finmap.lookup_insert]
      simp [hnot, eq_comm]
    · rw [Finmap.lookup_insert_of_ne _ hkk, h.lookup_iff]
      simp [hkk]

theorem Represents.not_mem_of_cons (h : Represents ((k, v) ::ₘ es) m) : ∀ e ∈ es, e.1 ≠ k := by
  intro e he hek
  have hnodup := h.nodup
  rw [map_cons, nodup_cons] at hnodup
  exact hnodup.1 (Multiset.mem_map.mpr ⟨e, he, hek⟩)

theorem Represents.lookup_cons (h : Represents ((k, v) ::ₘ es) m) : m.lookup k = some v :=
  (h.lookup_iff k v).mpr (mem_cons_self _ _)

theorem Represents.erase (h : Represents ((k, v) ::ₘ es) m) : Represents es (m.erase k) where
  nodup := by
    have hnodup := h.nodup
    rw [map_cons, nodup_cons] at hnodup
    exact hnodup.2
  lookup_iff k' v' := by
    by_cases hkk : k' = k
    · subst hkk
      rw [Finmap.lookup_erase]
      refine iff_of_false (by simp) ?_
      intro hmem
      exact h.not_mem_of_cons _ hmem rfl
    · rw [Finmap.lookup_erase_ne hkk, h.lookup_iff, mem_cons, Prod.mk.injEq]
      simp [hkk]

theorem Represents.erase_of_forall_ne (h : Represents es m) (hk : ∀ e ∈ es, e.1 ≠ k) :
    Represents es (m.erase k) where
  nodup := h.nodup
  lookup_iff k' v' := by
    rw [← h.lookup_iff]
    by_cases hkk : k' = k
    · rw [hkk, Finmap.lookup_erase, h.lookup_eq_none hk]
    · rw [Finmap.lookup_erase_ne hkk]

theorem Represents.replace (h : Represents ((k, v) ::ₘ es) m) : Represents ((k, w) ::ₘ es) (m.insert k w) := by
  have hinsert := h.erase.insert h.not_mem_of_cons (v := w)
  refine ⟨hinsert.nodup, ?_⟩
  intro k' v'
  rw [← hinsert.lookup_iff]
  by_cases hkk : k' = k
  · subst hkk
    rw [Finmap.lookup_insert, Finmap.lookup_insert]
  · rw [Finmap.lookup_insert_of_ne _ hkk, Finmap.lookup_insert_of_ne _ hkk, Finmap.lookup_erase_ne hkk]

theorem Represents.card_keys (h : Represents es m) : m.keys.card = es.card := by
  have hkeys : m.keys = (es.map Prod.fst).toFinset := by
    ext k
    rw [Finmap.mem_keys, Multiset.mem_toFinset, ← Finmap.lookup_isSome, isSome_iff_exists, Multiset.mem_map]
    constructor
    · intro hk
      obtain ⟨v, hv⟩ := hk
      exact ⟨(k, v), (h.lookup_iff k v).mp hv, rfl⟩
    · intro hk
      obtain ⟨e, he, hek⟩ := hk
      subst hek
      exact ⟨e.2, (h.lookup_iff e.1 e.2).mpr he⟩
  rw [hkeys, toFinset_card_of_nodup h.nodup, card_map]

end Map

section Chain

variable {K V : Type*} [DecidableEq K]

def unlink (key : K) : List (K × V) → Option ((K × V) × List (K × V))
  | [] => none
  | e :: rest => if key = e.1 then some (e, rest) else (unlink key rest).map fun r => (r.1, e :: r.2)

def setVal (key : K) (val : V) : List (K × V) → List (K × V)
  | [] => []
  | e :: rest => if key = e.1 then (e.1, val) :: rest else e :: setVal key val rest

theorem unlink_eq_none {key : K} {c : List (K × V)} : unlink key c = none ↔ ∀ e ∈ c, e.1 ≠ key := by
  induction c with
  | nil => simp [unlink]
  | cons e rest ih =>
    rw [unlink]
    split_ifs with h
    · simp [h]
    · rw [map_eq_none_iff, ih]
      simp [Ne.symm h]

theorem unlink_eq_some {key : K} {c rest : List (K × V)} {e : K × V} (h : unlink key c = some (e, rest)) :
    e.1 = key ∧ (c : Multiset (K × V)) = e ::ₘ (rest : Multiset (K × V)) := by
  induction c generalizing rest with
  | nil => simp [unlink] at h
  | cons e' rest' ih =>
    rw [unlink] at h
    split_ifs at h with hk
    · obtain ⟨rfl, rfl⟩ := Prod.mk.inj (some.inj h)
      exact ⟨hk.symm, rfl⟩
    · obtain ⟨r, hr, heq⟩ := map_eq_some_iff.mp h
      obtain ⟨rfl, rfl⟩ := Prod.mk.inj heq
      obtain ⟨hkey, hc⟩ := ih hr
      refine ⟨hkey, ?_⟩
      rw [← cons_coe, hc, ← cons_coe, cons_swap]

theorem find_eq_unlink (key : K) (c : List (K × V)) : c.find? (fun e => key = e.1) = (unlink key c).map Prod.fst := by
  induction c with
  | nil => rfl
  | cons e rest ih =>
    rw [unlink, List.find?_cons]
    by_cases h : key = e.1
    · simp [h]
    · simp [h, ih, Option.map_map, comp_def]

theorem any_eq_unlink (key : K) (c : List (K × V)) : c.any (fun e => key = e.1) = (unlink key c).isSome := by
  rw [← List.isSome_find?, find_eq_unlink, isSome_map]

theorem setVal_eq {key : K} {c rest : List (K × V)} {e : K × V} (h : unlink key c = some (e, rest)) (val : V) :
    (setVal key val c : Multiset (K × V)) = (key, val) ::ₘ (rest : Multiset (K × V)) := by
  induction c generalizing rest with
  | nil => simp [unlink] at h
  | cons e' rest' ih =>
    rw [unlink] at h
    rw [setVal]
    split_ifs at h ⊢ with hk
    · obtain ⟨rfl, rfl⟩ := Prod.mk.inj (some.inj h)
      rw [hk]
      rfl
    · obtain ⟨r, hr, heq⟩ := map_eq_some_iff.mp h
      obtain ⟨rfl, rfl⟩ := Prod.mk.inj heq
      rw [← cons_coe, ih hr, ← cons_coe, cons_swap]

end Chain

end Buckets
