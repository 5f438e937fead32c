import Mathlib

/-! Finite maps over an ordered type, as the list of their entries in the order of the keys. -/

@[ext]
structure OrderedMap (K V : Type*) [LinearOrder K] where
  entries : List (K × V)
  sorted : entries.Pairwise (fun a b => a.1 < b.1)

namespace OrderedMap

open List

variable {K V : Type*} [LinearOrder K]
variable {k : K}

def empty : OrderedMap K V := ⟨[], .nil⟩

def find (m : OrderedMap K V) (k : K) : Option V := (m.entries.find? (fun e => e.1 = k)).map Prod.snd

def insertEntry (k : K) (v : V) : List (K × V) → List (K × V)
  | [] => [(k, v)]
  | e :: es =>
    if k < e.1 then (k, v) :: e :: es
    else if k = e.1 then (k, v) :: es
    else e :: insertEntry k v es

theorem mem_insertEntry {v : V} {e : K × V} {es : List (K × V)} (h : e ∈ insertEntry k v es) :
    e = (k, v) ∨ e ∈ es := by
  induction es with
  | nil => simpa [insertEntry] using h
  | cons a es ih =>
    rw [insertEntry] at h
    split_ifs at h with h1 h2
    · simpa using h
    · exact (mem_cons.mp h).imp_right (mem_cons_of_mem _)
    · rcases mem_cons.mp h with rfl | h
      · simp
      · exact (ih h).imp_right (mem_cons_of_mem _)

theorem insertEntry_sorted (k : K) (v : V) {es : List (K × V)} (h : es.Pairwise (fun a b => a.1 < b.1)) :
    (insertEntry k v es).Pairwise (fun a b => a.1 < b.1) := by
  induction es with
  | nil => simp [insertEntry]
  | cons a es ih =>
    rw [insertEntry]
    obtain ⟨ha, hes⟩ := pairwise_cons.mp h
    split_ifs with h1 h2
    · refine h.cons fun b hb => ?_
      rcases mem_cons.mp hb with rfl | hb
      · exact h1
      · exact h1.trans (ha b hb)
    · exact hes.cons fun b hb => h2 ▸ ha b hb
    · refine (ih hes).cons fun b hb => ?_
      rcases mem_insertEntry hb with rfl | hb
      · exact lt_of_le_of_ne (not_lt.mp h1) (Ne.symm h2)
      · exact ha b hb

def insert (m : OrderedMap K V) (k : K) (v : V) : OrderedMap K V :=
  ⟨insertEntry k v m.entries, insertEntry_sorted k v m.sorted⟩

def erase (m : OrderedMap K V) (k : K) : OrderedMap K V :=
  ⟨m.entries.filter (fun e => e.1 ≠ k), m.sorted.filter _⟩

@[simp] theorem find_empty (k : K) : (empty : OrderedMap K V).find k = none := rfl

theorem find?_insertEntry_self (k : K) (v : V) (es : List (K × V)) :
    (insertEntry k v es).find? (fun e => e.1 = k) = some (k, v) := by
  induction es with
  | nil => simp [insertEntry]
  | cons a es ih =>
    rw [insertEntry]
    split_ifs with h1 h2
    · simp
    · simp
    · rw [List.find?_cons_of_neg (by simpa using Ne.symm h2), ih]

theorem find?_insertEntry_of_ne {k' : K} (h : k' ≠ k) (v : V) (es : List (K × V)) :
    (insertEntry k v es).find? (fun e => e.1 = k') = es.find? (fun e => e.1 = k') := by
  induction es with
  | nil => simp [insertEntry, Ne.symm h]
  | cons a es ih =>
    rw [insertEntry]
    split_ifs with h1 h2
    · rw [List.find?_cons_of_neg (by simpa using Ne.symm h)]
    · rw [List.find?_cons_of_neg (by simpa using Ne.symm h),
        List.find?_cons_of_neg (by simpa [← h2] using Ne.symm h)]
    · simp [List.find?_cons, ih]

variable (m : OrderedMap K V)

theorem find_insert (k k' : K) (v : V) : (m.insert k v).find k' = if k' = k then some v else m.find k' := by
  simp only [insert, find]
  split_ifs with h
  · rw [h, find?_insertEntry_self, Option.map_some]
  · rw [find?_insertEntry_of_ne h]

theorem find_insert_self (k : K) (v : V) : (m.insert k v).find k = some v := by
  rw [find_insert, if_pos rfl]

theorem find_insert_of_ne {k' : K} (v : V) (h : k' ≠ k) : (m.insert k v).find k' = m.find k' := by
  rw [find_insert, if_neg h]

theorem mem_entries_iff {m : OrderedMap K V} {v : V} : (k, v) ∈ m.entries ↔ m.find k = some v := by
  obtain ⟨es, hes⟩ := m
  simp only [find]
  induction es with
  | nil => simp
  | cons a es ih =>
    obtain ⟨ha, hes⟩ := pairwise_cons.mp hes
    by_cases h : a.1 = k
    · subst h
      rw [List.find?_cons_of_pos (by simp)]
      constructor
      · intro hm
        rcases mem_cons.mp hm with he | hm
        · exact congrArg (fun e => some e.2) he.symm
        · exact absurd (ha _ hm) (lt_irrefl _)
      · intro hv
        obtain rfl : a.2 = v := by simpa using hv
        simp
    · rw [List.find?_cons_of_neg (by simp [h]), ← ih hes, mem_cons]
      constructor
      · rintro (rfl | hm)
        · exact absurd rfl h
        · exact hm
      · exact Or.inr

theorem find_erase (k k' : K) : (m.erase k).find k' = if k' = k then none else m.find k' := by
  apply Option.ext
  intro v
  rw [← mem_entries_iff]
  by_cases h : k' = k
  · simp [erase, h]
  · simp [erase, h, mem_entries_iff]

theorem isSome_find_iff {m : OrderedMap K V} : (m.find k).isSome ↔ k ∈ m.entries.map Prod.fst := by
  rw [Option.isSome_iff_exists]
  simp [← mem_entries_iff]

end OrderedMap
