import Mathlib

/-! A store with duplicate keys. Duplicates of one key keep their insertion order,
deletion removes all of them, and a cursor visits the keys in an order of its own
but never interleaves the duplicates of two keys. -/

structure Multimap (K V : Type*) where
  entries : List (K × V)
  deriving DecidableEq

namespace Multimap

open List

variable {K V : Type*} [DecidableEq K]

def empty : Multimap K V := ⟨[]⟩

def put (m : Multimap K V) (k : K) (v : V) : Multimap K V := ⟨m.entries ++ [(k, v)]⟩

def del (m : Multimap K V) (k : K) : Multimap K V := ⟨m.entries.filter (fun e => e.1 ≠ k)⟩

/-- The duplicates of `k`, oldest first. -/
def get (m : Multimap K V) (k : K) : List V := (m.entries.filter (fun e => e.1 = k)).map Prod.snd

variable (m : Multimap K V)

theorem get_put (k k' : K) (v : V) : (m.put k v).get k' = if k = k' then m.get k' ++ [v] else m.get k' := by
  simp only [get, put, filter_append, map_append]
  split_ifs with h <;> simp [h]

theorem get_del (k k' : K) : (m.del k).get k' = if k = k' then [] else m.get k' := by
  simp only [get, del, filter_filter]
  split_ifs with h
  · subst h
    simp
  · congr 1
    apply filter_congr
    intro e _
    by_cases he : e.1 = k'
    · subst he
      simp [Ne.symm h]
    · simp [he]

theorem get_ne_nil_iff (k : K) : m.get k ≠ [] ↔ k ∈ m.entries.map Prod.fst := by
  simp [get]

/-- The records a cursor over the keys `ks` returns. -/
def scan (m : Multimap K V) (ks : List K) : List (K × V) :=
  ks.flatMap fun k => (m.get k).map fun v => (k, v)

/-- `c` is what some cursor over `m` returns from its first record to its last. -/
def IsCursor (m : Multimap K V) (c : List (K × V)) : Prop :=
  ∃ ks : List K, ks.Nodup ∧ (∀ k, k ∈ ks ↔ m.get k ≠ []) ∧ c = m.scan ks

/-- The cursor that visits the keys in the order of their first insertion. -/
def cursor (m : Multimap K V) : List (K × V) := m.scan (m.entries.map Prod.fst).dedup

theorem cursor_isCursor : m.IsCursor m.cursor := by
  refine ⟨_, nodup_dedup _, fun k => ?_, rfl⟩
  rw [mem_dedup, get_ne_nil_iff]

end Multimap
