import Mathlib

/-! Lists of members, and for each member the list of the places that have it. -/

namespace Mirror

open List

variable {α β : Type*} [DecidableEq α] [DecidableEq β] {L L' : β → List α} {own own' : α → List β}
    {a : α} {b : β}

structure Mirrored (L : β → List α) (own : α → List β) : Prop where
  mem : ∀ a b, a ∈ L b ↔ b ∈ own a
  nodup : ∀ b, (L b).Nodup
  own_nodup : ∀ a, (own a).Nodup

theorem Mirrored.join (h : Mirrored L own) (hnew : b ∉ own a)
    (hL : ∀ b', L' b' = if b' = b then L b' ++ [a] else L b')
    (hown : ∀ a', own' a' = if a' = a then own a' ++ [b] else own a') : Mirrored L' own' := by
  refine ⟨fun a' b' => ?_, fun b' => ?_, fun a' => ?_⟩
  · rw [hL, hown]
    by_cases ha : a' = a <;> by_cases hb : b' = b <;> simp [ha, hb, h.mem]
  · rw [hL]
    split_ifs with hb
    · refine (h.nodup b').append (nodup_singleton a) (disjoint_singleton.mpr ?_)
      rwa [h.mem, hb]
    · exact h.nodup b'
  · rw [hown]
    split_ifs with ha
    · exact (h.own_nodup a').append (nodup_singleton b) (disjoint_singleton.mpr (ha ▸ hnew))
    · exact h.own_nodup a'

theorem Mirrored.leave {bs : List β} (h : Mirrored L own) (hbs : own a = b :: bs)
    (hL : ∀ b', L' b' = if b' = b then (L b').erase a else L b')
    (hown : ∀ a', own' a' = if a' = a then bs else own a') : Mirrored L' own' := by
  have hnodup := h.own_nodup a
  rw [hbs, nodup_cons] at hnodup
  refine ⟨fun a' b' => ?_, fun b' => ?_, fun a' => ?_⟩
  · rw [hL, hown]
    by_cases hb : b' = b
    · rw [if_pos hb, (h.nodup b').mem_erase_iff, h.mem]
      by_cases ha : a' = a
      · simp [ha, hb, hnodup.1]
      · simp [ha]
    · rw [if_neg hb, h.mem]
      split_ifs with ha
      · rw [ha, hbs, mem_cons, or_iff_right hb]
      · rfl
  · rw [hL]
    split_ifs
    · exact (h.nodup b').erase a
    · exact h.nodup b'
  · rw [hown]
    split_ifs
    · exact hnodup.2
    · exact h.own_nodup a'

end Mirror
