import Mathlib

/-! What has held since an event of a trace: an event with `start` opens a period, an event with
`stop` closes it, and an event with `hit` may happen in between. -/

namespace Since

open List

variable {α : Type*}

/-- A period has been opened and not closed since. -/
def Open (start stop : α → Prop) (T : List α) : Prop :=
  ∃ A a B, T = A ++ a :: B ∧ start a ∧ ∀ b ∈ B, ¬ stop b

def Hit (start stop hit : α → Prop) (T : List α) : Prop :=
  ∃ A a B, T = A ++ a :: B ∧ start a ∧ (∀ b ∈ B, ¬ stop b) ∧ ∃ b ∈ B, hit b

variable {start stop hit : α → Prop} {T : List α} {m : α}

theorem not_open_nil : ¬ Open start stop ([] : List α) := by
  rintro ⟨A, a, B, h, -⟩
  simp at h

theorem not_hit_nil : ¬ Hit start stop hit ([] : List α) := by
  rintro ⟨A, a, B, h, -⟩
  simp at h

theorem Open.mem (h : Open start stop T) : ∃ a ∈ T, start a := by
  obtain ⟨A, a, B, rfl, ha, -⟩ := h
  exact ⟨a, by simp, ha⟩

theorem concat_eq_split {A B : List α} {a : α} (h : T ++ [m] = A ++ a :: B) :
    (B = [] ∧ a = m) ∨ ∃ B', B = B' ++ [m] ∧ T = A ++ a :: B' := by
  rcases eq_nil_or_concat B with rfl | ⟨B', b, rfl⟩
  · obtain ⟨-, hm⟩ := append_inj' h rfl
    exact .inl ⟨rfl, (singleton_inj.mp hm).symm⟩
  · rw [concat_eq_append] at h ⊢
    rw [← cons_append, ← append_assoc] at h
    obtain ⟨hT, hm⟩ := append_inj' h rfl
    exact .inr ⟨B', by rw [singleton_inj.mp hm], hT⟩

theorem open_concat : Open start stop (T ++ [m]) ↔ start m ∨ (Open start stop T ∧ ¬ stop m) := by
  refine ⟨?_, ?_⟩
  · rintro ⟨A, a, B, hT, ha, hB⟩
    rcases concat_eq_split hT with ⟨-, rfl⟩ | ⟨B', rfl, rfl⟩
    · exact .inl ha
    · exact .inr ⟨⟨A, a, B', rfl, ha, fun b hb => hB b (by simp [hb])⟩, hB m (by simp)⟩
  · rintro (hm | ⟨⟨A, a, B, rfl, ha, hB⟩, hm⟩)
    · exact ⟨T, m, [], rfl, hm, by simp⟩
    · exact ⟨A, a, B ++ [m], by simp, ha, forall_mem_append.mpr ⟨hB, by simpa using hm⟩⟩

theorem hit_concat :
    Hit start stop hit (T ++ [m]) ↔ ¬ stop m ∧ (Hit start stop hit T ∨ (Open start stop T ∧ hit m)) := by
  refine ⟨?_, ?_⟩
  · rintro ⟨A, a, B, hT, ha, hB, b, hb, hhit⟩
    rcases concat_eq_split hT with ⟨rfl, -⟩ | ⟨B', rfl, rfl⟩
    · cases hb
    · have hB' : ∀ b ∈ B', ¬ stop b := fun b hb => hB b (by simp [hb])
      refine ⟨hB m (by simp), ?_⟩
      rcases mem_append.mp hb with hb | hb
      · exact .inl ⟨A, a, B', rfl, ha, hB', b, hb, hhit⟩
      · rw [mem_singleton.mp hb] at hhit
        exact .inr ⟨⟨A, a, B', rfl, ha, hB'⟩, hhit⟩
  · rintro ⟨hm, ⟨A, a, B, rfl, ha, hB, b, hb, hhit⟩ | ⟨⟨A, a, B, rfl, ha, hB⟩, hhit⟩⟩
    · exact ⟨A, a, B ++ [m], by simp, ha, forall_mem_append.mpr ⟨hB, by simpa using hm⟩, b, by simp [hb], hhit⟩
    · exact ⟨A, a, B ++ [m], by simp, ha, forall_mem_append.mpr ⟨hB, by simpa using hm⟩, m, by simp, hhit⟩

end Since
