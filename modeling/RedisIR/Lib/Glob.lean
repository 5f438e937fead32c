import Mathlib

/-! Patterns made of parts that take one symbol each and of stars that take any number of
them, over an arbitrary alphabet. -/

inductive Glob (α : Type*)
  | one (accepts : α → Prop)
  | star

namespace Glob

variable {α : Type*}

/-- A sequence of parts matches the concatenations of what the parts match. -/
def Matches : List (Glob α) → List α → Prop
  | [], s => s = []
  | .one accepts :: g, s => ∃ c t, s = c :: t ∧ accepts c ∧ Matches g t
  | .star :: g, s => ∃ t u, s = t ++ u ∧ Matches g u

variable (accepts : α → Prop) (g : List (Glob α)) (c : α) (s : List α)

@[simp] theorem matches_nil : Matches [] s ↔ s = [] := Iff.rfl

@[simp] theorem matches_one_cons : Matches (.one accepts :: g) (c :: s) ↔ accepts c ∧ Matches g s := by
  simp [Matches]

@[simp] theorem matches_one_nil : ¬ Matches (.one accepts :: g) [] := by
  simp [Matches]

theorem matches_star {g : List (Glob α)} {s : List α} :
    Matches (.star :: g) s ↔ ∃ u, u <:+ s ∧ Matches g u := by
  refine ⟨?_, ?_⟩
  · intro h
    obtain ⟨t, u, rfl, hu⟩ := h
    exact ⟨u, List.suffix_append t u, hu⟩
  · intro h
    obtain ⟨u, ⟨t, rfl⟩, hu⟩ := h
    exact ⟨t, u, rfl, hu⟩

theorem matches_star_nil : Matches (.star :: g) [] ↔ Matches g [] := by
  simp [matches_star]

theorem matches_star_cons : Matches (.star :: g) (c :: s) ↔ Matches g (c :: s) ∨ Matches (.star :: g) s := by
  simp [matches_star, List.suffix_cons_iff, or_and_right, exists_or]

theorem matches_star_star : Matches (.star :: .star :: g) s ↔ Matches (.star :: g) s := by
  refine ⟨?_, ?_⟩
  · intro h
    obtain ⟨u, hu, hg⟩ := matches_star.mp h
    obtain ⟨w, hw, hg⟩ := matches_star.mp hg
    exact matches_star.mpr ⟨w, hw.trans hu, hg⟩
  · intro h
    exact matches_star.mpr ⟨s, List.suffix_refl s, h⟩

theorem matches_star_all : Matches [.star] s :=
  matches_star.mpr ⟨[], List.nil_suffix, rfl⟩

/-! ### What a pattern says about its parts -/

/-- The symbols that a part takes, one at a time. -/
def Takes : Glob α → α → Prop
  | .one accepts, c => accepts c
  | .star, _ => True

/-- The parts that take one symbol each. -/
def parts : List (Glob α) → List (α → Prop)
  | [] => []
  | .one accepts :: g => accepts :: parts g
  | .star :: g => parts g

variable {g h : List (Glob α)} {s : List α} {t : Glob α}

theorem mem_parts {accepts : α → Prop} : accepts ∈ parts g ↔ .one accepts ∈ g := by
  fun_induction parts g <;> simp_all

theorem length_parts_le (hs : Matches g s) : (parts g).length ≤ s.length := by
  induction g generalizing s with
  | nil => exact Nat.zero_le _
  | cons t g ih =>
    cases t with
    | one accepts =>
      obtain ⟨c, u, rfl, -, hu⟩ := hs
      exact Nat.succ_le_succ (ih hu)
    | star =>
      obtain ⟨u, hsuffix, hu⟩ := matches_star.mp hs
      exact (ih hu).trans hsuffix.length_le

/-- A string of the least length leaves nothing to the stars. -/
theorem matches_tight (hlen : s.length = (parts g).length) :
    Matches g s ↔ List.Forall₂ (fun accepts c => accepts c) (parts g) s := by
  induction g generalizing s with
  | nil => simp_all [parts]
  | cons t g ih =>
    cases t with
    | one accepts =>
      obtain ⟨c, u, rfl⟩ := List.exists_cons_of_length_eq_add_one hlen
      rw [matches_one_cons, parts, List.forall₂_cons, ih (Nat.succ.inj hlen)]
    | star =>
      have hlen : s.length = (parts g).length := hlen
      rw [parts, ← ih hlen, matches_star]
      refine ⟨?_, fun hs => ⟨s, List.suffix_refl s, hs⟩⟩
      rintro ⟨u, hsuffix, hu⟩
      have hle : s.length ≤ u.length := hlen.trans_le (length_parts_le hu)
      rwa [← hsuffix.eq_of_length_le hle]

theorem not_matches_of_takes_none [Nonempty α] (ht : t ∈ g) (hnone : ∀ c, ¬ t.Takes c) : ¬ Matches g s := by
  induction g generalizing s with
  | nil => cases ht
  | cons t' g ih =>
    intro hs
    cases t' with
    | one accepts =>
      obtain ⟨c, u, rfl, hc, hu⟩ := hs
      rcases List.mem_cons.mp ht with rfl | ht
      · exact hnone c hc
      · exact ih ht hu
    | star =>
      obtain ⟨u, -, hu⟩ := matches_star.mp hs
      rcases List.mem_cons.mp ht with rfl | ht
      · exact hnone (Classical.arbitrary α) trivial
      · exact ih ht hu

theorem parts_ne_nil [Nonempty α] (ht : t ∈ g) (hnone : ∀ c, ¬ t.Takes c) : parts g ≠ [] := by
  cases t with
  | one accepts => exact List.ne_nil_of_mem (mem_parts.mpr ht)
  | star => exact absurd trivial (hnone (Classical.arbitrary α))

theorem exists_forall₂ {as : List (α → Prop)} (h : ∀ accepts ∈ as, ∃ c, accepts c) :
    ∃ s, List.Forall₂ (fun accepts c => accepts c) as s := by
  induction as with
  | nil => exact ⟨[], .nil⟩
  | cons accepts as ih =>
    obtain ⟨c, hc⟩ := h _ (List.mem_cons_self ..)
    obtain ⟨s, hs⟩ := ih fun a ha => h a (List.mem_cons_of_mem _ ha)
    exact ⟨c :: s, .cons hc hs⟩

theorem exists_matches (h : ∀ t ∈ g, ∃ c, t.Takes c) : ∃ s, s.length = (parts g).length ∧ Matches g s := by
  obtain ⟨s, hs⟩ := @exists_forall₂ _ (parts g) fun accepts ha => h _ (mem_parts.mp ha)
  exact ⟨s, hs.length_eq.symm, (matches_tight hs.length_eq.symm).mpr hs⟩

/-- A product of sets none of which is empty has its factors. -/
theorem forall₂_inj {as bs : List (α → Prop)} (hlen : as.length = bs.length)
    (has : ∀ a ∈ as, ∃ c, a c) (hbs : ∀ b ∈ bs, ∃ c, b c)
    (h : ∀ s, List.Forall₂ (fun a c => a c) as s ↔ List.Forall₂ (fun b c => b c) bs s) : as = bs := by
  induction as generalizing bs with
  | nil => exact (List.length_eq_zero_iff.mp hlen.symm).symm
  | cons a as ih =>
    obtain ⟨b, bs, rfl⟩ := List.exists_cons_of_length_eq_add_one hlen.symm
    simp only [List.mem_cons, forall_eq_or_imp] at has hbs
    have hcons :
      ∀ c s, a c ∧ List.Forall₂ (fun a c => a c) as s ↔ b c ∧ List.Forall₂ (fun b c => b c) bs s := by
      intro c s
      simpa only [List.forall₂_cons] using h (c :: s)
    obtain ⟨c, hc⟩ := has.1
    obtain ⟨s, hs⟩ := exists_forall₂ has.2
    have hbc := ((hcons c s).mp ⟨hc, hs⟩)
    congr 1
    · ext x
      exact ⟨fun hx => ((hcons x s).mp ⟨hx, hs⟩).1, fun hx => ((hcons x s).mpr ⟨hx, hbc.2⟩).1⟩
    · refine ih (Nat.succ.inj hlen) has.2 hbs.2 fun u => ?_
      exact ⟨fun hu => ((hcons c u).mp ⟨hc, hu⟩).2, fun hu => ((hcons c u).mpr ⟨hbc.1, hu⟩).2⟩

/-- Two patterns that match the same strings of the least length have the same parts, unless a
part takes nothing. -/
theorem parts_eq_of_matches_iff (hlen : (parts g).length = (parts h).length)
    (hg : ∀ t ∈ g, ∃ c, t.Takes c) (hh : ∀ t ∈ h, ∃ c, t.Takes c)
    (hm : ∀ s, s.length = (parts g).length → (Matches g s ↔ Matches h s)) : parts g = parts h := by
  refine forall₂_inj hlen (fun a ha => hg _ (mem_parts.mp ha)) (fun a ha => hh _ (mem_parts.mp ha)) fun s => ?_
  refine ⟨fun hs => ?_, fun hs => ?_⟩
  · have hl := hs.length_eq.symm
    exact (matches_tight (hl.trans hlen)).mp ((hm s hl).mp ((matches_tight hl).mpr hs))
  · have hl := hs.length_eq.symm
    exact (matches_tight (hl.trans hlen.symm)).mp ((hm s (hl.trans hlen.symm)).mpr ((matches_tight hl).mpr hs))

end Glob
