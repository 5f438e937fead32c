import Mathlib

/-! Elections in epochs: each voter has one vote in an epoch, and two candidates cannot both have the
votes of more than half of the voters. -/

namespace Votes

open Finset

variable {V C : Type*} {votes votes' : List (V × ℕ × C)} {v : V} {e : ℕ} {c c' : C}

def OneVote (votes : List (V × ℕ × C)) : Prop :=
  ∀ v e c c', (v, e, c) ∈ votes → (v, e, c') ∈ votes → c = c'

/-- More than half of the voters have voted for the candidate in the epoch. -/
def Won [Fintype V] (votes : List (V × ℕ × C)) (c : C) (e : ℕ) : Prop :=
  ∃ S : Finset V, Fintype.card V / 2 + 1 ≤ S.card ∧ ∀ v ∈ S, (v, e, c) ∈ votes

theorem OneVote.snoc (h : OneVote votes) (hnew : ∀ c, (v, e, c) ∉ votes) (c : C) :
    OneVote (votes ++ [(v, e, c)]) := by
  intro v' e' c1 c2 h1 h2
  rw [List.mem_append, List.mem_singleton] at h1 h2
  rcases h1 with h1 | h1 <;> rcases h2 with h2 | h2
  · exact h v' e' c1 c2 h1 h2
  · cases h2
    exact absurd h1 (hnew c1)
  · cases h1
    exact absurd h2 (hnew c2)
  · cases h1
    cases h2
    rfl

theorem Won.mono [Fintype V] (h : Won votes c e) (hsub : votes ⊆ votes') : Won votes' c e := by
  obtain ⟨S, hcard, hS⟩ := h
  exact ⟨S, hcard, fun v hv => hsub (hS v hv)⟩

theorem OneVote.won_unique [Fintype V] (h : OneVote votes) (hc : Won votes c e) (hc' : Won votes c' e) : c = c' := by
  classical
  obtain ⟨S, hS, hvotes⟩ := hc
  obtain ⟨S', hS', hvotes'⟩ := hc'
  have hcard : (Finset.univ : Finset V).card < S.card + S'.card := by
    rw [card_univ]
    omega
  obtain ⟨v, hv⟩ := inter_nonempty_of_card_lt_card_add_card (subset_univ S) (subset_univ S') hcard
  obtain ⟨hv, hv'⟩ := mem_inter.mp hv
  exact h v e c c' (hvotes v hv) (hvotes' v hv')

end Votes
