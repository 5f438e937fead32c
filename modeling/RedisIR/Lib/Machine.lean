import Mathlib

/-! Deterministic machines driven by a schedule. A step consumes an action and emits
outputs; a run consumes a list of actions. Assumptions about a schedule are conditions
on each action and the state in which it is taken. -/

namespace Machine

open List

variable {S T A B O O' : Type*}
variable {as : List A} {s : S}

/-- The state after a schedule, and everything emitted on the way. -/
def run (step : A → S → S × List O) : List A → S → S × List O
  | [], s => (s, [])
  | a :: as, s => ((run step as (step a s).1).1, (step a s).2 ++ (run step as (step a s).1).2)

/-- Each action of the schedule meets `P` in the state in which it is taken. -/
def Along (step : A → S → S × List O) (P : S → A → Prop) : List A → S → Prop
  | [], _ => True
  | a :: as, s => P s a ∧ Along step P as (step a s).1

variable {step : A → S → S × List O} {P Q : S → A → Prop}

instance decidableAlong [∀ s a, Decidable (P s a)] : ∀ as s, Decidable (Along step P as s)
  | [], _ => isTrue trivial
  | a :: as, s =>
    have := decidableAlong as (step a s).1
    inferInstanceAs (Decidable (P s a ∧ Along step P as (step a s).1))

theorem run_append (as bs : List A) (s : S) : run step (as ++ bs) s =
      ((run step bs (run step as s).1).1, (run step as s).2 ++ (run step bs (run step as s).1).2) := by
  induction as generalizing s with
  | nil => rfl
  | cons a as ih => simp [cons_append, run, ih, append_assoc]

theorem along_append (as bs : List A) (s : S) :
    Along step P (as ++ bs) s ↔ Along step P as s ∧ Along step P bs (run step as s).1 := by
  induction as generalizing s with
  | nil => simp [Along, run]
  | cons a as ih => simp [cons_append, Along, run, ih, and_assoc]

theorem along_and (as : List A) (s : S) :
    Along step (fun s a => P s a ∧ Q s a) as s ↔ Along step P as s ∧ Along step Q as s := by
  induction as generalizing s with
  | nil => simp [Along]
  | cons a as ih =>
    simp only [Along, ih]
    tauto

theorem invariant {Inv : S → Prop} (hstep : ∀ s a, Inv s → P s a → Inv (step a s).1) (hs : Inv s)
    (has : Along step P as s) : Inv (run step as s).1 := by
  induction as generalizing s with
  | nil => exact hs
  | cons a as ih => exact ih (hstep s a hs has.1) has.2

/-- What every allowed step keeps of the state and everything emitted so far, every allowed run keeps. -/
theorem trace_invariant {I : S → List O → Prop}
    (hstep : ∀ s T a, I s T → P s a → I (step a s).1 (T ++ (step a s).2))
    {T : List O} (hs : I s T) (has : Along step P as s) : I (run step as s).1 (T ++ (run step as s).2) := by
  induction as generalizing s T with
  | nil => simpa [run] using hs
  | cons a as ih =>
    rw [run, ← append_assoc]
    exact ih (hstep s T a hs has.1) has.2

theorem along_true (as : List A) (s : S) : Along step (fun _ _ => True) as s := by
  induction as generalizing s with
  | nil => trivial
  | cons a as ih => exact ⟨trivial, ih _⟩

theorem along_of_flatMap {f : A → List B} {R : B → Prop} (h : ∀ b ∈ as.flatMap f, R b) (s : S) :
    Along step (fun _ a => ∀ b ∈ f a, R b) as s := by
  induction as generalizing s with
  | nil => trivial
  | cons a as ih =>
    rw [flatMap_cons] at h
    exact ⟨fun b hb => h b (by simp [hb]), ih (fun b hb => h b (by simp [hb])) _⟩

/-- Forward simulation: each allowed step is matched by the actions `f a` of a second machine,
with outputs that `Q` relates, so each allowed run is. -/
theorem simulation (step' : B → T → T × List O') (f : A → List B) (R : S → T → Prop) (Q : O → O' → Prop)
    (hstep : ∀ s t a, R s t → P s a →
      R (step a s).1 (run step' (f a) t).1 ∧ Forall₂ Q (step a s).2 (run step' (f a) t).2)
    {t : T} (hst : R s t) (has : Along step P as s) : R (run step as s).1 (run step' (as.flatMap f) t).1 ∧
      Forall₂ Q (run step as s).2 (run step' (as.flatMap f) t).2 := by
  induction as generalizing s t with
  | nil => exact ⟨hst, .nil⟩
  | cons a as ih =>
    obtain ⟨hR, hout⟩ := hstep s t a hst has.1
    obtain ⟨hR', hout'⟩ := ih hR has.2
    rw [flatMap_cons, run_append]
    exact ⟨hR', rel_append hout hout'⟩

theorem iterate_measure {f : S → S} {μ : S → ℕ} (hlt : ∀ s, μ s ≠ 0 → μ (f s) < μ s)
    (hzero : ∀ s, μ s = 0 → μ (f s) = 0) {n : ℕ} (hn : μ s ≤ n) : μ (f^[n] s) = 0 := by
  induction n generalizing s with
  | zero => simpa using hn
  | succ n ih =>
    rw [Function.iterate_succ_apply]
    apply ih
    by_cases h : μ s = 0
    · rw [hzero s h]
      exact Nat.zero_le n
    · have := hlt s h
      omega

end Machine
