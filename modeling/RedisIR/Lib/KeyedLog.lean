import Mathlib

/-! Logs of operations that each touch at most one key. Replaying a log is, key by
key, folding the operations on that key, so two logs, two semantics or two starting
points can be compared one key at a time. -/

namespace KeyedLog

open List

/-- `P` holds of each operation of the log and the part of the log before it. -/
def Before {O : Type*} (P : List O → O → Prop) (L : List O) : Prop := ∀ A o B, L = A ++ o :: B → P A o

theorem before_nil {O : Type*} (P : List O → O → Prop) : Before P [] := by
  intro A o B h
  simp at h

theorem before_cons {O : Type*} (P : List O → O → Prop) (o : O) (L : List O) :
    Before P (o :: L) ↔ P [] o ∧ Before (fun A => P (o :: A)) L := by
  refine ⟨?_, ?_⟩
  · intro h
    exact ⟨h [] o L rfl, fun A o' B hL => h (o :: A) o' B (by rw [hL]; rfl)⟩
  · rintro ⟨h0, h⟩ A o' B hL
    cases A with
    | nil =>
      obtain ⟨rfl, -⟩ := List.cons.inj hL
      exact h0
    | cons a A =>
      obtain ⟨rfl, htail⟩ := List.cons.inj hL
      exact h A o' B htail

theorem Before.of_append {O : Type*} {P : List O → O → Prop} {A B : List O} (h : Before P (A ++ B)) :
    Before P A := by
  intro A' o B' hA
  exact h A' o (B' ++ B) (by rw [hA]; simp)

theorem before_concat {O : Type*} {P : List O → O → Prop} {L : List O} {o : O} (hL : Before P L) (ho : P L o) :
    Before P (L ++ [o]) := by
  intro A o' B h
  rcases eq_nil_or_concat B with rfl | ⟨B', b, rfl⟩
  · obtain ⟨rfl, hlast⟩ := append_inj' h rfl
    rwa [← singleton_inj.mp hlast]
  · have hsplit : L ++ [o] = (A ++ o' :: B') ++ [b] := by simpa using h
    exact hL A o' B' (append_inj' hsplit rfl).1

theorem append_cons_cases {O : Type*} {A B A' B' : List O} {o o' : O} (h : A ++ o :: B = A' ++ o' :: B') :
    (A = A' ∧ o = o' ∧ B = B') ∨ o' ∈ B ∨ o ∈ B' := by
  rcases append_eq_append_iff.mp h with ⟨C, rfl, hC⟩ | ⟨C, rfl, hC⟩
  · cases C with
    | nil =>
      obtain ⟨rfl, rfl⟩ := List.cons.inj hC
      exact .inl ⟨by simp, rfl, rfl⟩
    | cons c C =>
      obtain ⟨-, rfl⟩ := List.cons.inj hC
      exact .inr (.inl (by simp))
  · cases C with
    | nil =>
      obtain ⟨rfl, rfl⟩ := List.cons.inj hC
      exact .inl ⟨by simp, rfl, rfl⟩
    | cons c C =>
      obtain ⟨-, rfl⟩ := List.cons.inj hC
      exact .inr (.inr (by simp))

/-- `o`, which follows `A` in the log, is the log's last operation with key `k`. -/
def LastTouch {O K : Type*} (key : O → Option K) (k : K) (L A : List O) (o : O) : Prop :=
  ∃ B, L = A ++ o :: B ∧ key o = some k ∧ ∀ o' ∈ B, key o' ≠ some k

section LastTouch

variable {O K : Type*} {key : O → Option K} {k : K} {L A : List O} {o o' : O}

theorem lastTouch_nil : ¬ LastTouch key k [] A o := by
  rintro ⟨B, h, -⟩
  simp at h

theorem lastTouch_concat_of_eq (h : key o = some k) : LastTouch key k (L ++ [o]) A o' ↔ A = L ∧ o' = o := by
  refine ⟨?_, ?_⟩
  · rintro ⟨B, hL, -, hB⟩
    -- were anything after `o'`, the last of it would be `o`
    rcases eq_nil_or_concat B with rfl | ⟨B', b, rfl⟩
    · obtain ⟨h1, h2⟩ := append_inj' hL rfl
      exact ⟨h1.symm, (singleton_inj.mp h2).symm⟩
    · have hlast : L ++ [o] = (A ++ o' :: B') ++ [b] := by simpa using hL
      obtain rfl : o = b := singleton_inj.mp (append_inj' hlast rfl).2
      exact absurd h (hB o (by simp))
  · rintro ⟨rfl, rfl⟩
    exact ⟨[], rfl, h, by simp⟩

theorem lastTouch_concat_of_ne (h : key o ≠ some k) : LastTouch key k (L ++ [o]) A o' ↔ LastTouch key k L A o' := by
  refine ⟨?_, ?_⟩
  · rintro ⟨B, hL, hkey, hB⟩
    rcases eq_nil_or_concat B with rfl | ⟨B', b, rfl⟩
    · obtain rfl : o = o' := singleton_inj.mp (append_inj' hL rfl).2
      exact absurd hkey h
    · have hlast : L ++ [o] = (A ++ o' :: B') ++ [b] := by simpa using hL
      exact ⟨B', (append_inj' hlast rfl).1, hkey, fun b' hb' => hB b' (by simp [hb'])⟩
  · rintro ⟨B, rfl, hkey, hB⟩
    refine ⟨B ++ [o], by simp, hkey, fun b hb => ?_⟩
    rcases mem_append.mp hb with hb | hb
    · exact hB b hb
    · rw [mem_singleton.mp hb]
      exact h

theorem exists_lastTouch (h : ∃ o ∈ L, key o = some k) : ∃ A o, LastTouch key k L A o := by
  induction L using List.reverseRecOn with
  | nil => simp at h
  | append_singleton L o ih =>
    by_cases ho : key o = some k
    · exact ⟨L, o, (lastTouch_concat_of_eq ho).mpr ⟨rfl, rfl⟩⟩
    · obtain ⟨o', hmem, ho'⟩ := h
      have hL : o' ∈ L := by
        rcases mem_append.mp hmem with hmem | hmem
        · exact hmem
        · exact absurd (mem_singleton.mp hmem ▸ ho') ho
      obtain ⟨A, o'', hlast⟩ := ih ⟨o', hL, ho'⟩
      exact ⟨A, o'', (lastTouch_concat_of_ne ho).mpr hlast⟩

end LastTouch

/-- Which key an operation touches, and what it does to the value there. -/
structure Sem (K V O : Type*) where
  key : O → Option K
  act : O → Option V → Option V

variable {K V O : Type*} [DecidableEq K]

namespace Sem

/-- One operation on the value of `k`. -/
def touch (S : Sem K V O) (k : K) (x : Option V) (o : O) : Option V :=
  if S.key o = some k then S.act o x else x

/-- The value of `k` after a log that starts from the value `x`. -/
def fold (S : Sem K V O) (k : K) (x : Option V) (L : List O) : Option V := L.foldl (S.touch k) x

def step (S : Sem K V O) (m : K → Option V) (o : O) : K → Option V := fun k => S.touch k (m k) o

def replay (S : Sem K V O) (m : K → Option V) (L : List O) : K → Option V := L.foldl S.step m

variable (S : Sem K V O)

theorem replay_apply (m : K → Option V) (L : List O) (k : K) : S.replay m L k = S.fold k (m k) L := by
  induction L generalizing m with
  | nil => rfl
  | cons o L ih => exact ih (S.step m o)

theorem fold_append (k : K) (x : Option V) (A B : List O) : S.fold k x (A ++ B) = S.fold k (S.fold k x A) B := by
  simp [fold, foldl_append]

theorem fold_cons (k : K) (x : Option V) (o : O) (L : List O) : S.fold k x (o :: L) = S.fold k (S.touch k x o) L := rfl

theorem touch_of_key_ne {k : K} {o : O} (h : S.key o ≠ some k) (x : Option V) :
    S.touch k x o = x := if_neg h

theorem touch_of_key_eq {k : K} {o : O} (h : S.key o = some k) (x : Option V) :
    S.touch k x o = S.act o x := if_pos h

theorem fold_of_untouched {k : K} {L : List O} (h : ∀ o ∈ L, S.key o ≠ some k) (x : Option V) :
    S.fold k x L = x := by
  induction L with
  | nil => rfl
  | cons o L ih =>
    rw [fold_cons, S.touch_of_key_ne (h o (by simp))]
    exact ih fun o' ho' => h o' (by simp [ho'])

/-- The operation fixes the value of `k` whatever it was before. -/
def Overwrites (S : Sem K V O) (k : K) (o : O) : Prop :=
  S.key o = some k ∧ ∀ x y, S.act o x = S.act o y

theorem fold_eq_of_overwrites {k : K} {L : List O} (h : ∃ o ∈ L, S.Overwrites k o)
    (x y : Option V) : S.fold k x L = S.fold k y L := by
  obtain ⟨o, ho, hkey, hact⟩ := h
  obtain ⟨A, B, rfl⟩ := append_of_mem ho
  rw [fold_append, fold_append, fold_cons, fold_cons, S.touch_of_key_eq hkey, S.touch_of_key_eq hkey,
    hact _ (S.fold k y A)]

theorem fold_concat (k : K) (x : Option V) (L : List O) (o : O) :
    S.fold k x (L ++ [o]) = S.touch k (S.fold k x L) o := by
  rw [fold_append]
  rfl

/-- Two semantics that agree at each operation on a key along a log agree on its value,
also when the second one has operations and keys of its own. -/
theorem fold_congr {K' O' : Type*} [DecidableEq K'] (T : Sem K' V O') (f : O → O') (k : K)
    (k' : K') (x : Option V) (L : List O)
    (h : Before (fun A o => ∀ y, y = S.fold k x A → y = T.fold k' x (A.map f) →
      S.touch k y o = T.touch k' y (f o)) L) : S.fold k x L = T.fold k' x (L.map f) := by
  -- on the log read from its end, so that the prefix is known to agree
  induction L using List.reverseRecOn with
  | nil => rfl
  | append_singleton L o ih =>
    have hL : S.fold k x L = T.fold k' x (L.map f) := by
      apply ih
      intro A o' B hsplit
      exact h A o' (B ++ [o]) (by rw [hsplit]; simp)
    rw [map_append, map_singleton, fold_concat, fold_concat, ← hL]
    exact h L o [] rfl _ rfl hL

end Sem

end KeyedLog
