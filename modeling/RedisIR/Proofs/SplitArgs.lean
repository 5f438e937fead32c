import RedisIR.Spec.SplitArgs

/-! Strings that are quoted, joined by spaces and split again are the same strings. -/

namespace RedisIR

open CLib List

variable {fuel : ℕ} {current p : Bytes}

/-- The three forms of a byte between quotes. -/
theorem reprByte_cases : ∀ c : UInt8,
    (reprByte c = [c] ∧ c ≠ BACKSLASH ∧ c ≠ QUOTE ∧ c ≠ 0) ∨
    (reprByte c = [BACKSLASH, (reprByte c).getD 1 0] ∧ (reprByte c).getD 1 0 ≠ 0 ∧
      (reprByte c).getD 1 0 ≠ 120 ∧ unescape ((reprByte c).getD 1 0) = c) ∨
    (reprByte c = [BACKSLASH, 120, hexDigit (c / 16), hexDigit (c % 16)] ∧ isHexDigit (hexDigit (c / 16)) ∧
      isHexDigit (hexDigit (c % 16)) ∧
        hexDigitToInt (hexDigit (c / 16)) * 16 + hexDigitToInt (hexDigit (c % 16)) = c) := by
  decide +kernel

theorem tokenLoop_reprByte (fuel : ℕ) (current : Bytes) (c : UInt8) (p : Bytes) :
    tokenLoop (fuel + 1) .double current (reprByte c ++ p) = tokenLoop fuel .double (current ++ [c]) p := by
  rcases reprByte_cases c with ⟨heq, hb, hq, h0⟩ | ⟨heq, h0, hx, hval⟩ | ⟨heq, h1, h2, hval⟩
  · rw [heq, tokenLoop]
    simp [hb, hq, h0]
  · generalize (reprByte c).getD 1 0 = e at heq h0 hx hval
    rw [heq, tokenLoop]
    simp [h0, hx, hval]
  · rw [heq, tokenLoop]
    simp [h1, h2, hval]

theorem reprByte_free : ∀ c : UInt8, reprByte c ≠ [] ∧ (0 : UInt8) ∉ reprByte c := by decide +kernel

/-- A closing quote may stand before this. -/
def Ends (p : Bytes) : Prop := p.getD 0 0 = 0 ∨ isspace (p.getD 0 0)

theorem tokenLoop_quoted (hp : Ends p) (s : Bytes) (hfuel : (s.flatMap reprByte).length < fuel) :
    tokenLoop fuel .double current (s.flatMap reprByte ++ QUOTE :: p) = some (current ++ s, p) := by
  induction s generalizing fuel current with
  | nil =>
    obtain ⟨fuel, rfl⟩ := Nat.exists_eq_add_of_lt hfuel
    have hclose : ¬ (p.getD 0 0 ≠ 0 ∧ ¬ isspace (p.getD 0 0)) := by
      unfold Ends at hp
      tauto
    rw [append_nil]
    exact if_neg hclose
  | cons c s ih =>
    obtain ⟨fuel, rfl⟩ : ∃ f, fuel = f + 1 := ⟨fuel - 1, by omega⟩
    have hpos := length_pos_of_ne_nil (reprByte_free c).1
    rw [flatMap_cons, length_append] at hfuel
    rw [flatMap_cons, append_assoc, tokenLoop_reprByte, ih (by omega), append_assoc, singleton_append]

theorem splitLoop_repr (hp : Ends p) (vector : List Bytes) (s : Bytes) :
    splitLoop (fuel + 1) vector (sdscatrepr [] s ++ p) = splitLoop fuel (vector ++ [s]) p := by
  have htext : sdscatrepr [] s ++ p = QUOTE :: (s.flatMap reprByte ++ QUOTE :: p) := by simp [sdscatrepr]
  have hdrop : (QUOTE :: (s.flatMap reprByte ++ QUOTE :: p)).dropWhile isspace =
      QUOTE :: (s.flatMap reprByte ++ QUOTE :: p) := dropWhile_cons_of_neg (by decide)
  have hopen : ∀ n t, tokenLoop (n + 1) .no [] (QUOTE :: t) = tokenLoop n .double [] t := fun _ _ => rfl
  rw [htext, splitLoop, hdrop]
  simp only [reduceCtorEq, if_false]
  rw [hopen, tokenLoop_quoted hp s (by simp only [length_cons, length_append]; omega)]
  rfl

/-- Every further string stands behind a space. -/
def spaced (args : List Bytes) : Bytes := args.flatMap fun s => 32 :: sdscatrepr [] s

theorem ends_spaced (args : List Bytes) : Ends (spaced args) := by
  cases args with
  | nil => exact .inl rfl
  | cons s args => exact .inr rfl

theorem splitLoop_spaced (vector args : List Bytes) (hfuel : (spaced args).length < fuel) :
    splitLoop fuel vector (spaced args) = some (vector ++ args) := by
  induction args generalizing fuel vector with
  | nil =>
    obtain ⟨fuel, rfl⟩ := Nat.exists_eq_add_of_lt hfuel
    simp [spaced, splitLoop]
  | cons s args ih =>
    obtain ⟨fuel, rfl⟩ : ∃ f, fuel = f + 1 := ⟨fuel - 1, by omega⟩
    have hspace : splitLoop (fuel + 1) vector (spaced (s :: args)) =
        splitLoop (fuel + 1) vector (sdscatrepr [] s ++ spaced args) := rfl
    rw [spaced, flatMap_cons, length_append, length_cons] at hfuel
    rw [hspace, splitLoop_repr (ends_spaced args), ih _ (by unfold spaced; omega), append_assoc, singleton_append]

theorem intercalate_repr (s : Bytes) (args : List Bytes) :
    [32].intercalate ((s :: args).map (sdscatrepr [])) = sdscatrepr [] s ++ spaced args := by
  induction args generalizing s with
  | nil => simp [spaced]
  | cons s' args ih =>
    rw [map_cons, map_cons, intercalate_cons_cons, ← map_cons, ih]
    simp [spaced]

theorem spaced_free (args : List Bytes) : (0 : UInt8) ∉ spaced args := by
  simp [spaced, sdscatrepr, QUOTE, (reprByte_free _).2]

/-- Splitting the quoted forms of any strings, joined by single spaces, gives the strings. -/
theorem sdssplitargs_repr (args : List Bytes) :
    sdssplitargs ([32].intercalate (args.map (sdscatrepr []))) = some args := by
  cases args with
  | nil => rfl
  | cons s args =>
    have hfree : (0 : UInt8) ∉ sdscatrepr [] s ++ spaced args := fun h => spaced_free (s :: args) (.tail _ h)
    have hlen : (spaced args).length < (sdscatrepr [] s ++ spaced args).length := by
      simp only [sdscatrepr, length_append, length_cons]
      omega
    rw [intercalate_repr, sdssplitargs, cstr_val_of_nul_free hfree, splitLoop_repr (ends_spaced args),
      splitLoop_spaced _ _ hlen]
    rfl

end RedisIR
