import RedisIR.Spec.Glob

/-! `stringmatchlen` decides the matches of a pattern, as it reads its sets; where it reads
a set as it is meant, these are the matches of the definition. -/

namespace RedisIR

open CLib List Option Glob UInt8

variable {p : Bytes} {g : List Token} {nocase : Bool} {a b : UInt8}

/-! ### Sets as the matcher reads them -/

def SetItem.takes (nocase : Bool) (c : UInt8) : SetItem → Bool
  | .byte b => sameChar nocase b c
  | .escaped b => b == c
  | .range a b => inRange nocase a b c

def Token.read (nocase : Bool) : Token → Glob UInt8
  | .literal b => .one fun c => sameChar nocase b c
  | .any => .one fun _ => True
  | .set negated items => .one fun c => items.any (SetItem.takes nocase c) = !negated
  | .star => .star

theorem setLoop_eq (nocase : Bool) (c : UInt8) {rest : Bytes} {items : List SetItem}
    (h : readItems p = some (items, rest)) (m : Bool) :
    setLoop nocase c p m = (m || items.any (SetItem.takes nocase c), rest) := by
  fun_induction readItems p generalizing items m with
  | case1 => cases h
  | case2 =>
    obtain ⟨rfl, rfl⟩ := Prod.mk.inj (some.inj h)
    simp [setLoop]
  | case3 => cases h
  | case4 => cases h
  | case5 =>
    obtain ⟨rfl, rfl⟩ := Prod.mk.inj (some.inj h)
    simp [setLoop, *]
  | case6 => cases h
  | case7 p q hp hp' hq ih =>
    obtain ⟨⟨items', rest'⟩, hread, heq⟩ := map_eq_some_iff.mp h
    obtain ⟨rfl, rfl⟩ := Prod.mk.inj heq
    rw [setLoop, if_neg hp, if_neg hp', ih hread, any_cons, Bool.or_assoc]
    rfl
  | case8 q r ps ih =>
    obtain ⟨⟨items', rest'⟩, hread, heq⟩ := map_eq_some_iff.mp h
    obtain ⟨rfl, rfl⟩ := Prod.mk.inj heq
    simp [setLoop, ih hread, SetItem.takes, Bool.or_assoc]
  | case9 =>
    obtain ⟨rfl, rfl⟩ := Prod.mk.inj (some.inj h)
    simp [setLoop, *]
  | case10 => cases h
  | case11 p r ps hp hp' hr ih =>
    obtain ⟨⟨items', rest'⟩, hread, heq⟩ := map_eq_some_iff.mp h
    obtain ⟨rfl, rfl⟩ := Prod.mk.inj heq
    simp [setLoop, hp, hp', ih hread, SetItem.takes, Bool.or_assoc]
  | case12 p q r ps hp hp' hq ih =>
    obtain ⟨⟨items', rest'⟩, hread, heq⟩ := map_eq_some_iff.mp h
    obtain ⟨rfl, rfl⟩ := Prod.mk.inj heq
    simp [setLoop, hp, hp', hq, ih hread, SetItem.takes, Bool.or_assoc]

theorem readItems_length {rest : Bytes} {items : List SetItem} (h : readItems p = some (items, rest)) :
    rest.length < p.length := by
  fun_induction readItems p generalizing items <;> simp_all <;> grind

/-! ### The main loop -/

theorem starLoop_iff {matchRest : Bytes → Bool} {g : List (Glob UInt8)}
    (h : ∀ s ≠ [], matchRest s = true ↔ Glob.Matches g s) (hg : ¬ Glob.Matches g []) (s : Bytes) :
    starLoop matchRest s = true ↔ Glob.Matches (.star :: g) s := by
  induction s with
  | nil => simpa [starLoop, matches_star_nil] using hg
  | cons c cs ih =>
    rw [starLoop, Bool.or_eq_true, h _ (by simp), ih, matches_star_cons]

theorem WellFormed.dropWhile_star (h : WellFormed p g) :
    WellFormed (p.dropWhile (· = STAR)) (g.dropWhile (· = .star)) := by
  induction h with
  | nil => exact .nil
  | star _ ih => simpa using ih
  | any h => exact .any h
  | set hcaret hitems h => exact .set hcaret hitems h
  | negated hitems h => exact .negated hitems h
  | escaped c h => exact .escaped c h
  | literal hc h => simpa [hc.1] using WellFormed.literal hc h

theorem matches_dropWhile_star (nocase : Bool) (g : List Token) (s : Bytes) :
    Glob.Matches (.star :: g.map (Token.read nocase)) s ↔
      Glob.Matches (.star :: (g.dropWhile (· = .star)).map (Token.read nocase)) s := by
  induction g with
  | nil => rfl
  | cons t g ih =>
    by_cases ht : t = .star
    · subst ht
      rw [map_cons, show Token.read nocase .star = .star from rfl, matches_star_star, ih]
      simp
    · simp [ht]

theorem WellFormed.eq_nil_of_matches (h : WellFormed p g) (hstar : p.head? ≠ some STAR)
    (hm : Glob.Matches (g.map (Token.read nocase)) []) : p = [] := by
  cases h with
  | nil => rfl
  | star _ => simp at hstar
  | _ => exact absurd hm (matches_one_nil _ _)

theorem head?_dropWhile_star (p : Bytes) : (p.dropWhile (· = STAR)).head? ≠ some STAR := by
  intro h
  have := List.head?_dropWhile_not (fun c => decide (c = STAR)) p
  simp [h] at this

theorem WellFormed.stars_iff (h : WellFormed p g) :
    p.dropWhile (· = STAR) = [] ↔ Glob.Matches (g.map (Token.read nocase)) [] := by
  have hdrop := h.dropWhile_star
  rw [← matches_star_nil, matches_dropWhile_star, matches_star_nil]
  refine ⟨?_, fun hm => hdrop.eq_nil_of_matches (head?_dropWhile_star p) hm⟩
  intro hnil
  rw [hnil] at hdrop
  generalize g.dropWhile (· = .star) = g' at hdrop ⊢
  cases hdrop
  rfl

theorem matchNext_iff {matchRest : Bytes → Bytes → Bool} (h : WellFormed p g)
    (hrest : ∀ s ≠ [], matchRest p s = true ↔ Glob.Matches (g.map (Token.read nocase)) s) (s : Bytes) :
    matchNext matchRest p s = true ↔ Glob.Matches (g.map (Token.read nocase)) s := by
  unfold matchNext
  split_ifs with hs
  · subst hs
    rw [decide_eq_true_iff, h.stars_iff]
  · exact hrest s hs

theorem matchLoop_iff (nocase : Bool) {fuel : ℕ} (h : WellFormed p g) (hfuel : p.length < fuel) {s : Bytes}
    (hs : s ≠ []) : matchLoop nocase fuel p s = true ↔ Glob.Matches (g.map (Token.read nocase)) s := by
  -- each round leaves a shorter pattern that is well formed again
  induction fuel generalizing p g s with
  | zero => omega
  | succ fuel ih =>
    obtain ⟨c, cs, rfl⟩ := exists_cons_of_ne_nil hs
    have hnext : ∀ {p g}, WellFormed p g → p.length < fuel →
        (matchNext (matchLoop nocase fuel) p cs = true ↔ Glob.Matches (g.map (Token.read nocase)) cs) :=
      fun h hp => matchNext_iff h (fun _ hs => ih h hp hs) cs
    cases h with
    | nil => simp [matchLoop]
    | @star p g h =>
      have hdrop := h.dropWhile_star
      have hlen : (p.dropWhile (· = STAR)).length ≤ p.length := (dropWhile_sublist _).length_le
      simp only [length_cons] at hfuel
      simp only [matchLoop, if_true, map_cons, Token.read]
      rw [matches_dropWhile_star]
      split_ifs with hnil
      · rw [hnil] at hdrop
        generalize g.dropWhile (· = .star) = g' at hdrop ⊢
        cases hdrop
        exact iff_of_true rfl (matches_star_all _)
      · refine starLoop_iff (fun s hs => ih hdrop (by omega) hs) ?_ _
        exact fun hm => hnil (hdrop.eq_nil_of_matches (head?_dropWhile_star p) hm)
    | any h =>
      simpa [matchLoop, Token.read, show QUESTION ≠ STAR by decide] using hnext h (by simpa using hfuel)
    | @set p rest items g hcaret hitems h =>
      have hlen := readItems_length hitems
      simp [matchLoop, show LBRACKET ≠ STAR by decide, show LBRACKET ≠ QUESTION by decide, hcaret,
        setLoop_eq nocase c hitems, Token.read, hnext h (by simp at hfuel; omega)]
    | @negated p rest items g hitems h =>
      have hlen := readItems_length hitems
      simp [matchLoop, show LBRACKET ≠ STAR by decide, show LBRACKET ≠ QUESTION by decide,
        setLoop_eq nocase c hitems, Token.read, hnext h (by simp at hfuel; omega)]
    | @escaped p g q h =>
      simp [matchLoop, show BACKSLASH ≠ STAR by decide, show BACKSLASH ≠ QUESTION by decide,
        show BACKSLASH ≠ LBRACKET by decide, Token.read, hnext h (by simp at hfuel; omega)]
    | @literal p g q hq h =>
      simp [matchLoop, hq, Token.read, hnext h (by simpa using hfuel)]

/-! ### Sets as they are meant -/

theorem toNat_fold (nocase : Bool) (c : UInt8) :
    (fold nocase c).toNat = if nocase = true ∧ 65 ≤ c.toNat ∧ c.toNat ≤ 90 then c.toNat + 32 else c.toNat := by
  revert nocase c
  decide +kernel

theorem sameChar_iff (nocase : Bool) (p c : UInt8) : sameChar nocase p c = true ↔ fold nocase p = fold nocase c := by
  have hp := p.toNat_lt
  have hc := c.toNat_lt
  rw [← UInt8.toNat_inj, toNat_fold, toNat_fold]
  cases nocase with
  | false => simp [sameChar, UInt8.toNat_inj]
  | true =>
    simp only [sameChar, if_true, beq_iff_eq, tolower, char_eq, true_and]
    split_ifs <;> omega

def lowered (nocase : Bool) (c : UInt8) : ℤ := if nocase then tolower (char c) else char c

theorem lowered_cases (nocase : Bool) (c : UInt8) :
    c.toNat < 128 ∧ (fold nocase c).toNat < 128 ∧ lowered nocase c = (fold nocase c).toNat ∨
      128 ≤ c.toNat ∧ c.toNat < 256 ∧ (fold nocase c).toNat = c.toNat ∧ lowered nocase c = c.toNat - 256 := by
  revert nocase c
  decide +kernel

theorem inRange_comm (nocase : Bool) (a b c : UInt8) : inRange nocase a b c = inRange nocase b a c := by
  simp [inRange, min_comm, max_comm]

theorem inRange_iff (h : char a ≤ char b) (nocase : Bool) (c : UInt8) :
    inRange nocase a b c = true ↔ lowered nocase a ≤ lowered nocase c ∧
      lowered nocase c ≤ lowered nocase b := by
  cases nocase <;> simp [inRange, lowered, min_eq_left h, max_eq_right h]

theorem lists_range_comm (nocase : Bool) (a b c : UInt8) :
    (SetItem.range a b).Lists nocase c ↔ (SetItem.range b a).Lists nocase c := by
  simp only [SetItem.Lists]
  exact or_comm

theorem regular_range_comm (nocase : Bool) (a b : UInt8) :
    (SetItem.range a b).Regular nocase ↔ (SetItem.range b a).Regular nocase := by
  simp only [SetItem.Regular]
  tauto

theorem char_le_of_side (hab : a ≤ b) (hside : a < 128 ↔ b < 128) : char a ≤ char b := by
  simp only [lt_iff_toNat_lt, le_iff_toNat_le, show (128 : UInt8).toNat = 128 from rfl] at hab hside
  rw [char_eq, char_eq]
  split_ifs <;> omega

/-- A range whose ends are in order, on one side of the sign and after folding too. -/
theorem inRange_iff_lists (hab : a ≤ b) (h : (SetItem.range a b).Regular nocase) (c : UInt8) :
    inRange nocase a b c = true ↔ (SetItem.range a b).Lists nocase c := by
  obtain ⟨hside, hfold, -⟩ := h
  rw [inRange_iff (char_le_of_side hab hside)]
  have hfold := hfold hab
  simp only [SetItem.Lists, lt_iff_toNat_lt, le_iff_toNat_le,
    show (128 : UInt8).toNat = 128 from rfl] at hside hfold ⊢
  have ha := lowered_cases nocase a
  have hb := lowered_cases nocase b
  have hc := lowered_cases nocase c
  omega

theorem side_of_inRange_iff (hab : a ≤ b) (h : ∀ c, inRange nocase a b c = true ↔
    (SetItem.range a b).Lists nocase c) : a < 128 ↔ b < 128 := by
  have ha := lowered_cases nocase a
  have hb := lowered_cases nocase b
  have hsmall : (fold nocase 0).toNat = 0 ∧ lowered nocase 0 = 0 ∧ (fold nocase 1).toNat = 1 ∧
      lowered nocase 1 = 1 ∧ (fold nocase 255).toNat = 255 ∧ lowered nocase 255 = -1 := by
    cases nocase <;> decide
  have hle : ¬ (a < 128 ↔ b < 128) → char b ≤ char a := by
    intro hside
    simp only [lt_iff_toNat_lt, le_iff_toNat_le, show (128 : UInt8).toNat = 128 from rfl] at hab hside
    rw [char_eq, char_eq]
    split_ifs <;> omega
  by_contra hside
  simp only [inRange_comm nocase a b, inRange_iff (hle hside), SetItem.Lists, le_iff_toNat_le] at h
  simp only [lt_iff_toNat_lt, le_iff_toNat_le, show (128 : UInt8).toNat = 128 from rfl] at hab hside
  have h0 := h 0
  have h1 := h 1
  omega

theorem fold_le_of_inRange_iff (hab : a ≤ b) (hside : a < 128 ↔ b < 128)
    (h : ∀ c, inRange nocase a b c = true ↔ (SetItem.range a b).Lists nocase c) :
    fold nocase a ≤ fold nocase b := by
  have hb := h b
  -- the end `b` is listed whatever the order is
  rw [inRange_iff (char_le_of_side hab hside)] at hb
  simp only [SetItem.Lists, lt_iff_toNat_lt, le_iff_toNat_le,
    show (128 : UInt8).toNat = 128 from rfl] at hb hside ⊢
  have ha := lowered_cases nocase a
  have hb' := lowered_cases nocase b
  omega

theorem range_regular_iff (hab : a ≤ b) : (SetItem.range a b).Regular nocase ↔
      ∀ c, inRange nocase a b c = true ↔ (SetItem.range a b).Lists nocase c := by
  refine ⟨fun h => inRange_iff_lists hab h, ?_⟩
  intro h
  have hside := side_of_inRange_iff hab h
  refine ⟨hside, fun _ => fold_le_of_inRange_iff hab hside h, ?_⟩
  intro hba
  rw [UInt8.le_antisymm hab hba]
  exact UInt8.le_refl _

theorem exists_other_case (h : isLetter b) : ∃ c, c ≠ b ∧ fold true b = fold true c := by
  simp only [isLetter, le_iff_toNat_le] at h
  change 65 ≤ b.toNat ∧ b.toNat ≤ 90 ∨ 97 ≤ b.toNat ∧ b.toNat ≤ 122 at h
  simp only [← UInt8.toNat_inj, toNat_fold, true_and, ne_eq]
  rcases h with h | h
  · refine ⟨UInt8.ofNat (b.toNat + 32), ?_⟩
    rw [UInt8.toNat_ofNat_of_lt' (show b.toNat + 32 < 256 by omega), if_pos h, if_neg (by omega)]
    omega
  · refine ⟨UInt8.ofNat (b.toNat - 32), ?_⟩
    rw [UInt8.toNat_ofNat_of_lt' (show b.toNat - 32 < 256 by omega), if_neg (by omega), if_pos (by omega)]
    omega

theorem escaped_regular_iff (nocase : Bool) (b : UInt8) : (SetItem.escaped b).Regular nocase ↔
      ∀ c, (SetItem.escaped b).takes nocase c = true ↔ (SetItem.escaped b).Lists nocase c := by
  simp only [SetItem.Regular, SetItem.takes, SetItem.Lists, beq_iff_eq]
  cases nocase with
  | false => simp [fold]
  | true =>
    refine ⟨?_, ?_⟩
    · intro h c
      have h := h rfl
      simp only [isLetter, le_iff_toNat_le] at h
      change ¬ (65 ≤ b.toNat ∧ b.toNat ≤ 90 ∨ 97 ≤ b.toNat ∧ b.toNat ≤ 122) at h
      simp only [← UInt8.toNat_inj, toNat_fold, true_and]
      split_ifs <;> omega
    · intro h _ hletter
      obtain ⟨c, hne, hfold⟩ := exists_other_case hletter
      exact hne ((h c).mpr hfold).symm

/-- An item is regular exactly when the matcher takes the bytes that it lists. -/
theorem SetItem.regular_iff (nocase : Bool) (i : SetItem) :
    i.Regular nocase ↔ ∀ c, i.takes nocase c = true ↔ i.Lists nocase c := by
  cases i with
  | byte b => exact iff_of_true trivial (sameChar_iff nocase b)
  | escaped b => exact escaped_regular_iff nocase b
  | range a b =>
    by_cases hab : a ≤ b
    · exact range_regular_iff hab
    · have hba : b ≤ a := by
        rw [le_iff_toNat_le] at hab ⊢
        omega
      simp only [regular_range_comm nocase a b, lists_range_comm nocase a b, SetItem.takes, inRange_comm nocase a b]
      exact range_regular_iff hba

/-- A token takes the bytes that it lists. -/
def Token.ReadAsMeant (nocase : Bool) (t : Token) : Prop := ∀ c, (t.read nocase).Takes c ↔ (t.glob nocase).Takes c

theorem Token.readAsMeant_of_regular {t : Token} (h : t.Regular nocase) : t.ReadAsMeant nocase := by
  intro c
  cases t with
  | literal b => exact sameChar_iff nocase b c
  | any => rfl
  | set negated items =>
    have hany : items.any (SetItem.takes nocase c) = true ↔ ∃ i ∈ items, i.Lists nocase c := by
      rw [List.any_eq_true]
      exact exists_congr fun i => and_congr_right fun hi => (SetItem.regular_iff nocase i).mp (h i hi) c
    simp only [Token.read, Token.glob, Takes, ← hany]
    cases negated <;> simp
  | star => rfl

theorem Token.read_eq_glob {t : Token} (h : t.ReadAsMeant nocase) : t.read nocase = t.glob nocase := by
  cases t with
  | star => rfl
  | _ => exact congrArg Glob.one (funext fun c => propext (h c))

theorem length_parts_read (nocase : Bool) (g : List Token) :
    (parts (g.map (Token.read nocase))).length = (parts (g.map (Token.glob nocase))).length := by
  induction g with
  | nil => rfl
  | cons t g ih => cases t <;> simp [parts, Token.read, Token.glob, ih]

theorem readAsMeant_of_parts_eq (h : parts (g.map (Token.read nocase)) = parts (g.map (Token.glob nocase))) :
    ∀ t ∈ g, t.ReadAsMeant nocase := by
  induction g with
  | nil => simp
  | cons t g ih =>
    rw [forall_mem_cons]
    cases t with
    | star => exact ⟨fun _ => Iff.rfl, ih h⟩
    | _ =>
      obtain ⟨hone, hrest⟩ := List.cons.inj h
      exact ⟨fun c => iff_of_eq (congrFun hone c), ih hrest⟩

/-- The strings of the least length tell the sets apart. They are empty only if every token is
a star. -/
theorem readAsMeant_of_matches_iff (hread : ∀ t ∈ g, ∃ c, (t.read nocase).Takes c)
    (hglob : ∀ t ∈ g, ∃ c, (t.glob nocase).Takes c)
    (h : ∀ s ≠ [], Glob.Matches (g.map (Token.read nocase)) s ↔ Matches nocase g s) :
    ∀ t ∈ g, t.ReadAsMeant nocase := by
  have hlen := length_parts_read nocase g
  refine readAsMeant_of_parts_eq ?_
  by_cases hnil : parts (g.map (Token.read nocase)) = []
  · rw [hnil, eq_comm, ← length_eq_zero_iff, ← hlen, hnil, length_nil]
  · refine parts_eq_of_matches_iff hlen (forall_mem_map.mpr hread) (forall_mem_map.mpr hglob) fun s hs => h s ?_
    rintro rfl
    exact hnil (length_eq_zero_iff.mp hs.symm)

/-- One reading of the tokens that matches nothing, and another that matches no more: one of
its tokens takes nothing either. -/
theorem exists_takes_none {f f' : Token → Glob UInt8} {t : Token} (ht : t ∈ g) (hnone : ∀ c, ¬ (f t).Takes c)
    (hlen : (parts (g.map f)).length = (parts (g.map f')).length)
    (h : ∀ s ≠ [], Glob.Matches (g.map f') s → Glob.Matches (g.map f) s) :
    ∃ t ∈ g, ∀ c, ¬ (f' t).Takes c := by
  have hf : f t ∈ g.map f := mem_map_of_mem ht
  by_contra! hall
  obtain ⟨s, hs, hmatch⟩ := exists_matches (forall_mem_map.mpr hall)
  refine not_matches_of_takes_none hf hnone (h s ?_ hmatch)
  rintro rfl
  exact parts_ne_nil hf hnone (length_eq_zero_iff.mp (hlen.trans hs.symm))

theorem matches_read_iff (nocase : Bool) (g : List Token) :
    (∀ s ≠ [], Glob.Matches (g.map (Token.read nocase)) s ↔ Matches nocase g s) ↔
      (∀ t ∈ g, t.ReadAsMeant nocase) ∨
        (∃ t ∈ g, ∀ c, ¬ (t.read nocase).Takes c) ∧ ∃ t ∈ g, ∀ c, ¬ (t.glob nocase).Takes c := by
  refine ⟨?_, ?_⟩
  · intro h
    have hlen := length_parts_read nocase g
    by_cases hread : ∃ t ∈ g, ∀ c, ¬ (t.read nocase).Takes c
    · obtain ⟨t, ht, hnone⟩ := hread
      exact .inr ⟨⟨t, ht, hnone⟩, exists_takes_none ht hnone hlen fun s hs => (h s hs).mpr⟩
    · have hglob : ¬ ∃ t ∈ g, ∀ c, ¬ (t.glob nocase).Takes c := by
        rintro ⟨t, ht, hnone⟩
        exact hread (exists_takes_none ht hnone hlen.symm fun s hs => (h s hs).mp)
      push Not at hread hglob
      exact .inl (readAsMeant_of_matches_iff hread hglob h)
  · rintro (h | ⟨⟨t, ht, hread⟩, u, hu, hglob⟩) s -
    · rw [Matches, map_congr_left fun t ht => Token.read_eq_glob (h t ht)]
    · exact iff_of_false (not_matches_of_takes_none (mem_map_of_mem ht) hread)
        (not_matches_of_takes_none (mem_map_of_mem hu) hglob)

/-- `stringmatchlen` decides the match of a pattern with its sets as the code reads them. It is
right on all strings exactly if every set takes the bytes that it lists, or no string matches
either way because a set takes nothing and a set lists nothing. Sets of regular items take
what they list. -/
theorem glob_match_iff (nocase : Bool) (hp : WellFormed p g) :
    (∀ s ≠ [], stringmatchlen p s nocase = true ↔ Glob.Matches (g.map (Token.read nocase)) s) ∧
      ((∀ s ≠ [], stringmatchlen p s nocase = true ↔ Matches nocase g s) ↔
        (∀ t ∈ g, t.ReadAsMeant nocase) ∨
          (∃ t ∈ g, ∀ c, ¬ (t.read nocase).Takes c) ∧ ∃ t ∈ g, ∀ c, ¬ (t.glob nocase).Takes c) ∧
      ((∀ t ∈ g, t.Regular nocase) → ∀ t ∈ g, t.ReadAsMeant nocase) := by
  have hcode : ∀ s ≠ [], stringmatchlen p s nocase = true ↔ Glob.Matches (g.map (Token.read nocase)) s :=
    fun s hs => matchLoop_iff nocase hp (Nat.lt_succ_self _) hs
  refine ⟨hcode, ?_, fun h t ht => Token.readAsMeant_of_regular (h t ht)⟩
  rw [← matches_read_iff]
  exact forall₂_congr fun s hs => by rw [hcode s hs]

/-- `h[a-e]*` -/
def classPattern : Bytes := ascii ['h', '[', 'a', '-', 'e', ']', '*']

theorem classPattern_wellFormed : WellFormed classPattern [.literal 104, .set false [.range 97 101], .star] :=
  .literal (by decide) (.set (by decide) rfl (.star .nil))

theorem glob_match_class : stringmatchlen classPattern (ascii ['H', 'E', 'y']) true = true ↔
      Matches true [.literal 104, .set false [.range 97 101], .star] (ascii ['H', 'E', 'y']) := by
  obtain ⟨-, hexact, hregular⟩ := glob_match_iff true classPattern_wellFormed
  refine hexact.mpr (.inl (hregular ?_)) _ (by decide)
  simp only [forall_mem_cons, not_mem_nil, false_implies, implies_true, and_true, Token.Regular,
    true_and, SetItem.Regular]
  decide

/-- `[Z-a]` without regard to case: folding turns the ends around and the range is empty,
though `a` is one of them. -/
theorem folded_range_empty : WellFormed (ascii ['[', 'Z', '-', 'a', ']']) [.set false [.range 90 97]] ∧
      Matches true [.set false [.range 90 97]] (ascii ['a']) ∧
      stringmatchlen (ascii ['[', 'Z', '-', 'a', ']']) (ascii ['a']) true = false := by
  refine ⟨.set (by decide) rfl .nil, ⟨97, [], rfl, ?_, rfl⟩, by decide⟩
  exact iff_of_true ⟨_, mem_singleton_self _, .inr (by decide)⟩ rfl

end RedisIR
