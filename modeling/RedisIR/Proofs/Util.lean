import RedisIR.Spec.Util

/-! `ll2string` writes the canonical numeral and `string2ll` reads it back. -/

namespace RedisIR

open CLib List Option

variable {n : ℕ} {i : ℤ} {c : UInt8}

theorem natDecimal_step (h : 10 ≤ n) : natDecimal n = natDecimal (n / 10) ++ [digitByte (n % 10)] := by
  have h0 : n ≠ 0 := by omega
  have h1 : n / 10 ≠ 0 := by omega
  unfold natDecimal
  rw [if_neg h0, if_neg h1, Nat.digits_def' (by norm_num) (by omega)]
  simp

theorem natDecimal_digit (h : n < 10) : natDecimal n = [digitByte n] := by
  unfold natDecimal
  split_ifs with h0
  · rw [h0]
  · rw [Nat.digits_of_lt 10 n h0 h]
    rfl

theorem natDecimal_length_iff {k : ℕ} (hk : 0 < k) : (natDecimal n).length ≤ k ↔ n < 10 ^ k := by
  refine ⟨?_, ?_⟩
  · intro h
    unfold natDecimal at h
    split_ifs at h with h0
    · subst h0
      positivity
    · simpa using (Nat.digits_length_le_iff (by norm_num) n).mp (by simpa using h)
  · exact fun h => natDecimal_length_le h hk

theorem natDecimal_length_eq {k : ℕ} (h1 : 10 ^ k ≤ n) (h2 : n < 10 ^ (k + 1)) : (natDecimal n).length = k + 1 := by
  have hle := (natDecimal_length_iff (Nat.succ_pos k)).mpr h2
  rcases Nat.eq_zero_or_pos k with rfl | hk
  · have := length_pos_of_ne_nil (natDecimal_ne_nil n)
    omega
  · have := mt (natDecimal_length_iff hk).mp (Nat.not_lt.mpr h1)
    omega

theorem natDecimal_length_div (h : 10 ^ 12 ≤ n) : (natDecimal n).length = 12 + (natDecimal (n / 10 ^ 12)).length := by
  obtain ⟨k, hk⟩ : ∃ k, (natDecimal (n / 10 ^ 12)).length = k + 1 :=
    Nat.exists_eq_succ_of_ne_zero (by simpa using natDecimal_ne_nil _)
  have hlo : 10 ^ k ≤ n / 10 ^ 12 := by
    rcases Nat.eq_zero_or_pos k with rfl | hpos
    · rw [pow_zero]
      exact Nat.div_pos h (by positivity)
    · exact Nat.not_lt.mp (mt (natDecimal_length_iff hpos).mpr (by omega))
  have hhi := (natDecimal_length_iff (Nat.succ_pos k)).mp hk.le
  rw [hk, natDecimal_length_eq (k := k + 12) ?_ ?_]
  · omega
  · calc 10 ^ (k + 12) = 10 ^ k * 10 ^ 12 := pow_add 10 k 12
      _ ≤ n / 10 ^ 12 * 10 ^ 12 := Nat.mul_le_mul_right _ hlo
      _ ≤ n := Nat.div_mul_le_self n _
  · calc n < (n / 10 ^ 12 + 1) * 10 ^ 12 := by omega
      _ ≤ 10 ^ (k + 1) * 10 ^ 12 := Nat.mul_le_mul_right _ hhi
      _ = 10 ^ (k + 12 + 1) := by rw [← pow_add]

theorem digits10Loop_eq (fuel v : ℕ) (h : v < fuel) : digits10Loop fuel v = (natDecimal v).length := by
  induction fuel generalizing v with
  | zero => omega
  | succ fuel ih =>
    unfold digits10Loop
    split_ifs with h1 h2 h3 h4 h5 h6 h7 h8 h9 h10 h11 h12
    · rw [natDecimal_digit h1]; rfl
    · rw [natDecimal_length_eq (k := 1)] <;> omega
    · rw [natDecimal_length_eq (k := 2)] <;> omega
    · rw [natDecimal_length_eq (k := 3)] <;> omega
    · rw [natDecimal_length_eq (k := 5)] <;> omega
    · rw [natDecimal_length_eq (k := 4)] <;> omega
    · rw [natDecimal_length_eq (k := 7)] <;> omega
    · rw [natDecimal_length_eq (k := 6)] <;> omega
    · rw [natDecimal_length_eq (k := 9)] <;> omega
    · rw [natDecimal_length_eq (k := 8)] <;> omega
    · rw [natDecimal_length_eq (k := 11)] <;> omega
    · rw [natDecimal_length_eq (k := 10)] <;> omega
    · rw [natDecimal_length_div (by omega), ih _ (by omega)]
      norm_num

theorem digits10_eq (v : ℕ) : digits10 v = (natDecimal v).length := digits10Loop_eq _ v (by omega)

theorem digitPairs_units : ∀ m < 100, digitPairs.getD (m * 2 + 1) 0 = digitByte (m % 10) := by decide

theorem digitPairs_tens : ∀ m < 100, digitPairs.getD (m * 2) 0 = digitByte (m / 10) := by decide

theorem set_last_free (n : ℕ) (x : UInt8) (tail : Bytes) :
    (replicate (n + 1) 0 ++ tail).set n x = replicate n 0 ++ x :: tail := by
  simp [replicate_succ']

/-- The loop leaves the numeral at the end of the free part of the buffer. -/
theorem ll2stringLoop_eq (fuel value next : ℕ) (tail : Bytes) (hf : value < fuel)
    (hn : (natDecimal value).length ≤ next + 1) : ll2stringLoop fuel value next (replicate (next + 1) 0 ++ tail) =
      replicate (next + 1 - (natDecimal value).length) 0 ++ natDecimal value ++ tail := by
  induction fuel generalizing value next tail with
  | zero => omega
  | succ fuel ih =>
    unfold ll2stringLoop
    split_ifs with h100 h10
    · have hstep : natDecimal value =
          natDecimal (value / 100) ++ [digitByte (value % 100 / 10), digitByte (value % 100 % 10)] := by
        rw [natDecimal_step (by omega), natDecimal_step (by omega), Nat.div_div_eq_div_mul]
        rw [show value / 10 % 10 = value % 100 / 10 by omega, show value % 100 % 10 = value % 10 by omega]
        simp
      have hlen : (natDecimal value).length = (natDecimal (value / 100)).length + 2 := by
        rw [hstep]; simp
      have hpos := length_pos_of_ne_nil (natDecimal_ne_nil (value / 100))
      obtain ⟨m, rfl⟩ : ∃ m, next = m + 2 := ⟨next - 2, by omega⟩
      simp only [digitPairs_units _ (Nat.mod_lt _ (by norm_num)), digitPairs_tens _ (Nat.mod_lt value
        (show 100 > 0 by norm_num)), Nat.add_sub_cancel, show m + 2 - 1 = m + 1 by omega]
      rw [set_last_free, set_last_free, ih _ _ _ (by omega) (by omega), hlen, hstep]
      simp only [append_assoc, cons_append, nil_append]
      congr 2
      omega
    · rw [set_last_free, natDecimal_digit h10]
      simp
    · have hstep : natDecimal value = [digitByte (value / 10), digitByte (value % 10)] := by
        rw [natDecimal_step (by omega), natDecimal_digit (by omega)]
        rfl
      rw [hstep] at hn ⊢
      obtain ⟨m, rfl⟩ : ∃ m, next = m + 1 := ⟨next - 1, by simp at hn; omega⟩
      simp only [digitPairs_units value (by omega), digitPairs_tens value (by omega), Nat.add_sub_cancel]
      rw [set_last_free, set_last_free]
      simp

theorem ll2string_eq {dstlen : ℕ} (h : (decimal i).length < dstlen) : ll2string dstlen i = decimal i := by
  obtain ⟨m, hm⟩ : ∃ m, (natDecimal i.natAbs).length = m + 1 :=
    Nat.exists_eq_succ_of_ne_zero (by simpa using natDecimal_ne_nil _)
  unfold ll2string
  simp only [digits10_eq]
  unfold decimal at h ⊢
  split_ifs at h ⊢ with hneg hlen hlen
  · simp only [length_cons] at h
    omega
  · have := ll2stringLoop_eq (i.natAbs + 1) i.natAbs (m + 1) [] (by omega) (by omega)
    simp only [append_nil] at this
    rw [hm, show m + 1 + 1 - 1 = m + 1 by omega, this, hm]
    simp
  · omega
  · have := ll2stringLoop_eq (i.natAbs + 1) i.natAbs m [] (by omega) (by omega)
    simp only [append_nil] at this
    rw [hm, show m + 1 + 0 = m + 1 from rfl, Nat.add_sub_cancel, this, hm]
    simp

theorem decimal_length_le (h1 : -2 ^ 63 ≤ i) (h2 : i < 2 ^ 63) : (decimal i).length ≤ 20 := by
  have := natDecimal_length_le (n := i.natAbs) (k := 19) (by omega) (by norm_num)
  unfold decimal
  split_ifs
  · rw [length_cons]
    omega
  · omega

theorem string2llLoop_eq (v : ℕ) (s : Bytes) (hd : ∀ c ∈ s, isdigit c = true)
    (hv : readDigits v s ≤ ULLONG_MAX) : string2llLoop v s = some (readDigits v s, []) := by
  induction s generalizing v with
  | nil => rfl
  | cons c cs ih =>
    have hc : isdigit c = true := hd c (by simp)
    have hread : readDigits v (c :: cs) = readDigits (v * 10 + (c.toNat - 48)) cs := by
      simp [readDigits, hc]
    rw [hread] at hv ⊢
    have hle := le_readDigits (v * 10 + (c.toNat - 48)) cs
    unfold string2llLoop
    rw [if_pos hc, if_neg (by omega), if_neg (by omega), ih _ (fun c' h' => hd c' (by simp [h'])) hv]

theorem natDecimal_head (hn : 0 < n) : ∃ d cs, natDecimal n = digitByte d :: cs ∧ 1 ≤ d ∧ d < 10 := by
  induction n using Nat.strongRecOn with
  | _ n ih =>
    rcases Nat.lt_or_ge n 10 with h | h
    · exact ⟨n, [], natDecimal_digit h, hn, h⟩
    · obtain ⟨d, cs, he, h1, h2⟩ := ih (n / 10) (by omega) (by omega)
      exact ⟨d, cs ++ [digitByte (n % 10)], by rw [natDecimal_step h, he, cons_append], h1, h2⟩

theorem digitByte_range {d : ℕ} (h1 : 1 ≤ d) (h2 : d < 10) : 49 ≤ digitByte d ∧ digitByte d ≤ 57 := by
  interval_cases d <;> decide

theorem string2llDigits_natDecimal (hn : 0 < n) (negative : Bool) (hb : n ≤ if negative then 2 ^ 63 else 2 ^ 63 - 1) :
    string2llDigits negative (natDecimal n) = some (if negative then -(n : ℤ) else n) := by
  obtain ⟨d, cs, he, h1, h2⟩ := natDecimal_head hn
  have hdig : ∀ c ∈ cs, isdigit c = true := fun c hc => natDecimal_digits n c (by simp [he, hc])
  have hread : readDigits d cs = n := by
    have hstops : Stops [] := by simp [Stops]
    have h := readDigits_natDecimal n hstops
    rw [append_nil, he] at h
    simpa [readDigits, isdigit_digitByte h2, toNat_digitByte h2] using h
  have hmax : n ≤ ULLONG_MAX := by
    unfold ULLONG_MAX
    cases negative <;> simp at hb <;> omega
  rw [he]
  simp only [string2llDigits]
  rw [if_pos (digitByte_range h1 h2), toNat_digitByte h2, string2llLoop_eq d cs hdig (hread ▸ hmax), hread]
  cases negative
  · simp only [Bool.false_eq_true, if_false] at hb ⊢
    rw [if_neg (by omega)]
  · simp only [if_true] at hb ⊢
    rw [if_neg (by omega)]

theorem string2ll_decimal (h1 : LLONG_MIN ≤ i) (h2 : i ≤ LLONG_MAX) : string2ll (decimal i) = some i := by
  unfold LLONG_MIN at h1
  unfold LLONG_MAX at h2
  unfold decimal
  split_ifs with hneg
  · have := string2llDigits_natDecimal (n := i.natAbs) (by omega) true (by simp; omega)
    rw [show string2ll (45 :: natDecimal i.natAbs) = string2llDigits true (natDecimal i.natAbs) from rfl, this]
    simp only [if_true, some.injEq]
    omega
  · rcases Nat.eq_zero_or_pos i.natAbs with h0 | hpos
    · rw [h0, Int.natAbs_eq_zero.mp h0]
      rfl
    · obtain ⟨d, cs, he, hd1, hd2⟩ := natDecimal_head hpos
      have hd := string2llDigits_natDecimal hpos false (by simp; omega)
      have hstr : string2ll (natDecimal i.natAbs) = string2llDigits false (natDecimal i.natAbs) := by
        rw [he]
        interval_cases d <;> rfl
      rw [hstr, hd]
      simp only [Bool.false_eq_true, if_false, some.injEq]
      omega

/-! ### What `string2ll` accepts -/

theorem digitByte_of_isdigit (h : isdigit c = true) : digitByte (c.toNat - 48) = c := by
  revert c
  decide +kernel

theorem toNat_lt_of_isdigit (h : isdigit c = true) : c.toNat - 48 < 10 := by
  revert c
  decide +kernel

/-- The loop returns only when it has read digits, and then without overflow. -/
theorem string2llLoop_some {v w : ℕ} {s : Bytes} (h : string2llLoop v s = some (w, [])) :
    (∀ c ∈ s, isdigit c = true) ∧ w = readDigits v s := by
  induction s generalizing v with
  | nil =>
    simp only [string2llLoop, some.injEq, Prod.mk.injEq] at h
    exact ⟨by simp, h.1.symm⟩
  | cons c cs ih =>
    unfold string2llLoop at h
    split_ifs at h with hc
    · obtain ⟨hdigits, hw⟩ := ih h
      refine ⟨forall_mem_cons.mpr ⟨hc, hdigits⟩, ?_⟩
      rw [readDigits, if_pos hc, hw]
    · simp at h

/-- Digits appended to a numeral without leading zero make the numeral of what is read. -/
theorem natDecimal_readDigits (hn : 0 < n) {s : Bytes} (h : ∀ c ∈ s, isdigit c = true) :
    natDecimal (readDigits n s) = natDecimal n ++ s := by
  induction s generalizing n with
  | nil => simp [readDigits]
  | cons c cs ih =>
    have hc : isdigit c = true := h c (by simp)
    have hlt := toNat_lt_of_isdigit hc
    have hstep : natDecimal (n * 10 + (c.toNat - 48)) = natDecimal n ++ [c] := by
      rw [natDecimal_step (by omega), show (n * 10 + (c.toNat - 48)) / 10 = n by omega,
        show (n * 10 + (c.toNat - 48)) % 10 = c.toNat - 48 by omega, digitByte_of_isdigit hc]
    rw [readDigits, if_pos hc, ih (by omega) (fun c' h' => h c' (by simp [h'])), hstep]
    simp

theorem isdigit_of_range (h : 49 ≤ c ∧ c ≤ 57) : isdigit c = true ∧ 0 < c.toNat - 48 := by
  revert c
  decide +kernel

theorem string2llDigits_some {negative : Bool} {t : Bytes} {v : ℤ} (h : string2llDigits negative t = some v) :
    ∃ n : ℕ, 0 < n ∧ t = natDecimal n ∧ v = (if negative then -(n : ℤ) else n) ∧
      n ≤ if negative then 2 ^ 63 else 2 ^ 63 - 1 := by
  cases t with
  | nil => cases h
  | cons c cs =>
    simp only [string2llDigits] at h
    by_cases hc : 49 ≤ c ∧ c ≤ 57
    swap
    · simp [hc] at h
    rw [if_pos hc] at h
    obtain ⟨hdigit, hpos⟩ := isdigit_of_range hc
    rcases hloop : string2llLoop (c.toNat - 48) cs with _ | ⟨w, _ | ⟨c', cs'⟩⟩
    · simp [hloop] at h
    · obtain ⟨hdigits, hw⟩ := string2llLoop_some hloop
      have htext : natDecimal w = c :: cs := by
        rw [hw, natDecimal_readDigits hpos hdigits, natDecimal_digit (toNat_lt_of_isdigit hdigit),
          digitByte_of_isdigit hdigit]
        rfl
      have hle : 0 < w := by
        have := le_readDigits (c.toNat - 48) cs
        omega
      refine ⟨w, hle, htext.symm, ?_⟩
      simp only [hloop] at h
      cases negative
      · simp only [Bool.false_eq_true, if_false] at h ⊢
        split_ifs at h with hw'
        exact ⟨(some.inj h).symm, by omega⟩
      · simp only [if_true] at h ⊢
        split_ifs at h with hw'
        exact ⟨(some.inj h).symm, by omega⟩
    · simp [hloop] at h

theorem decimal_neg (hn : 0 < n) : decimal (-(n : ℤ)) = 45 :: natDecimal n := by
  rw [decimal, if_pos (by omega), Int.natAbs_neg, Int.natAbs_natCast]

theorem decimal_natCast (n : ℕ) : decimal (n : ℤ) = natDecimal n := by
  rw [decimal, if_neg (by omega), Int.natAbs_natCast]

/-- `string2ll` reads a string exactly when it is the numeral of a 64-bit integer. -/
theorem string2ll_eq_some_iff (s : Bytes) (v : ℤ) :
    string2ll s = some v ↔ LLONG_MIN ≤ v ∧ v ≤ LLONG_MAX ∧ s = decimal v := by
  refine ⟨?_, ?_⟩
  · intro h
    unfold LLONG_MIN LLONG_MAX
    unfold string2ll at h
    split at h
    · cases h
    · obtain rfl := some.inj h
      exact ⟨by norm_num, by norm_num, rfl⟩
    · obtain ⟨n, hn, rfl, rfl, hle⟩ := string2llDigits_some h
      simp only [if_true] at hle ⊢
      exact ⟨by omega, by omega, (decimal_neg hn).symm⟩
    · obtain ⟨n, hn, rfl, rfl, hle⟩ := string2llDigits_some h
      simp only [Bool.false_eq_true, if_false] at hle ⊢
      exact ⟨by omega, by omega, (decimal_natCast n).symm⟩
  · intro h
    obtain ⟨h1, h2, rfl⟩ := h
    exact string2ll_decimal h1 h2

theorem sdigits10_eq (v : ℤ) : sdigits10 v = (decimal v).length := by
  unfold sdigits10 decimal
  split_ifs
  · rw [digits10_eq, length_cons]
  · exact digits10_eq _

end RedisIR
