import RedisIR.Proofs.Aof

/-! A log whose end is cut off inside a command. Wherever the cut falls, the parsers meet
the end of the file there and never take the rest for a command in another format. -/

namespace RedisIR

open CLib List

variable {p b a : Bytes} {n : ℕ}

/-- `p` is `b` without some of its last bytes. -/
def Torn (p b : Bytes) : Prop := p <+: b ∧ p ≠ b

theorem Torn.length_lt (h : Torn p b) : p.length < b.length := by
  have hle := h.1.length_le
  rcases Nat.lt_or_eq_of_le hle with hlt | heq
  · exact hlt
  · exact absurd (h.1.eq_of_length heq) h.2

theorem prefix_append_cases (h : p <+: a ++ b) : Torn p a ∨ ∃ q, p = a ++ q ∧ q <+: b := by
  rcases prefix_or_prefix_of_prefix h (prefix_append a b) with hpa | ⟨q, rfl⟩
  · by_cases heq : p = a
    · exact .inr ⟨[], by simpa using heq, nil_prefix⟩
    · exact .inl ⟨hpa, heq⟩
  · exact .inr ⟨q, rfl, (prefix_append_right_inj a).mp h⟩

theorem torn_append_cases (h : Torn p (a ++ b)) : Torn p a ∨ ∃ q, p = a ++ q ∧ Torn q b := by
  rcases prefix_append_cases h.1 with hp | ⟨q, rfl, hq⟩
  · exact .inl hp
  · exact .inr ⟨q, rfl, hq, fun hqb => h.2 (by rw [hqb])⟩

theorem readArg_nil : readArg [] = .error (.readerr true) := rfl

theorem torn_numberLine {c : UInt8} (hc : c ≠ LF) (h : n < 2 ^ 63) (hp : Torn p (c :: natDecimal n ++ [CR, LF]))
    (hne : p ≠ []) : p.head? = some c ∧ fgets bufSize p = some (p, []) := by
  have hbody : p <+: c :: natDecimal n ++ [CR] := by
    have hsplit : c :: natDecimal n ++ [CR, LF] = (c :: natDecimal n ++ [CR]) ++ [LF] := by simp
    obtain ⟨hpre, hneq⟩ := hp
    rw [hsplit] at hpre hneq
    exact (prefix_concat_iff.mp hpre).resolve_left hneq
  obtain ⟨d, p, rfl⟩ := exists_cons_of_ne_nil hne
  have hd : d = c := (cons_prefix_cons.mp hbody).1
  have hlf : LF ∉ d :: p := fun hmem => lf_not_mem_number hc n (hbody.subset hmem)
  have hlen := hbody.length_le
  have hshort := natDecimal_short h
  refine ⟨by rw [hd]; rfl, fgets_open hne hlf ?_⟩
  simp only [length_append, length_cons, length_nil, bufSize] at hlen ⊢
  omega

/-- A torn argument: its bytes are not all there, or the CR LF after them is not. -/
theorem readArg_torn (ha : a.length < 2 ^ 63) (hp : Torn p (catBulk a)) : readArg p = .error (.readerr true) ∨
      ∃ buf arg inp, readArg p = .ok (buf, arg, inp) ∧ fread 2 inp = none := by
  rw [catBulk_eq ha, append_assoc] at hp
  by_cases hnil : p = []
  · rw [hnil]
    exact .inl rfl
  rcases torn_append_cases hp with hline | ⟨q, rfl, hq⟩
  · obtain ⟨hhead, hfgets⟩ := torn_numberLine (by decide) ha hline hnil
    simp only [readArg, hfgets, hhead, ne_eq, not_true_eq_false, if_false]
    -- an unfinished number can be read as a length of zero, and only then is the argument read
    cases hlen : fread (strtol p.tail % 2 ^ 64).toNat [] with
    | none => exact .inl rfl
    | some r =>
      refine .inr ⟨p, r.1, r.2, rfl, fread_short ?_⟩
      unfold fread at hlen
      split at hlen
      · obtain rfl := Option.some.inj hlen
        simp
      · cases hlen
  · have hnum : (strtol (natDecimal a.length ++ [CR, LF]) % 2 ^ 64).toNat = a.length := by
      rw [strtol_natDecimal ha stops_crlf]
      omega
    unfold readArg
    rw [lenLine, fgets_numberLine 36 (by decide) ha]
    simp only [cons_append, List.head?_cons, ne_eq, not_true_eq_false, if_false, tail_cons, hnum]
    by_cases hlt : q.length < a.length
    · rw [fread_short hlt]
      exact .inl rfl
    · have hq' := hq.length_lt
      simp only [length_append, length_cons, length_nil] at hq'
      rw [fread, if_pos (by omega)]
      exact .inr ⟨_, _, _, rfl, fread_short (by rw [length_drop]; omega)⟩

theorem readBulk_torn (ha : a.length < 2 ^ 63) (hp : Torn p (catBulk a)) : readBulk p = .error (.readerr true) := by
  rcases readArg_torn ha hp with herr | ⟨buf, arg, inp, hok, hcrlf⟩
  · simp [readBulk, herr]
  · simp [readBulk, hok, hcrlf]

/-- A torn header line still begins a command, of which no argument can be read. -/
theorem readHeader_torn (h0 : 0 < n) (hn : n < 2 ^ 31) (hp : Torn p (countLine n)) (hne : p ≠ []) :
    readHeader p = .error (.readerr true) ∨ ∃ buf argc, readHeader p = .ok (buf, argc + 1, []) := by
  obtain ⟨hhead, hfgets⟩ := torn_numberLine (by decide) (by omega) hp hne
  have hpre : p <+: 42 :: (natDecimal n ++ [CR, LF]) := hp.1
  obtain ⟨c, q, rfl⟩ := exists_cons_of_ne_nil hne
  obtain rfl : c = 42 := by simpa using hhead
  cases q with
  | nil => exact .inl (by decide)
  | cons d q =>
    -- the digits that are left begin with the first digit of `n`
    obtain ⟨m, cs, hm, h1, h2⟩ := natDecimal_head h0
    have hq : d :: q <+: natDecimal n ++ [CR, LF] := (cons_prefix_cons.mp hpre).2
    obtain rfl : d = digitByte m := by
      rw [hm, cons_append] at hq
      exact (cons_prefix_cons.mp hq).1
    have hdig : isdigit (digitByte m) = true := isdigit_digitByte h2
    have hd0 : digitByte m ≠ 0 := fun h => absurd (h ▸ hdig) (by decide)
    have hle : readDigits 0 (digitByte m :: q) ≤ n := by
      have := readDigits_prefix_le hq 0
      rwa [readDigits_natDecimal n stops_crlf] at this
    have hge : 1 ≤ readDigits 0 (digitByte m :: q) := by
      have hread : readDigits 0 (digitByte m :: q) = readDigits m q := by
        simp [readDigits, hdig, toNat_digitByte h2]
      have := le_readDigits m q
      omega
    have hatoi : atoi (digitByte m :: q) = readDigits 0 (digitByte m :: q) := by
      rw [atoi, strtol_digit hdig, min_eq_right (by omega), wrapInt_eq (by omega) (by omega)]
    refine .inr ⟨42 :: digitByte m :: q, readDigits 0 (digitByte m :: q) - 1, ?_⟩
    have hsecond : (42 :: digitByte m :: q).getD 1 0 = digitByte m := rfl
    have hpos : ¬ (readDigits 0 (digitByte m :: q) : ℤ) < 1 := by omega
    simp [readHeader, hfgets, hhead, ne_eq, not_true_eq_false, hd0, tail_cons, hatoi, hpos, Int.toNat_natCast,
      Nat.sub_add_cancel hge]

theorem completeIn_initial (n : ℕ) (E : List Entry) : completeIn n E <+: E := by
  induction E generalizing n with
  | nil => exact prefix_refl _
  | cons e E ih =>
    unfold completeIn
    split_ifs
    · exact (prefix_cons_inj e).mpr (ih _)
    · exact nil_prefix

/-- The first bytes of a log are whole commands and perhaps a torn one. -/
theorem take_entryBytes (n : ℕ) (E : List Entry) : ∃ p, (entryBytes E).take n = entryBytes (completeIn n E) ++ p ∧
      (p = [] ∨ ∃ e E', E = completeIn n E ++ e :: E' ∧ Torn p e.bytes) := by
  induction E generalizing n with
  | nil => exact ⟨[], by simp [completeIn, entryBytes], .inl rfl⟩
  | cons e E ih =>
    unfold completeIn
    rw [entryBytes_cons]
    split_ifs with h
    · obtain ⟨p, htake, hp⟩ := ih (n - e.bytes.length)
      refine ⟨p, ?_, ?_⟩
      · rw [take_append, take_of_length_le h, htake, entryBytes_cons, append_assoc]
      · rcases hp with rfl | ⟨e', E', hE, htorn⟩
        · exact .inl rfl
        · exact .inr ⟨e', E', by rw [cons_append, ← hE], htorn⟩
    · refine ⟨e.bytes.take n, ?_, .inr ⟨e, E, rfl, take_prefix _ _, ?_⟩⟩
      · rw [take_append_of_le_length (by omega)]
        rfl
      · intro heq
        have := congrArg List.length heq
        rw [length_take] at this
        omega

theorem completeIn_append {A : List Entry} (h : (entryBytes A).length ≤ n) (B : List Entry) :
    completeIn n (A ++ B) = A ++ completeIn (n - (entryBytes A).length) B := by
  induction A generalizing n with
  | nil => simp [entryBytes]
  | cons e A ih =>
    rw [entryBytes_cons, length_append] at h
    rw [cons_append, completeIn, if_pos (by omega), ih (by omega), entryBytes_cons, length_append, Nat.sub_sub]
    rfl

theorem completeIn_of_le {A : List Entry} (h : (entryBytes A).length ≤ n) : completeIn n A = A := by
  have h := completeIn_append h []
  rwa [append_nil, completeIn, append_nil] at h

theorem completeIn_zero (E : List Entry) : completeIn 0 E = [] := by
  cases E with
  | nil => rfl
  | cons e E =>
    have := length_pos_of_ne_nil e.bytes_ne_nil
    rw [completeIn, if_neg (by omega)]

theorem completeIn_length_le (n : ℕ) (E : List Entry) : (entryBytes (completeIn n E)).length ≤ n := by
  obtain ⟨p, htake, -⟩ := take_entryBytes n E
  have h := congrArg List.length htake
  rw [length_take, length_append] at h
  omega

theorem completeIn_mono {n' : ℕ} (h : n ≤ n') (E : List Entry) : completeIn n E <+: completeIn n' E := by
  induction E generalizing n n' with
  | nil => exact prefix_refl _
  | cons e E ih =>
    unfold completeIn
    split_ifs with h1 h2
    · exact (prefix_cons_inj e).mpr (ih (by omega))
    · omega
    · exact nil_prefix
    · exact prefix_refl _

/-- Two rounds, of which each sees some first bytes of the log, see together what the one
that goes further sees. -/
theorem completeIn_max (n₁ n₂ b : ℕ) {E R : List Entry} (hE : E = completeIn (n₁ - b) E ++ R) :
    completeIn (max n₁ n₂ - b) E =
      completeIn (n₁ - b) E ++ completeIn (n₂ - (b + (entryBytes (completeIn (n₁ - b) E)).length)) R := by
  have hle := completeIn_length_le (n₁ - b) E
  have hnil : completeIn (n₁ - b - (entryBytes (completeIn (n₁ - b) E)).length) R = [] := by
    have h := completeIn_append hle R
    rw [← hE] at h
    exact append_right_eq_self.mp h.symm
  rcases le_total n₁ n₂ with h | h
  · have happ := completeIn_append (hle.trans (by omega : n₁ - b ≤ n₂ - b)) R
    rw [← hE, Nat.sub_sub] at happ
    rw [max_eq_right h, happ]
  · have hmono := completeIn_mono (by omega :
      n₂ - (b + (entryBytes (completeIn (n₁ - b) E)).length) ≤
        n₁ - b - (entryBytes (completeIn (n₁ - b) E)).length) R
    rw [hnil] at hmono
    rw [max_eq_left h, prefix_nil.mp hmono, append_nil]

end RedisIR
