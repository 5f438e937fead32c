import RedisIR.Spec.Lzf
import RedisIR.Spec.Rdb

/-! What `lzf_compress` writes, `lzf_decompress` turns back into the input, whatever the hash table
holds at the start; and the size that an input of two parts is packed to. -/

namespace RedisIR

open CLib Function List LzfState

variable {s : Bytes} {ref ip outLen : ℕ} {r r' : LzfState}

/-! ### The length of a match -/

theorem lzfMatchLoop_spec (s : Bytes) (ref ip maxlen fuel k len : ℕ) :
    len < lzfMatchLoop s ref ip maxlen fuel k len ∧
      lzfMatchLoop s ref ip maxlen fuel k len ≤ max (len + k + 1) maxlen ∧
      (∀ i, len < i → i < lzfMatchLoop s ref ip maxlen fuel k len → s.getD (ref + i) 0 = s.getD (ip + i) 0) ∧
      ((∀ i, s.getD (ref + i) 0 = s.getD (ip + i) 0) → maxlen ≤ len + 1 + fuel →
        maxlen ≤ lzfMatchLoop s ref ip maxlen fuel k len) := by
  induction fuel generalizing k len with
  | zero => exact ⟨Nat.lt_succ_self _, by rw [lzfMatchLoop]; omega, fun i h1 h2 => by rw [lzfMatchLoop] at h2; omega,
      fun _ h => h⟩
  | succ fuel ih =>
    rw [lzfMatchLoop]
    split_ifs with h
    · obtain ⟨h1, h2, h3, h4⟩ := ih (k - 1) (len + 1)
      refine ⟨by omega, by omega, fun i hi hlt => ?_, fun hall hfuel => h4 hall (by omega)⟩
      rcases Nat.lt_or_ge (len + 1) i with hbehind | hat
      · exact h3 i hbehind hlt
      · obtain rfl : i = len + 1 := by omega
        exact h.2
    · refine ⟨Nat.lt_succ_self _, by omega, fun i h1 h2 => by omega, fun hall _ => ?_⟩
      have hstop := mt (fun hnext => And.intro (Or.inr hnext) (hall (len + 1))) h
      omega

/-- A match covers three bytes or more, all of them equal, and ends inside the input. -/
theorem lzfMatchLen_spec (hip : ip + 2 < s.length) (hmatch : LzfMatch s ref ip) :
    3 ≤ lzfMatchLen s ref ip ∧ ip + lzfMatchLen s ref ip ≤ s.length ∧ lzfMatchLen s ref ip ≤ MAX_REF ∧
      ∀ i < lzfMatchLen s ref ip, s.getD (ref + i) 0 = s.getD (ip + i) 0 := by
  obtain ⟨-, -, -, heq2, heq0, heq1⟩ := hmatch
  have hmax : MAX_REF = 264 := rfl
  obtain ⟨h1, h2, h3, -⟩ := lzfMatchLoop_spec s ref ip (min (s.length - ip - 2) MAX_REF)
    (min (s.length - ip - 2) MAX_REF) (if min (s.length - ip - 2) MAX_REF > 16 then 16 else 0) 2
  simp only [lzfMatchLen]
  refine ⟨by omega, by split_ifs at h2 ⊢ <;> omega, by split_ifs at h2 ⊢ <;> omega, fun i hi => ?_⟩
  rcases Nat.lt_or_ge 2 i with hlt | hge
  · exact h3 i hlt hi
  · interval_cases i <;> assumption

/-! ### What the reader makes of a run and of a back reference -/

/-- One turn of the reader takes exactly `c` and goes from `a` to `b`. -/
def LzfReads (outLen : ℕ) (c a b : Bytes) : Prop :=
  c ≠ [] ∧ ∀ rest, lzfRead outLen (c ++ rest) a = some (rest, b)

/-- The reader takes `c` in some number of turns. -/
inductive LzfUnpacks (outLen : ℕ) : Bytes → Bytes → Bytes → Prop
  | nil (a : Bytes) : LzfUnpacks outLen [] a a
  | cons {c cs a b d : Bytes} : LzfReads outLen c a b → LzfUnpacks outLen cs b d → LzfUnpacks outLen (c ++ cs) a d

theorem LzfUnpacks.snoc {c c' a b d : Bytes} (h : LzfUnpacks outLen c a b) (hread : LzfReads outLen c' b d) :
    LzfUnpacks outLen (c ++ c') a d := by
  induction h with
  | nil a => simpa using LzfUnpacks.cons hread (.nil d)
  | cons hfirst _ ih => rw [append_assoc]; exact .cons hfirst (ih hread)

theorem LzfUnpacks.eq_of_nil {c a b : Bytes} (h : LzfUnpacks outLen c a b) (hc : c = []) : a = b := by
  cases h with
  | nil => rfl
  | cons hread _ => exact absurd (append_eq_nil_iff.mp hc).1 hread.1

theorem LzfUnpacks.unpack {c a b : Bytes} (h : LzfUnpacks outLen c a b) :
    c ≠ [] → ∀ fuel, c.length ≤ fuel → lzfUnpack outLen fuel c a = some b := by
  induction h with
  | nil a => intro hc; exact absurd rfl hc
  | @cons c cs a b d hread hcs ih =>
    intro _ fuel hfuel
    have hpos := length_pos_iff.mpr hread.1
    rw [length_append] at hfuel
    obtain ⟨fuel, rfl⟩ := Nat.exists_eq_add_of_lt (show 0 < fuel by omega)
    rw [Nat.zero_add, lzfUnpack, hread.2, Option.bind_some]
    dsimp only
    split_ifs with hnil
    · rw [hcs.eq_of_nil hnil]
    · exact ih hnil fuel (by omega)

theorem lzfReads_run {lit a : Bytes} (hlit : lit ≠ []) (hlen : lit.length ≤ MAX_LIT)
    (hout : a.length + lit.length ≤ outLen) :
    LzfReads outLen (UInt8.ofNat (lit.length - 1) :: lit) a (a ++ lit) := by
  refine ⟨by simp, fun rest => ?_⟩
  have hmax : MAX_LIT = 32 := rfl
  have hpos := length_pos_iff.mpr hlit
  have hctrl : (UInt8.ofNat (lit.length - 1)).toNat + 1 = lit.length := by
    rw [UInt8.toNat_ofNat_of_lt' (by rw [UInt8.size]; omega)]
    omega
  rw [cons_append, lzfRead, if_pos (by omega), hctrl, if_neg (by omega), if_neg (by rw [length_append]; omega),
    drop_left, take_left]

theorem take_add_one_getD (h : ip < s.length) : s.take ip ++ [s.getD ip 0] = s.take (ip + 1) := by
  rw [take_add_one, getD_eq_getElem _ _ h, getElem?_eq_getElem h, Option.toList_some]

/-- The induction is on the bytes still to be copied: each finds in the output, `dist` back, the
byte that the input has at this place. -/
theorem lzfCopy_take {dist n : ℕ} (hdist : 0 < dist) (hle : dist ≤ ip) (hn : ip + n ≤ s.length)
    (heq : ∀ i < n, s.getD (ip - dist + i) 0 = s.getD (ip + i) 0) :
    lzfCopy dist n (s.take ip) = s.take (ip + n) := by
  induction n generalizing ip with
  | zero => rfl
  | succ n ih =>
    have hlast : (s.take ip).getD ((s.take ip).length - dist) 0 = s.getD ip 0 := by
      rw [length_take, min_eq_left (by omega), ← Nat.add_zero ip, ← heq 0 (by omega), Nat.add_zero, Nat.add_zero,
        getD_eq_getElem _ _ (by rw [length_take]; omega), getElem_take, getD_eq_getElem _ _ (by omega)]
    rw [lzfCopy, hlast, take_add_one_getD (by omega), ih (by omega) (by omega), Nat.add_right_comm, Nat.add_assoc]
    intro i hi
    have := heq (i + 1) (by omega)
    rwa [show ip + 1 - dist + i = ip - dist + (i + 1) by omega, show ip + 1 + i = ip + (i + 1) by omega]

theorem ctrl_bits : ∀ hi < 32, ∀ len < 8, (UInt8.ofNat (hi + (len <<< 5))).toNat = hi + 32 * len ∧
    (hi + 32 * len) >>> 5 = len ∧ (hi + 32 * len) &&& 0x1f = hi := by decide

theorem lzfReads_backRef {len : ℕ} (hmatch : LzfMatch s ref ip) (hlen : 3 ≤ len) (hmax : len ≤ MAX_REF)
    (hn : ip + len ≤ s.length) (heq : ∀ i < len, s.getD (ref + i) 0 = s.getD (ip + i) 0) :
    LzfReads s.length (lzfBackRef (ip - ref - 1) (len - 2)) (s.take ip) (s.take (ip + len)) := by
  obtain ⟨hlt, hoff, -⟩ := hmatch
  have hmaxOff : MAX_OFF = 8192 := rfl
  have hmaxRef : MAX_REF = 264 := rfl
  have hhi : (ip - ref - 1) >>> 8 < 32 := by rw [Nat.shiftRight_eq_div_pow]; omega
  have hdist : ((ip - ref - 1) >>> 8) <<< 8 + 1 + (UInt8.ofNat (ip - ref - 1)).toNat = ip - ref := by
    rw [Nat.shiftRight_eq_div_pow, Nat.shiftLeft_eq, UInt8.toNat_ofNat']
    omega
  have hcopy : lzfCopy (ip - ref) (len - 2 + 2) (s.take ip) = s.take (ip + len) := by
    rw [show len - 2 + 2 = len by omega]
    exact lzfCopy_take (by omega) (by omega) hn (by rwa [show ip - (ip - ref) = ref by omega])
  have htake : (s.take ip).length = ip := by rw [length_take]; omega
  refine ⟨by unfold lzfBackRef; split_ifs <;> simp, fun rest => ?_⟩
  unfold lzfBackRef
  split_ifs with hshort
  · obtain ⟨hctrl, h5, h31⟩ := ctrl_bits _ hhi (len - 2) (by omega)
    rw [cons_append, lzfRead, hctrl, if_neg (by omega)]
    simp only [lzfReadRef, cons_append, nil_append, h5, h31, if_neg (show ¬ len - 2 = 7 by omega),
      Option.bind_some, headD_cons, tail_cons, hdist, htake, hcopy]
    rw [if_neg (by omega), if_neg (by omega)]
  · obtain ⟨hctrl, h5, h31⟩ := ctrl_bits _ hhi 7 (by omega)
    have hbyte : 7 + (UInt8.ofNat (len - 2 - 7)).toNat = len - 2 := by
      rw [UInt8.toNat_ofNat_of_lt' (by rw [UInt8.size]; omega)]
      omega
    rw [cons_append, lzfRead, hctrl, if_neg (by omega)]
    simp only [lzfReadRef, cons_append, nil_append, h5, h31, if_true, reduceCtorEq, if_false, hbyte,
      Option.bind_some, headD_cons, tail_cons, hdist, htake, hcopy]
    rw [if_neg (by omega), if_neg (by omega)]

/-! ### The round trip -/

/-- What is written, followed by the run, unpacks to the input up to `ip`. -/
structure LzfState.Packs (s : Bytes) (r : LzfState) : Prop where
  ip_le : r.ip ≤ s.length
  lit_lt : r.lit.length < MAX_LIT
  unpacks : ∃ a, LzfUnpacks s.length r.out [] a ∧ a ++ r.lit = s.take r.ip

theorem unpacks_stop {a : Bytes} (hip : r.ip ≤ s.length) (hlit : r.lit.length ≤ MAX_LIT)
    (hout : LzfUnpacks s.length r.out [] a) (ha : a ++ r.lit = s.take r.ip) :
    LzfUnpacks s.length r.stop [] (s.take r.ip) := by
  rw [stop, ← ha]
  split_ifs with hnil
  · rwa [hnil, append_nil, append_nil]
  · have hlen := congrArg List.length ha
    rw [length_append, length_take] at hlen
    exact hout.snoc (lzfReads_run hnil hlit (by omega))

theorem LzfState.literal_ip (s : Bytes) (r : LzfState) : (r.literal s).ip = r.ip + 1 := by
  simp only [literal]
  split_ifs <;> rfl

theorem LzfState.Packs.literal (h : r.Packs s) (hip : r.ip < s.length) : (r.literal s).Packs s := by
  obtain ⟨hle, hlit, a, hout, ha⟩ := h
  have ha' : a ++ (r.lit ++ [s.getD r.ip 0]) = s.take (r.ip + 1) := by
    rw [← append_assoc, ha, take_add_one_getD hip]
  simp only [LzfState.literal]
  split_ifs with hmax
  · exact ⟨hip, Nat.two_pow_pos 5, _, unpacks_stop hip hmax.le hout ha', append_nil _⟩
  · rw [length_append, length_singleton] at hmax
    refine ⟨hip, ?_, a, hout, ha'⟩
    simp only [length_append, length_singleton]
    omega

theorem LzfState.Packs.step (h : r.Packs s) (hip : r.ip + 2 < s.length) (hstep : lzfStep s outLen r = some r') :
    r'.Packs s ∧ r.ip < r'.ip := by
  simp only [lzfStep] at hstep
  by_cases hmatch : LzfMatch s (r.htab (lzfIdx s r.ip)) r.ip
  · rw [if_pos hmatch, Option.ite_none_left_eq_some] at hstep
    obtain ⟨h3, hn, hmax, heq⟩ := lzfMatchLen_spec hip hmatch
    obtain ⟨a, hout, ha⟩ := h.unpacks
    have hread := lzfReads_backRef hmatch h3 hmax hn heq
    obtain rfl := Option.some.inj hstep.2
    refine ⟨⟨hn, Nat.two_pow_pos 5, _, (unpacks_stop h.ip_le h.lit_lt.le hout ha).snoc hread, append_nil _⟩, ?_⟩
    exact Nat.lt_add_of_pos_right (by omega)
  · rw [if_neg hmatch, Option.ite_none_left_eq_some] at hstep
    obtain rfl := Option.some.inj hstep.2
    have hnext := Packs.literal (r := { r with htab := update r.htab (lzfIdx s r.ip) r.ip })
      ⟨h.ip_le, h.lit_lt, h.unpacks⟩ (by simp only; omega)
    exact ⟨hnext, by rw [literal_ip]; exact Nat.lt_succ_self _⟩

theorem LzfState.Packs.loop {fuel : ℕ} (h : r.Packs s) (hfuel : s.length ≤ r.ip + fuel)
    (hloop : lzfLoop s outLen fuel r = some r') : r'.Packs s ∧ s.length ≤ r'.ip + 2 := by
  induction fuel generalizing r with
  | zero =>
    obtain rfl := Option.some.inj hloop
    exact ⟨h, by omega⟩
  | succ fuel ih =>
    rw [lzfLoop] at hloop
    split_ifs at hloop with hip
    · obtain ⟨next, hstep, hrest⟩ := Option.bind_eq_some_iff.mp hloop
      obtain ⟨hpacks, hlt⟩ := h.step hip hstep
      exact ih hpacks (by omega) hrest
    · obtain rfl := Option.some.inj hloop
      exact ⟨h, by omega⟩

theorem LzfState.Packs.iterate {n : ℕ} (h : r.Packs s) (hn : r.ip + n ≤ s.length) :
    ((LzfState.literal s)^[n] r).Packs s ∧ ((LzfState.literal s)^[n] r).ip = r.ip + n := by
  induction n generalizing r with
  | zero => exact ⟨h, rfl⟩
  | succ n ih =>
    have hip := literal_ip s r
    obtain ⟨h1, h2⟩ := ih (h.literal (by omega)) (by omega)
    exact ⟨h1, by rw [iterate_succ_apply, h2]; omega⟩

theorem packs_start (s : Bytes) (htab : ℕ → ℕ) : (LzfState.mk 0 htab [] []).Packs s :=
  ⟨Nat.zero_le _, Nat.two_pow_pos 5, [], .nil [], rfl⟩

/-- A result of `lzf_compress`: the loop has left two bytes at most, and these have room. -/
theorem lzfCompress_cases (htab : ℕ → ℕ) (s : Bytes) (outLen : ℕ) :
    lzfCompress htab s outLen = [] ∨ ∃ r : LzfState, r.Packs s ∧ s.length ≤ r.ip + 2 ∧ r.op + 3 ≤ outLen ∧
      lzfCompress htab s outLen = ((literal s)^[s.length - r.ip] r).stop := by
  unfold lzfCompress
  split_ifs with hnone
  · exact .inl rfl
  · rcases hloop : lzfLoop s outLen s.length ⟨0, htab, [], []⟩ with _ | r
    · exact .inl rfl
    · obtain ⟨hpacks, hend⟩ := (packs_start s htab).loop (by simp) hloop
      dsimp only
      split_ifs with hfull
      · exact .inl rfl
      · exact .inr ⟨r, hpacks, hend, by omega, rfl⟩

theorem lzfDecompress_lzfCompress (htab : ℕ → ℕ) (s : Bytes) (outLen : ℕ)
    (h : lzfCompress htab s outLen ≠ []) : lzfDecompress (lzfCompress htab s outLen) s.length = some s := by
  rcases lzfCompress_cases htab s outLen with hnil | ⟨r, hpacks, -, -, heq⟩
  · exact absurd hnil h
  · have hle := hpacks.ip_le
    obtain ⟨hlast, hip⟩ := hpacks.iterate (n := s.length - r.ip) (by omega)
    obtain ⟨a, hout, ha⟩ := hlast.unpacks
    have hstop := unpacks_stop hlast.ip_le hlast.lit_lt.le hout ha
    rw [hip, Nat.add_sub_cancel' hle, take_length, ← heq] at hstop
    exact hstop.unpack h _ (le_refl _)

/-! ### The room -/

theorem LzfState.length_stop (r : LzfState) : r.stop.length = if r.lit = [] then r.out.length else r.op := by
  unfold stop op
  split_ifs <;> simp
  omega

/-- A literal costs a byte, and the first of a run a second one. -/
theorem LzfState.length_stop_literal (s : Bytes) (r : LzfState) :
    (r.literal s).stop.length = r.stop.length + (if r.lit = [] then 2 else 1) := by
  have hstop : ∀ r : LzfState, r.lit ≠ [] → r.stop.length = r.out.length + 1 + r.lit.length := by
    intro r h
    rw [length_stop, if_neg h, op]
  simp only [literal]
  split_ifs with hmax hnil hnil
  · simp [hnil, MAX_LIT] at hmax
  · rw [length_stop, if_pos rfl, hstop r hnil, hstop _ (by simp)]
    simp only [length_append, length_singleton]
    omega
  · rw [hstop _ (by simp), length_stop, if_pos hnil]
    simp [hnil]
  · rw [hstop _ (by simp), hstop r hnil]
    simp only [length_append, length_singleton]
    omega

theorem LzfState.literal_lit_ne (s : Bytes) (h : r.lit = []) : (r.literal s).lit ≠ [] := by
  simp [literal, h, MAX_LIT]

theorem length_stop_tail {n : ℕ} (hn : n ≤ 2) : ((LzfState.literal s)^[n] r).stop.length ≤ r.op + 3 := by
  have hone := length_stop_literal s r
  have htwo := length_stop_literal s (r.literal s)
  have hstop := length_stop r
  have hop : r.op = r.out.length + 1 + r.lit.length := rfl
  interval_cases n
  · simp only [iterate_zero, id_eq]
    split_ifs at hstop <;> omega
  · simp only [iterate_one]
    split_ifs at hstop hone <;> omega
  · simp only [iterate_succ, iterate_zero, Function.comp_apply, id_eq]
    by_cases hnil : r.lit = []
    · rw [if_pos hnil] at hstop hone
      rw [if_neg (literal_lit_ne s hnil)] at htwo
      omega
    · rw [if_neg hnil] at hstop hone
      split_ifs at htwo <;> omega

theorem length_lzfCompress_le (htab : ℕ → ℕ) (s : Bytes) (outLen : ℕ) :
    (lzfCompress htab s outLen).length ≤ outLen := by
  rcases lzfCompress_cases htab s outLen with hnil | ⟨r, -, hend, hroom, heq⟩
  · rw [hnil]
    exact Nat.zero_le _
  · rw [heq]
    exact (length_stop_tail (by omega)).trans hroom

/-- The server's compressor, for whatever the stack holds where the hash table comes to lie. -/
def liblzf (htab : ℕ → ℕ) : Lzf where
  compress := lzfCompress htab
  decompress := lzfDecompress
  compress_le := length_lzfCompress_le htab
  decompress_compress := lzfDecompress_lzfCompress htab

/-! ### Two gigabytes that stay two gigabytes -/

/-- Two counters that take turns, one even and one odd: two bytes in a row give the place modulo
32512. No byte is zero. -/
def counters (i : ℕ) : UInt8 := UInt8.ofNat (if i % 2 = 0 then 2 * (i / 2 % 127) + 2 else 2 * (i / 254 % 128) + 1)

/-- A part that does not pack, of `32 * k + 31` bytes, and one that packs well. -/
def twoParts (k m : ℕ) : Bytes := (range (32 * k + 31)).map counters ++ replicate (264 * m + 3) 0

variable {k m : ℕ}

theorem toNat_counters (i : ℕ) :
    (counters i).toNat = if i % 2 = 0 then 2 * (i / 2 % 127) + 2 else 2 * (i / 254 % 128) + 1 := by
  rw [counters, UInt8.toNat_ofNat_of_lt']
  rw [UInt8.size]
  split_ifs <;> omega

theorem length_twoParts : (twoParts k m).length = 32 * k + 264 * m + 34 := by
  simp only [twoParts, length_append, length_map, length_range, length_replicate]
  omega

theorem getD_counters {i : ℕ} (h : i < 32 * k + 31) : (twoParts k m).getD i 0 = counters i := by
  rw [twoParts, getD_append _ _ _ _ (by simpa using h), getD_eq_getElem _ _ (by simpa using h), getElem_map,
    getElem_range]

theorem getD_zeros {i : ℕ} (h : 32 * k + 31 ≤ i) : (twoParts k m).getD i 0 = 0 := by
  rw [twoParts, getD_append_right _ _ _ _ (by simpa using h), getD_eq_getElem?_getD, getElem?_replicate]
  split_ifs <;> rfl

/-- Nothing matches before two zeros are read: within the reach of a reference the counters do not
come back, and they are never zero. -/
theorem not_match_counters (h : ip ≤ 32 * k + 31) : ¬ LzfMatch (twoParts k m) ref ip := by
  rintro ⟨hlt, hoff, -, heq2, heq0, heq1⟩
  have hmax : MAX_OFF = 8192 := rfl
  have hzero : ∀ i, ref + i < 32 * k + 31 → 32 * k + 31 ≤ ip + i →
      (twoParts k m).getD (ref + i) 0 ≠ (twoParts k m).getD (ip + i) 0 := by
    intro i h1 h2 heq
    rw [getD_counters h1, getD_zeros h2] at heq
    have hnat := congrArg UInt8.toNat heq
    rw [toNat_counters] at hnat
    split_ifs at hnat <;> simp at hnat
  rcases Nat.lt_or_ge (ip + 1) (32 * k + 31) with hin | hout
  · rw [getD_counters (by omega), getD_counters (by omega)] at heq0 heq1
    have h0 := congrArg UInt8.toNat heq0
    have h1 := congrArg UInt8.toNat heq1
    rw [toNat_counters, toNat_counters] at h0 h1
    split_ifs at h0 h1 <;> omega
  · rcases Nat.lt_or_ge ip (32 * k + 31) with hlast | hfirst
    · exact hzero 1 (by omega) (by omega) heq1
    · exact hzero 0 (by omega) (by omega) heq0

theorem lzfStep_literal (hnot : ¬ LzfMatch s (r.htab (lzfIdx s r.ip)) r.ip) (hroom : r.op < outLen) :
    lzfStep s outLen r = some ({ r with htab := update r.htab (lzfIdx s r.ip) r.ip }.literal s) := by
  simp only [lzfStep]
  rw [if_neg hnot, if_neg (by omega)]

/-- The first part is copied, in runs of 32 bytes with a control byte each. -/
theorem loop_counters (htab : ℕ → ℕ) (outLen : ℕ) (hroom : 33 * (k + 1) ≤ outLen) {n : ℕ}
    (hn : n ≤ 32 * (k + 1)) (fuel : ℕ) :
    ∃ r : LzfState, lzfLoop (twoParts k m) outLen (n + fuel) ⟨0, htab, [], []⟩ =
        lzfLoop (twoParts k m) outLen fuel r ∧ r.ip = n ∧ r.out.length = 33 * (n / 32) ∧
      r.lit.length = n % 32 ∧ (0 < n → r.htab (lzfIdx (twoParts k m) (n - 1)) = n - 1) := by
  induction n generalizing fuel with
  | zero => exact ⟨_, by rw [Nat.zero_add], rfl, rfl, rfl, fun h => absurd h (lt_irrefl _)⟩
  | succ n ih =>
    obtain ⟨r, hloop, hip, hout, hlit, -⟩ := ih (by omega) (fuel + 1)
    have hstep : lzfStep (twoParts k m) outLen r = _ :=
      lzfStep_literal (not_match_counters (by omega)) (by rw [op]; omega)
    refine ⟨literal (twoParts k m)
      { r with htab := update r.htab (lzfIdx (twoParts k m) r.ip) r.ip }, ?_, ?_⟩
    · rw [Nat.add_right_comm, Nat.add_assoc, hloop, lzfLoop, if_pos (by rw [length_twoParts]; omega), hstep,
        Option.bind_some]
    · have hmax : MAX_LIT = 32 := rfl
      simp only [literal]
      split_ifs with hfull
      · simp only [length_append, length_singleton] at hfull
        refine ⟨by simp only; omega, ?_, by simp only [length_nil]; omega, fun _ => ?_⟩
        · rw [length_stop, if_neg (by simp), op]
          simp only [length_append, length_singleton]
          omega
        · simp [hip]
      · simp only [length_append, length_singleton] at hfull ⊢
        exact ⟨by omega, by omega, by omega, fun _ => by simp [hip]⟩

theorem lzfIdx_zeros (h : 32 * k + 31 ≤ ip) : lzfIdx (twoParts k m) ip = 0 := by
  unfold lzfIdx
  rw [getD_zeros h, getD_zeros (by omega), getD_zeros (by omega)]
  norm_num

/-- The second part is packed by 264 bytes at a time, three bytes for each. -/
theorem loop_zeros (outLen fuel : ℕ) {n : ℕ} (hlit : r.lit = []) (hip : 32 * k + 31 < r.ip)
    (hend : r.ip + 264 * n + 2 = (twoParts k m).length) (hroom : r.out.length + 3 * n + 4 ≤ outLen)
    (hhtab : 0 < n → r.htab 0 = r.ip - 1) (hfuel : n ≤ fuel) :
    ∃ r', lzfLoop (twoParts k m) outLen fuel r = some r' ∧ r'.lit = [] ∧
      r'.out.length = r.out.length + 3 * n ∧ r'.ip + 2 = (twoParts k m).length := by
  induction n generalizing r fuel with
  | zero =>
    refine ⟨r, ?_, hlit, rfl, by omega⟩
    cases fuel with
    | zero => rfl
    | succ fuel => rw [lzfLoop, if_neg (by omega)]
  | succ n ih =>
    obtain ⟨fuel, rfl⟩ := Nat.exists_eq_add_of_lt (show 0 < fuel by omega)
    have hzero : ∀ i, (twoParts k m).getD (r.ip - 1 + i) 0 = (twoParts k m).getD (r.ip + i) 0 := by
      intro i
      rw [getD_zeros (by omega), getD_zeros (by omega)]
    have hmax : MAX_REF = 264 := rfl
    have hmatch : LzfMatch (twoParts k m) (r.ip - 1) r.ip :=
      ⟨by omega, by simp only [MAX_OFF]; omega, by omega, hzero 2, hzero 0, hzero 1⟩
    have hlen : lzfMatchLen (twoParts k m) (r.ip - 1) r.ip = 264 := by
      refine le_antisymm (lzfMatchLen_spec (by omega) hmatch).2.2.1 ?_
      simp only [lzfMatchLen, hmax]
      rw [min_eq_right (by omega)]
      exact (lzfMatchLoop_spec _ _ _ 264 264 _ 2).2.2.2 hzero (by omega)
    obtain ⟨htab, hstep, hnext⟩ : ∃ htab, lzfStep (twoParts k m) outLen r =
        some ⟨r.ip + 264, htab, r.stop ++ lzfBackRef (r.ip - (r.ip - 1) - 1) 262, []⟩ ∧
          (0 < n → htab 0 = r.ip + 264 - 1) := by
      simp only [lzfStep, lzfIdx_zeros (m := m) hip.le, hhtab (by omega), hlen]
      rw [if_pos hmatch, if_neg (by rw [if_pos hlit, op, hlit, length_nil]; omega)]
      refine ⟨_, rfl, fun hn => ?_⟩
      rw [if_neg (by omega), lzfIdx_zeros (show 32 * k + 31 ≤ r.ip + 264 - 1 by omega), update_self]
    have hout : (r.stop ++ lzfBackRef (r.ip - (r.ip - 1) - 1) 262).length = r.out.length + 3 := by
      rw [length_append, length_stop, if_pos hlit]
      rfl
    obtain ⟨r', hloop, h1, h2, h3⟩ := @ih ⟨r.ip + 264, htab, _, []⟩ fuel
      rfl (by simp only; omega) (by simp only; omega) (by rw [hout]; omega) hnext (by omega)
    rw [Nat.zero_add, lzfLoop, if_pos (by omega), hstep, Option.bind_some]
    exact ⟨r', hloop, h1, by rw [h2, hout]; omega, h3⟩

theorem length_lzfCompress_counters (htab : ℕ → ℕ) (hroom : 33 * (k + 1) + 3 * m + 4 ≤ outLen) :
    (lzfCompress htab (twoParts k m) outLen).length = 33 * (k + 1) + 3 * m + 3 := by
  have hlen := length_twoParts (k := k) (m := m)
  obtain ⟨r, hfirst, hip, hout, hlit, hhtab⟩ :=
    loop_counters (m := m) htab outLen (by omega) (le_refl (32 * (k + 1))) (264 * m + 2)
  have hnil : r.lit = [] := length_eq_zero_iff.mp (by omega)
  rw [lzfIdx_zeros (k := k) (by omega)] at hhtab
  obtain ⟨r', hloop, hlit', hout', hend⟩ := loop_zeros (k := k) (m := m) (n := m) outLen (264 * m + 2) hnil
    (by omega) (by omega) (by omega) (fun _ => by rw [hip]; exact hhtab (by omega)) (by omega)
  have hop : r'.op = r'.out.length + 1 := by rw [op, hlit', length_nil]
  rw [lzfCompress, if_neg (by rw [← length_eq_zero_iff]; omega), hlen,
    show 32 * k + 264 * m + 34 = 32 * (k + 1) + (264 * m + 2) by omega, hfirst, hloop]
  simp only
  rw [if_neg (by omega), show 32 * (k + 1) + (264 * m + 2) - r'.ip = 2 by omega, iterate_succ_apply,
    iterate_one, length_stop_literal, if_neg (literal_lit_ne _ hlit'),
    length_stop_literal, if_pos hlit', length_stop, if_pos hlit']
  omega

end RedisIR
