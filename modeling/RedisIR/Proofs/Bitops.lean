import RedisIR.Spec.Bitops

/-! Fields of bits as integers: what is set is read back, the bits around it stay, and the
overflow policies against true integers. -/

namespace RedisIR

open CLib Bits List Option BitfieldOp

variable {p : Bytes}
variable {o n v : ℕ} {x code : ℤ} {l : Option ℤ}

/-! ### One bit -/

theorem getLsbD_putBit {w : ℕ} (hw : 8 ≤ w) (b : UInt8) {i j : ℕ} (hi : i < 8) (hj : j < 8) (v : Bool) :
    (putBit w b i v).toBitVec.getLsbD j = if j = i then v else b.toBitVec.getLsbD j := by
  have hw0 : 0 < w := by omega
  have hjw : j < w := by omega
  simp only [putBit, UInt8.toBitVec_ofBitVec, BitVec.getLsbD_setWidth, BitVec.getLsbD_or, BitVec.getLsbD_and,
    BitVec.getLsbD_not, BitVec.getLsbD_shiftLeft, BitVec.getLsbD_one, BitVec.getLsbD_ofBool]
  by_cases h : j = i
  · subst h
    simp [hj, hjw, hw0]
  · by_cases hlt : j < i
    · simp [hj, hjw, h, hlt]
    · simp [hj, hjw, h, hlt, show j - i ≠ 0 by omega]

theorem bitAt_putBit {w : ℕ} (hw : 8 ≤ w) {b : UInt8} (hb : p[o / 8]? = some b) (v : Bool) (k : ℕ) :
    bitAt (p.set (o / 8) (putBit w b (7 - o % 8) v)) k = if k = o then v else bitAt p k := by
  obtain ⟨hlt, -⟩ := List.getElem?_eq_some_iff.mp hb
  rw [bitAt_set hlt]
  by_cases hbyte : k / 8 = o / 8
  · have hiff : 7 - k % 8 = 7 - o % 8 ↔ k = o := by omega
    rw [if_pos hbyte, getLsbD_putBit hw b (by omega) (by omega)]
    simp only [hiff]
    by_cases hk : k = o
    · rw [if_pos hk, if_pos hk]
    · rw [if_neg hk, if_neg hk, bitAt, hbyte, getD_eq_getElem?_getD, hb, getD_some]
  · rw [if_neg hbyte, if_neg fun h => hbyte (by rw [h])]

theorem shl64_of_lt (x : BitVec 64) (h : n < 64) : shl64 x n = some (x <<< n) := if_pos h

theorem shl64_of_ge (x : BitVec 64) (h : 64 ≤ n) : shl64 x n = none := if_neg (by omega)

theorem and_mask_ne_zero (value : BitVec 64) (h : n < 64) :
    value &&& (1 : BitVec 64) <<< n ≠ 0 ↔ value.getLsbD n = true := by
  have hmask : (1 : BitVec 64) <<< n = .twoPow 64 n := (BitVec.twoPow_eq 64 n).symm
  have hpos : BitVec.twoPow 64 n ≠ 0#64 := by
    intro hzero
    have hbit := congrArg (fun x => BitVec.getLsbD x n) hzero
    simp [h] at hbit
  rw [hmask, BitVec.and_twoPow]
  by_cases hbit : value.getLsbD n = true
  · simpa [hbit] using hpos
  · simp [hbit]

/-! ### Fields -/

/-- The bits of the field become those of the value, and no other bit changes. -/
theorem setUnsignedBitfieldLoop_eq (value : BitVec 64) (hn : n ≤ 64) (h : o + n ≤ 8 * p.length) :
    ∃ q, setUnsignedBitfieldLoop value n o p = some q ∧ q.length = p.length ∧
      ∀ k, bitAt q k = if o ≤ k ∧ k < o + n then value.getLsbD (o + n - 1 - k) else bitAt p k := by
  induction n generalizing o p with
  | zero => exact ⟨p, rfl, rfl, fun k => by rw [if_neg (by omega)]⟩
  | succ n ih =>
    have hlt : o / 8 < p.length := by omega
    have hb : p[o / 8]? = some p[o / 8] := List.getElem?_eq_getElem hlt
    have hbit : decide (value &&& (1 : BitVec 64) <<< n ≠ 0) = value.getLsbD n := by
      rw [Bool.eq_iff_iff, decide_eq_true_iff, and_mask_ne_zero value (by omega)]
    obtain ⟨q, hq, hlen, hbits⟩ :=
      @ih (p.set (o / 8) (putBit 64 p[o / 8] (7 - o % 8) (value.getLsbD n))) (o + 1) (by omega)
        (by rw [length_set]; omega)
    refine ⟨q, ?_, by rw [hlen, length_set], ?_⟩
    · rw [setUnsignedBitfieldLoop, shl64_of_lt _ (by omega)]
      simp only [bind_some, hb, hbit]
      exact hq
    · intro k
      rw [hbits, bitAt_putBit (by omega) hb]
      by_cases hk : k = o
      · rw [if_neg (by omega), if_pos hk, if_pos (by omega), show o + (n + 1) - 1 - k = n by omega]
      · by_cases hin : o + 1 ≤ k ∧ k < o + 1 + n
        · rw [if_pos hin, if_pos (by omega), show o + 1 + n - 1 - k = o + (n + 1) - 1 - k by omega]
        · rw [if_neg hin, if_neg hk, if_neg (by omega)]

theorem field_of_bits {value : BitVec 64} {q : Bytes}
    (h : ∀ k, bitAt q k = if o ≤ k ∧ k < o + n then value.getLsbD (o + n - 1 - k) else bitAt p k) :
    field q o n = value.toNat % 2 ^ n := by
  refine field_eq_mod fun i hi => ?_
  rw [h, if_pos (by omega), show o + n - 1 - (o + i) = n - 1 - i by omega, BitVec.getLsbD]

theorem getUnsignedBitfieldLoop_eq (h : o + n ≤ 8 * p.length) (v : BitVec 64) :
    getUnsignedBitfieldLoop p n o v = some (.ofNat 64 (v.toNat * 2 ^ n + field p o n)) := by
  induction n generalizing o v with
  | zero => simp [getUnsignedBitfieldLoop, field]
  | succ n ih =>
    have hlt : o / 8 < p.length := by omega
    have hbit : (p[o / 8].toBitVec.setWidth 64 >>> (7 - o % 8)) &&& 1 = BitVec.ofNat 64 (bitAt p o).toNat := by
      have hget : p.getD (o / 8) 0 = p[o / 8] := by
        rw [getD_eq_getElem?_getD, List.getElem?_eq_getElem hlt, getD_some]
      rw [bitAt, hget]
      refine BitVec.eq_of_getLsbD_eq fun i hi => ?_
      cases i with
      | zero => cases hb : p[o / 8].toBitVec.getLsbD (7 - o % 8) <;> simp [hb, show 7 - o % 8 < 64 by omega]
      | succ i => cases hb : p[o / 8].toBitVec.getLsbD (7 - o % 8) <;> simp
    have hstep : (v <<< 1 ||| BitVec.ofNat 64 (bitAt p o).toNat).toNat % 2 ^ 64 =
        (2 * v.toNat + (bitAt p o).toNat) % 2 ^ 64 := by
      have hand : v <<< 1 &&& BitVec.ofNat 64 (bitAt p o).toNat = 0#64 := by
        refine BitVec.eq_of_getLsbD_eq fun i hi => ?_
        cases i with
        | zero => simp
        | succ i => cases bitAt p o <;> simp
      rw [← BitVec.add_eq_or_of_and_eq_zero _ _ hand, BitVec.toNat_add, BitVec.toNat_shiftLeft, BitVec.toNat_ofNat,
        Nat.shiftLeft_eq]
      omega
    simp only [getUnsignedBitfieldLoop, List.getElem?_eq_getElem hlt, hbit]
    rw [ih (by omega), field_succ_left]
    refine congrArg some (BitVec.eq_of_toNat_eq ?_)
    rw [BitVec.toNat_ofNat, BitVec.toNat_ofNat]
    refine Nat.ModEq.trans (Nat.ModEq.add_right _ (Nat.ModEq.mul_right _ hstep)) ?_
    rw [show (2 * v.toNat + (bitAt p o).toNat) * 2 ^ n + field p (o + 1) n =
      v.toNat * 2 ^ (n + 1) + ((bitAt p o).toNat * 2 ^ n + field p (o + 1) n) by rw [pow_succ]; ring]

theorem getUnsignedBitfield_eq (h : o + n ≤ 8 * p.length) :
    getUnsignedBitfield p o n = some (.ofNat 64 (field p o n)) := by
  rw [getUnsignedBitfield, getUnsignedBitfieldLoop_eq h]
  simp

theorem toInt_ofNat (h : v < 2 ^ 63) : (BitVec.ofNat 64 v).toInt = v := by
  rw [BitVec.toInt_eq_toNat_cond, BitVec.toNat_ofNat]
  omega

theorem getLsbD_ones_shl (n : ℕ) {i : ℕ} (hi : i < 64) : ((-1 : BitVec 64) <<< n).getLsbD i = decide (n ≤ i) := by
  rw [BitVec.getLsbD_shiftLeft, show (-1 : BitVec 64) = BitVec.allOnes 64 by rfl, BitVec.getLsbD_allOnes]
  by_cases hin : i < n
  · simp [hin]
  · simp [hi, hin, show i - n < 64 by omega, show n ≤ i by omega]

theorem toInt_or_mask (h2 : v < 2 ^ n) (hn0 : 0 < n) (hn : n < 64) :
    (BitVec.ofNat 64 v ||| (-1 : BitVec 64) <<< n).toInt = v - 2 ^ n := by
  have hle : 2 ^ n ≤ 2 ^ 63 := Nat.pow_le_pow_right (by norm_num) (by omega)
  have hand : BitVec.ofNat 64 v &&& (-1 : BitVec 64) <<< n = 0#64 := by
    refine BitVec.eq_of_getLsbD_eq fun i hi => ?_
    rw [BitVec.getLsbD_and, getLsbD_ones_shl n hi, BitVec.getLsbD_ofNat]
    by_cases hin : n ≤ i
    · simp [Nat.testBit_lt_two_pow (h2.trans_le (Nat.pow_le_pow_right (by norm_num) hin))]
    · simp [hin]
  have hmask : ((-1 : BitVec 64) <<< n).toNat = 2 ^ 64 - 2 ^ n := by
    rw [BitVec.shiftLeft_neg, BitVec.toNat_neg, BitVec.toNat_shiftLeft, Nat.shiftLeft_eq]
    simp
    omega
  rw [← BitVec.add_eq_or_of_and_eq_zero _ _ hand, BitVec.toInt_eq_toNat_cond, BitVec.toNat_add, hmask,
    BitVec.toNat_ofNat]
  have hcast : ((2 ^ n : ℕ) : ℤ) = 2 ^ n := by norm_num
  omega

theorem testBit_top (h : v < 2 ^ n) (hn0 : 0 < n) : v.testBit (n - 1) = decide (2 ^ (n - 1) ≤ v) := by
  have hpow : (2 : ℕ) ^ n = 2 ^ (n - 1) * 2 := by
    rw [← pow_succ]
    congr 1
    omega
  have hhalf : v / 2 ^ (n - 1) < 2 := Nat.div_lt_of_lt_mul (hpow ▸ h)
  rw [Nat.testBit_eq_decide_div_mod_eq, decide_eq_decide, Nat.mod_eq_of_lt hhalf,
    ← Nat.one_le_div_iff (by positivity)]
  omega

/-- The top bit decides on the sign; of the full width it must not be set. -/
theorem getSignedBitfield_eq (h : o + n ≤ 8 * p.length) (hn0 : 0 < n) (hn : n ≤ 64) :
    getSignedBitfield p o n = if n = 64 ∧ signed n (field p o n) < 0 then none
      else some (signed n (field p o n)) := by
  have hlt := field_lt p o n
  have hmsb : (BitVec.ofNat 64 (field p o n)).getLsbD (n - 1) = decide (2 ^ (n - 1) ≤ field p o n) := by
    rw [BitVec.getLsbD_ofNat, testBit_top hlt hn0]
    simp [show n - 1 < 64 by omega]
  rw [getSignedBitfield, getUnsignedBitfield_eq h, bind_some, shl64_of_lt _ (by omega), bind_some]
  simp only [and_mask_ne_zero _ (show n - 1 < 64 by omega), hmsb, decide_eq_true_iff]
  by_cases htop : 2 ^ (n - 1) ≤ field p o n
  · have hneg : signed n (field p o n) < 0 := by
      rw [signed_of_ge htop]
      have hcast : ((2 ^ n : ℕ) : ℤ) = 2 ^ n := by norm_num
      omega
    rw [if_pos htop]
    by_cases hfull : n = 64
    · rw [if_pos ⟨hfull, hneg⟩, shl64_of_ge _ (by omega), map_none]
    · rw [if_neg (by tauto), shl64_of_lt _ (by omega), map_some, signed_of_ge htop,
        toInt_or_mask hlt hn0 (by omega)]
  · have hpow : 2 ^ (n - 1) ≤ 2 ^ 63 := Nat.pow_le_pow_right (by norm_num) (by omega)
    rw [if_neg htop, signed_of_lt (by omega), if_neg (by omega), toInt_ofNat (by omega)]

/-! ### Reading and writing by type -/

namespace BitfieldType

variable (t : BitfieldType)

theorem bits_le_64 : t.bits ≤ 64 := by
  have h := t.bits_le
  split at h <;> omega

theorem two_pow_bits : (2 : ℤ) ^ t.bits = 2 * 2 ^ (t.bits - 1) := by
  rw [← pow_succ', Nat.sub_add_cancel t.bits_pos]

theorem upper_eq : t.upper = t.lower + 2 ^ t.bits - 1 := by
  have h := t.two_pow_bits
  unfold upper lower
  split <;> omega

theorem reduce_inRange (x : ℤ) : t.InRange (t.reduce x) := by
  have hpos : (0 : ℤ) < 2 ^ t.bits := by positivity
  rw [InRange, upper_eq, reduce]
  omega

theorem reduce_of_inRange (h : t.InRange x) : t.reduce x = x := by
  rw [InRange, upper_eq] at h
  rw [reduce, Int.emod_eq_of_lt (by omega) (by omega)]
  omega

theorem reduce_emod (x : ℤ) : t.reduce x % 2 ^ t.bits = x % 2 ^ t.bits := by
  rw [reduce, Int.add_emod, Int.emod_emod_of_dvd _ dvd_rfl, ← Int.add_emod, add_sub_cancel]

theorem signed_eq_reduce (hsign : t.sign = true) (x : ℤ) : signed t.bits (x % 2 ^ t.bits).toNat = t.reduce x := by
  have hrange := t.reduce_inRange x
  unfold InRange lower upper at hrange
  simp only [hsign, if_true] at hrange
  rw [← reduce_emod, signed_emod t.bits_pos hrange.1 (by omega)]

theorem reduce_unsigned (hsign : t.sign = false) (x : ℤ) : t.reduce x = x % 2 ^ t.bits := by
  rw [reduce, lower, hsign, if_neg Bool.false_ne_true, sub_zero, zero_add]

/-- A field with the last bits of a number has the number of the range that it reduces to. -/
theorem value_eq_reduce (h : field p o t.bits = (x % 2 ^ t.bits).toNat) : t.value p o = t.reduce x := by
  rw [value, h]
  cases hsign : t.sign with
  | true => exact t.signed_eq_reduce hsign x
  | false =>
    rw [t.reduce_unsigned hsign]
    exact Int.toNat_of_nonneg (Int.emod_nonneg x (by positivity))

theorem value_inRange (p : Bytes) (o : ℕ) : t.InRange (t.value p o) := by
  have hlt := field_lt p o t.bits
  have hmod : field p o t.bits = ((field p o t.bits : ℤ) % 2 ^ t.bits).toNat := by
    rw [Int.emod_eq_of_lt (by omega) (by exact_mod_cast hlt), Int.toNat_natCast]
  rw [t.value_eq_reduce hmod]
  exact t.reduce_inRange _

theorem InRange.bounds {t : BitfieldType} (h : t.InRange x) :
    -2 ^ 63 ≤ x ∧ x < 2 ^ 63 ∧ (t.sign = false → 0 ≤ x) := by
  have hle := t.bits_le
  unfold InRange lower upper at h
  cases hsign : t.sign with
  | true =>
    have hpow : (2 : ℤ) ^ (t.bits - 1) ≤ 2 ^ 63 :=
      pow_le_pow_right₀ (by norm_num) (by have := t.bits_le_64; omega)
    simp only [hsign, if_true] at h
    exact ⟨by omega, by omega, nofun⟩
  | false =>
    simp only [hsign, Bool.false_eq_true, if_false] at h hle
    have hpow : (2 : ℤ) ^ t.bits ≤ 2 ^ 63 := pow_le_pow_right₀ (by norm_num) hle
    omega

theorem toNat_ofInt_mod (v : ℤ) : (BitVec.ofInt 64 v).toNat % 2 ^ t.bits = (v % 2 ^ t.bits).toNat := by
  have hnonneg := Int.emod_nonneg v (show (2 ^ 64 : ℤ) ≠ 0 by norm_num)
  have hdvd : (2 : ℤ) ^ t.bits ∣ 2 ^ 64 := pow_dvd_pow 2 t.bits_le_64
  have hcast : (((v % 2 ^ 64).toNat % 2 ^ t.bits : ℕ) : ℤ) = v % 2 ^ t.bits := by
    rw [Int.natCast_mod, Int.toNat_of_nonneg hnonneg, Nat.cast_pow, Nat.cast_ofNat, Int.emod_emod_of_dvd v hdvd]
  rw [BitVec.toNat_ofInt, ← hcast, Int.toNat_natCast]
  norm_num

/-- Whatever is written, the field holds what it reduces to, and no other bit changes. -/
theorem set_eq {o : ℕ} (h : o + t.bits ≤ 8 * p.length) (v : ℤ) :
    ∃ q, t.set p o v = some q ∧ t.value q o = t.reduce v ∧ q.length = p.length ∧
      ∀ k, k < o ∨ o + t.bits ≤ k → bitAt q k = bitAt p k := by
  obtain ⟨q, hq, hlen, hbits⟩ := setUnsignedBitfieldLoop_eq (.ofInt 64 v) t.bits_le_64 h
  refine ⟨q, ?_, ?_, hlen, ?_⟩
  · rw [set, setSignedBitfield, setUnsignedBitfield, hq, ite_self]
  · exact t.value_eq_reduce ((field_of_bits hbits).trans (t.toNat_ofInt_mod v))
  · intro k hk
    rw [hbits, if_neg (by omega)]

theorem get_eq {o : ℕ} (h : o + t.bits ≤ 8 * p.length) :
    t.get p o = if t.Unreadable (t.value p o) then none else some (t.value p o) := by
  have hle := t.bits_le
  unfold get value Unreadable
  by_cases hsign : t.sign = true
  · simp only [hsign, if_true, true_and]
    exact getSignedBitfield_eq h t.bits_pos t.bits_le_64
  · simp only [hsign, Bool.false_eq_true, if_false, false_and] at hle ⊢
    have hlt := field_lt p o t.bits
    have hpow : 2 ^ t.bits ≤ 2 ^ 63 := Nat.pow_le_pow_right (by norm_num) hle
    rw [getUnsignedBitfield_eq h, map_some, toInt_ofNat (by omega)]

end BitfieldType

theorem bitAt_getBuf (p : Bytes) (byte : ℕ) {k : ℕ} (h : k < 72) :
    bitAt (getBuf p byte) k = bitAt p (byte * 8 + k) := by
  have hbyte : (byte * 8 + k) / 8 = k / 8 + byte := by omega
  have hbit : (byte * 8 + k) % 8 = k % 8 := by omega
  rw [bitAt, bitAt, hbyte, hbit, getBuf, getD_eq_getElem?_getD, List.getElem?_map,
    List.getElem?_range (by omega), map_some, getD_some]

theorem execGet_eq (op : BitfieldOp) (p : Bytes) : execGet op p =
      if op.type.Unreadable (op.type.value p op.offset) then none else some (.int (op.type.value p op.offset)) := by
  have hbits := op.type.bits_le_64
  have hvalue : op.type.value (getBuf p (op.offset / 8)) (op.offset - op.offset / 8 * 8) =
      op.type.value p op.offset := by
    have hfield : field (getBuf p (op.offset / 8)) (op.offset - op.offset / 8 * 8) op.type.bits =
        field p op.offset op.type.bits := by
      refine field_congr fun i hi => ?_
      rw [bitAt_getBuf p _ (by omega)]
      congr 1
      omega
    rw [BitfieldType.value, hfield, BitfieldType.value]
  have hlen : (getBuf p (op.offset / 8)).length = 9 := by rw [getBuf, length_map, length_range]
  have hget : execGet op p = (op.type.get (getBuf p (op.offset / 8)) (op.offset - op.offset / 8 * 8)).map .int := by
    unfold execGet BitfieldType.get
    cases op.type.sign with
    | true => rfl
    | false => simp [Option.map_map, Function.comp_def]
  rw [hget, op.type.get_eq (by rw [hlen]; omega), hvalue]
  split <;> rfl

/-- For every type, offset and value of its range: a field that is set and read back gives the
value and leaves every other bit alone, and `GET` reads a string as if it went on with zeros;
except where a signed field of 64 bits holds a negative value, which is read with a shift by
64. -/
theorem bitfield_round_trip_iff (t : BitfieldType) (o : ℕ) (p : Bytes) : (∀ v, t.InRange v →
      ((∃ s, t.set (sdsgrowzero p ((o + t.bits - 1) / 8 + 1)) o v = some s ∧ t.get s o = some v ∧
          ∀ k, k < o ∨ o + t.bits ≤ k → bitAt s k = bitAt p k) ↔ ¬ t.Unreadable v)) ∧
      ∀ op : BitfieldOp, op.opcode = .get → (op.exec p = some (p, .int (op.type.value p op.offset)) ↔
          ¬ op.type.Unreadable (op.type.value p op.offset)) := by
  refine ⟨?_, ?_⟩
  · intro v hv
    have hlen : o + t.bits ≤ 8 * (sdsgrowzero p ((o + t.bits - 1) / 8 + 1)).length := by
      rw [sdsgrowzero, length_append, length_replicate]
      omega
    obtain ⟨q, hset, hvalue, hqlen, hframe⟩ := t.set_eq hlen v
    have hget := @BitfieldType.get_eq q t o (hqlen ▸ hlen)
    rw [hvalue, t.reduce_of_inRange hv] at hget
    refine ⟨?_, ?_⟩
    · intro h hbad
      obtain ⟨s, hs, hread, -⟩ := h
      obtain rfl := some.inj (hset.symm.trans hs)
      rw [hget, if_pos hbad] at hread
      cases hread
    · intro hok
      refine ⟨q, hset, by rw [hget, if_neg hok], ?_⟩
      intro k hk
      rw [hframe k hk, sdsgrowzero, bitAt_append_zeros]
  · intro op hop
    rw [BitfieldOp.exec, if_pos hop, execGet_eq]
    split_ifs with hbad
    · exact iff_of_false (by simp) (not_not.mpr hbad)
    · exact iff_of_true rfl hbad

def signed5 : BitfieldType := ⟨true, 5, by decide, by decide⟩
def signed64 : BitfieldType := ⟨true, 64, by decide, by decide⟩

/-- Five bits across two bytes of a string that has only one. -/
theorem bitfield_round_trip_i5 : (signed5.InRange (-3) ∧ ¬ signed5.Unreadable (-3)) ∧
      ∃ s, signed5.set (sdsgrowzero [255] 2) 6 (-3) = some s ∧ signed5.get s 6 = some (-3) ∧
        ∀ k, k < 6 ∨ 11 ≤ k → bitAt s k = bitAt [255] k :=
  have h : signed5.InRange (-3) ∧ ¬ signed5.Unreadable (-3) := by decide
  ⟨h, ((bitfield_round_trip_iff signed5 6 [255]).1 (-3) h.1).mpr h.2⟩

/-- Eight bytes of ones are the value -1 of `i64`, and cannot be read. -/
theorem full_width_shift :
    signed64.InRange (-1) ∧ signed64.set (replicate 8 0) 0 (-1) = some (replicate 8 255) ∧
      signed64.get (replicate 8 255) 0 = none := by
  decide +kernel

/-! ### Overflow -/

theorem wrapLongLong_of_range (h1 : -2 ^ 63 ≤ x) (h2 : x < 2 ^ 63) : wrapLongLong x = x := by
  rw [wrapLongLong, Int.bmod_def]
  omega

theorem and_not_mask (n : ℕ) (c : BitVec 64) : c &&& ~~~((-1 : BitVec 64) <<< n) = .ofNat 64 (c.toNat % 2 ^ n) := by
  refine BitVec.eq_of_getLsbD_eq fun i hi => ?_
  rw [BitVec.getLsbD_and, BitVec.getLsbD_not, getLsbD_ones_shl n hi, BitVec.getLsbD_ofNat, Nat.testBit_mod_two_pow,
    BitVec.testBit_toNat]
  by_cases hin : i < n <;> simp [hi, hin, ← Nat.not_lt]

theorem or_mask (n : ℕ) (c : BitVec 64) :
    c ||| (-1 : BitVec 64) <<< n = .ofNat 64 (c.toNat % 2 ^ n) ||| (-1 : BitVec 64) <<< n := by
  refine BitVec.eq_of_getLsbD_eq fun i hi => ?_
  rw [BitVec.getLsbD_or, BitVec.getLsbD_or, getLsbD_ones_shl n hi, BitVec.getLsbD_ofNat, Nat.testBit_mod_two_pow,
    BitVec.testBit_toNat]
  by_cases hin : i < n <;> simp [hi, hin, ← Nat.not_lt]

theorem wrapLongLong_cases {x : ℤ} (h1 : -2 ^ 64 ≤ x) (h2 : x < 2 ^ 64) :
    (-2 ^ 63 ≤ x ∧ x < 2 ^ 63 ∧ wrapLongLong x = x) ∨ (2 ^ 63 ≤ x ∧ wrapLongLong x = x - 2 ^ 64) ∨
      (x < -2 ^ 63 ∧ wrapLongLong x = x + 2 ^ 64) := by
  rw [wrapLongLong, Int.bmod_def]
  omega

/-- The last bits of a word, with the first of them propagated or everything above masked. -/
theorem toInt_wrapped (hn0 : 0 < n) (hn : n < 64) (c : BitVec 64) :
    (if c &&& (1 : BitVec 64) <<< (n - 1) ≠ 0 then c ||| (-1 : BitVec 64) <<< n
      else c &&& ~~~((-1 : BitVec 64) <<< n)).toInt = signed n (c.toNat % 2 ^ n) := by
  have hlt : c.toNat % 2 ^ n < 2 ^ n := Nat.mod_lt _ (by positivity)
  have hmsb : c.getLsbD (n - 1) = decide (2 ^ (n - 1) ≤ c.toNat % 2 ^ n) := by
    rw [← testBit_top hlt hn0, Nat.testBit_mod_two_pow, BitVec.testBit_toNat]
    simp [hn0]
  simp only [and_mask_ne_zero c (show n - 1 < 64 by omega), hmsb, decide_eq_true_iff]
  by_cases htop : 2 ^ (n - 1) ≤ c.toNat % 2 ^ n
  · rw [if_pos htop, or_mask, toInt_or_mask hlt hn0 hn, signed_of_ge htop]
  · have hpow : 2 ^ (n - 1) ≤ 2 ^ 63 := Nat.pow_le_pow_right (by norm_num) (by omega)
    rw [if_neg htop, and_not_mask, toInt_ofNat (by omega), signed_of_lt (by omega)]

namespace BitfieldType

variable (t : BitfieldType)

/-- The return value and the limit of a check that finds `x` outside of the range. -/
def pick (owtype : OwType) (x code bound : ℤ) : Option (ℤ × Option ℤ) :=
  match owtype with
  | .wrap => if t.bits = 64 then none else some (1, some (t.reduce x))
  | .sat => some (code, some bound)
  | .fail => some (code, none)

/-- What the checks say about a result. It may be `far` below the range and be taken for one
above it. -/
def verdict (owtype : OwType) (x : ℤ) (far : Prop) [Decidable far] : Option (ℤ × Option ℤ) :=
  if t.upper < x ∨ far then t.pick owtype x 1 t.upper
  else if x < t.lower then t.pick owtype x (-1) t.lower
  else some (0, none)

theorem checkSignedBitfieldOverflow_eq (hsign : t.sign = true) {value incr : ℤ} (h1 : -2 ^ 63 ≤ value)
    (h2 : value < 2 ^ 63) (h3 : -2 ^ 63 ≤ incr) (h4 : incr < 2 ^ 63) (hor : t.InRange value ∨ incr = 0)
    (owtype : OwType) : checkSignedBitfieldOverflow value incr t.bits owtype =
      t.verdict owtype (value + incr) (t.bits ≠ 64 ∧ value < 2 ^ (t.bits - 1) - 2 ^ 63) := by
  have hpos := t.bits_pos
  have hle := t.bits_le_64
  have hwrap : ((shl64 (-1) t.bits).bind fun mask => (shl64 1 (t.bits - 1)).map fun msb =>
      ((1 : ℤ), some (if BitVec.ofInt 64 value + BitVec.ofInt 64 incr &&& msb ≠ 0
        then BitVec.ofInt 64 value + BitVec.ofInt 64 incr ||| mask
        else BitVec.ofInt 64 value + BitVec.ofInt 64 incr &&& ~~~mask).toInt)) =
      if t.bits = 64 then none else some (1, some (t.reduce (value + incr))) := by
    split_ifs with hfull
    · rw [shl64_of_ge _ (by omega), bind_none]
    · rw [shl64_of_lt _ (by omega), bind_some, shl64_of_lt _ (by omega), map_some,
        toInt_wrapped hpos (by omega), ← BitVec.ofInt_add, toNat_ofInt_mod, signed_eq_reduce t hsign]
  have hupper : t.upper = 2 ^ (t.bits - 1) - 1 := by rw [upper, if_pos hsign]
  have hlower : t.lower = -2 ^ (t.bits - 1) := by rw [lower, if_pos hsign]
  have hmax : (if t.bits = 64 then LLONG_MAX else 2 ^ (t.bits - 1) - 1) = t.upper := by
    rw [hupper]
    split_ifs with hfull
    · rw [hfull]
      rfl
    · rfl
  have hmin : -t.upper - 1 = t.lower := by omega
  have hM1 : (1 : ℤ) ≤ 2 ^ (t.bits - 1) := one_le_pow₀ (by norm_num)
  have hM : t.bits ≠ 64 ∧ (2 : ℤ) ^ (t.bits - 1) ≤ 2 ^ 62 ∨ t.bits = 64 ∧
    (2 : ℤ) ^ (t.bits - 1) = 2 ^ 63 := by
    by_cases hfull : t.bits = 64
    · exact .inr ⟨hfull, by rw [hfull]⟩
    · exact .inl ⟨hfull, pow_le_pow_right₀ (by norm_num) (by omega)⟩
  unfold InRange at hor
  unfold checkSignedBitfieldOverflow verdict pick
  simp only [hmax, hmin, hwrap]
  generalize (2 : ℤ) ^ (t.bits - 1) = M at *
  have hover : (value > t.upper ∨ (t.bits ≠ 64 ∧ incr > wrapLongLong (t.upper - value)) ∨
      (value ≥ 0 ∧ incr > 0 ∧ incr > wrapLongLong (t.upper - value))) ↔
        (t.upper < value + incr ∨ (t.bits ≠ 64 ∧ value < M - 2 ^ 63)) := by
    have hcases := @wrapLongLong_cases (t.upper - value) (by omega) (by omega)
    omega
  have hunder (hnot : ¬ (t.upper < value + incr ∨ (t.bits ≠ 64 ∧ value < M - 2 ^ 63))) :
      (value < t.lower ∨ (t.bits ≠ 64 ∧ incr < wrapLongLong (t.lower - value)) ∨
        (value < 0 ∧ incr < 0 ∧ incr < wrapLongLong (t.lower - value))) ↔ value + incr < t.lower := by
    have hcases := @wrapLongLong_cases (t.lower - value) (by omega) (by omega)
    omega
  refine ite_congr (propext hover) (fun _ => ?_) fun h => ite_congr (propext (hunder h)) (fun _ => ?_) fun _ => rfl
  · cases owtype <;> rfl
  · cases owtype <;> rfl

/-- A negative argument of `SET` is converted to a number above every range. -/
theorem checkUnsignedBitfieldOverflow_eq (hsign : t.sign = false) {value : BitVec 64} {incr : ℤ} (h1 : -2 ^ 63 ≤ x)
    (h2 : x < 2 ^ 64) (h3 : -2 ^ 63 ≤ incr) (h4 : incr < 2 ^ 63) (hsum : value + .ofInt 64 incr = .ofInt 64 x)
    (hor : t.InRange value.toNat ∧ x = value.toNat + incr ∨ incr = 0 ∧ x < 2 ^ 63) (owtype : OwType) :
    checkUnsignedBitfieldOverflow value incr t.bits owtype =
      (t.verdict owtype x (incr = 0 ∧ x < 0)).map fun r => (r.1, r.2.map (BitVec.ofInt 64)) := by
  have hle : t.bits ≤ 63 := by simpa [hsign] using t.bits_le
  have hupper : t.upper = 2 ^ t.bits - 1 := by rw [upper, hsign, if_neg Bool.false_ne_true]
  have hlower : t.lower = 0 := by rw [lower, hsign, if_neg Bool.false_ne_true]
  have hK1 : 1 ≤ 2 ^ t.bits := Nat.one_le_two_pow
  have hK : 2 ^ t.bits ≤ 2 ^ 63 := Nat.pow_le_pow_right (by norm_num) hle
  have hcast : ((2 ^ t.bits : ℕ) : ℤ) = 2 ^ t.bits := by norm_num
  have hmax : ((1 : BitVec 64) <<< t.bits - 1).toNat = 2 ^ t.bits - 1 := by
    rw [BitVec.toNat_sub, BitVec.toNat_shiftLeft, Nat.shiftLeft_eq, show (1 : BitVec 64).toNat = 1 by rfl]
    omega
  have hlimit : (1 : BitVec 64) <<< t.bits - 1 = .ofInt 64 t.upper := by
    refine BitVec.eq_of_toNat_eq ?_
    rw [hmax, BitVec.toNat_ofInt, hupper]
    omega
  have hwrap : ((shl64 (-1) t.bits).map fun mask => ((1 : ℤ), some ((value + .ofInt 64 incr) &&& ~~~mask))) =
      some (1, some (.ofInt 64 (t.reduce x))) := by
    have hnonneg := Int.emod_nonneg x (show (2 : ℤ) ^ t.bits ≠ 0 by positivity)
    rw [shl64_of_lt _ (by omega), map_some, hsum, and_not_mask, toNat_ofInt_mod, ← BitVec.ofInt_natCast,
      Int.toNat_of_nonneg hnonneg, reduce_unsigned t hsign]
  have hzero : incr = 0 → (value.toNat : ℤ) = x % 2 ^ 64 := by
    intro h0
    have h := congrArg BitVec.toNat hsum
    rw [h0, BitVec.toNat_add, BitVec.toNat_ofInt, BitVec.toNat_ofInt] at h
    omega
  have hmaxincr : value.toNat < 2 ^ t.bits →
      ((1 : BitVec 64) <<< t.bits - 1 - value).toInt = t.upper - value.toNat := by
    intro h
    rw [BitVec.toInt_eq_toNat_cond, BitVec.toNat_sub, hmax, hupper]
    omega
  have hminincr : value.toNat < 2 ^ t.bits → (-value).toInt = -value.toNat := by
    intro h
    rw [BitVec.toInt_eq_toNat_cond, BitVec.toNat_neg]
    omega
  rw [InRange, hlower, hupper] at hor
  have hover : (value > (1 : BitVec 64) <<< t.bits - 1 ∨
      (incr > 0 ∧ incr > ((1 : BitVec 64) <<< t.bits - 1 - value).toInt)) ↔
        (t.upper < x ∨ (incr = 0 ∧ x < 0)) := by
    rw [gt_iff_lt, BitVec.lt_def, hmax]
    omega
  have hunder (hnot : ¬ (t.upper < x ∨ (incr = 0 ∧ x < 0))) :
      (incr < 0 ∧ incr < (-value).toInt) ↔ x < t.lower := by
    omega
  unfold checkUnsignedBitfieldOverflow verdict pick
  simp only [if_neg (show t.bits ≠ 64 by omega), shl64_of_lt 1 (show t.bits < 64 by omega), map_some,
    bind_some, hwrap, apply_ite (Option.map _)]
  refine ite_congr (propext hover) (fun _ => ?_) fun h => ite_congr (propext (hunder h)) (fun _ => ?_) fun _ => rfl
  · rw [hlimit]
    cases owtype <;> rfl
  · rw [hlower]
    cases owtype <;> rfl

theorem bounds_inRange : t.InRange t.upper ∧ t.InRange t.lower := by
  have hpos : (0 : ℤ) < 2 ^ t.bits := by positivity
  rw [InRange, InRange, upper_eq]
  omega

theorem pick_cases {owtype : OwType} {bound c : ℤ} (hcode : code ≠ 0) (hbound : t.InRange bound)
    (h : t.pick owtype x code bound = some (c, l)) :
    c ≠ 0 ∧ (owtype = .fail ∧ l = none ∨ owtype ≠ .fail ∧ ∃ y, l = some y ∧ t.InRange y) := by
  cases owtype with
  | wrap =>
    simp only [pick] at h
    split at h
    · cases h
    · cases h
      exact ⟨by decide, .inr ⟨by decide, _, rfl, t.reduce_inRange x⟩⟩
  | sat =>
    cases h
    exact ⟨hcode, .inr ⟨by decide, _, rfl, hbound⟩⟩
  | fail =>
    cases h
    exact ⟨hcode, .inl ⟨rfl, rfl⟩⟩

/-- A verdict is that the result fits, or it comes with a limit unless the policy is to fail. -/
theorem verdict_cases {owtype : OwType} {far : Prop} [Decidable far] (h : t.verdict owtype x far = some (code, l)) :
    (code = 0 ∧ l = none ∧ t.InRange x) ∨
      (code ≠ 0 ∧ (owtype = .fail ∧ l = none ∨ owtype ≠ .fail ∧ ∃ y, l = some y ∧ t.InRange y)) := by
  unfold verdict at h
  split_ifs at h with hover hunder
  · exact .inr (t.pick_cases (by decide) t.bounds_inRange.1 h)
  · exact .inr (t.pick_cases (by decide) t.bounds_inRange.2 h)
  · cases h
    exact .inl ⟨rfl, rfl, not_lt.mp hunder, not_lt.mp fun hlt => hover (.inl hlt)⟩

theorem verdict_congr (owtype : OwType) (x : ℤ) {far far' : Prop} [Decidable far] [Decidable far']
    (h : far ↔ far') : t.verdict owtype x far = t.verdict owtype x far' := by
  simp [h]

end BitfieldType

/-- A `SET` whose argument the checks take for one above the range although it is below. -/
def BitfieldOp.Far (op : BitfieldOp) : Prop :=
  op.opcode = .set ∧ if op.type.sign then op.type.bits ≠ 64 ∧
    op.i64 < 2 ^ (op.type.bits - 1) - 2 ^ 63 else op.i64 < 0

instance (op : BitfieldOp) : Decidable op.Far := inferInstanceAs (Decidable (_ ∧ _))

theorem BitfieldOp.Far.lt_lower {op : BitfieldOp} (h : op.Far) : op.i64 < op.type.lower := by
  have hpow := op.type.two_pow_bits
  obtain ⟨-, h⟩ := h
  rw [BitfieldType.lower]
  split_ifs at h ⊢ with hsign
  · have hle := op.type.bits_le_64
    have h63 : (2 : ℤ) ^ op.type.bits ≤ 2 ^ 63 := pow_le_pow_right₀ (by norm_num) (by omega)
    omega
  · assumption

namespace BitfieldOp

variable {op : BitfieldOp}

/-- What an operation that writes does with the verdict on its result. -/
def conclude (op : BitfieldOp) (p : Bytes) (verdict : ℤ × Option ℤ) : Option (Bytes × Reply) :=
  let y := if verdict.1 ≠ 0 then verdict.2.getD (op.result p) else op.result p
  if verdict.1 ≠ 0 ∧ op.owtype = .fail then some (p, .nullBulk)
  else
    (op.type.set p op.offset y).map fun q =>
      (q, .int (if op.opcode = .incrby then y else op.type.value p op.offset))

section

variable (hop : op.opcode ≠ .get) (h1 : -2 ^ 63 ≤ op.i64) (h2 : op.i64 < 2 ^ 63)
  (hin : op.offset + op.type.bits ≤ 8 * p.length)
include hop h1 h2 hin

/-- In the range of a signed type the machine computes the true result. -/
theorem execSigned_eq (hsign : op.type.sign = true) : execSigned op p =
      if op.type.Unreadable (op.type.value p op.offset) then none
      else (op.type.verdict op.owtype (op.result p) op.Far).bind (op.conclude p) := by
  have hget : getSignedBitfield p op.offset op.type.bits = op.type.get p op.offset := by
    rw [BitfieldType.get, if_pos hsign]
  have hset : ∀ y, setSignedBitfield p op.offset op.type.bits y = op.type.set p op.offset y := by
    intro y
    rw [BitfieldType.set, if_pos hsign]
  have hvalue := op.type.value_inRange p op.offset
  rw [execSigned, hget, op.type.get_eq hin]
  by_cases hread : op.type.Unreadable (op.type.value p op.offset)
  · rw [if_pos hread, if_pos hread, bind_none]
  rw [if_neg hread, if_neg hread, bind_some]
  have hnew : (if op.opcode = .incrby then wrapLongLong (op.type.value p op.offset + op.i64) else op.i64) =
      wrapLongLong (op.result p) := by
    rw [result]
    split
    · rfl
    · exact (wrapLongLong_of_range h1 h2).symm
  have hcheck : (if op.opcode = .incrby then
        checkSignedBitfieldOverflow (op.type.value p op.offset) op.i64 op.type.bits op.owtype
      else checkSignedBitfieldOverflow (wrapLongLong (op.result p)) 0 op.type.bits op.owtype) =
      op.type.verdict op.owtype (op.result p) op.Far := by
    by_cases hincr : op.opcode = .incrby
    · obtain ⟨hv1, hv2, -⟩ := hvalue.bounds
      rw [if_pos hincr, op.type.checkSignedBitfieldOverflow_eq hsign hv1 hv2 h1 h2 (.inl hvalue), result,
        if_pos hincr]
      refine op.type.verdict_congr _ _ (iff_of_false ?_ (by rw [Far, hincr]; tauto))
      intro hfar
      have hpow := op.type.two_pow_bits
      have hle := op.type.bits_le_64
      have h63 : (2 : ℤ) ^ op.type.bits ≤ 2 ^ 63 := pow_le_pow_right₀ (by norm_num) (by omega)
      simp only [BitfieldType.InRange, BitfieldType.lower, hsign, if_true] at hvalue
      omega
    · have hset : op.opcode = .set := by cases h : op.opcode <;> simp_all
      rw [if_neg hincr, result, if_neg hincr, wrapLongLong_of_range h1 h2,
        op.type.checkSignedBitfieldOverflow_eq hsign h1 h2 (by norm_num) (by norm_num) (.inr rfl), add_zero]
      exact op.type.verdict_congr _ _ (by rw [Far, hset, hsign]; simp)
  simp only [hnew, hcheck]
  cases hv : op.type.verdict op.owtype (op.result p) op.Far with
  | none => rfl
  | some r =>
    obtain ⟨code, l⟩ := r
    simp only [bind_some, conclude, hset]
    rcases op.type.verdict_cases hv with ⟨rfl, rfl, hfits⟩ | ⟨hcode, ⟨how, rfl⟩ | ⟨how, y, rfl, -⟩⟩
    · simp [wrapLongLong_of_range hfits.bounds.1 hfits.bounds.2.1]
    · simp [hcode, how]
    · simp [hcode, how]

theorem execUnsigned_eq (hsign : op.type.sign = false) :
    execUnsigned op p = (op.type.verdict op.owtype (op.result p) op.Far).bind (op.conclude p) := by
  have hset : ∀ y, setUnsignedBitfield p op.offset op.type.bits (.ofInt 64 y) = op.type.set p op.offset y := by
    intro y
    rw [BitfieldType.set, hsign, if_neg Bool.false_ne_true]
  have htoInt : ∀ x, op.type.InRange x → (BitVec.ofInt 64 x).toInt = x := by
    intro x hx
    obtain ⟨-, hlt, hnonneg⟩ := hx.bounds
    rw [← Int.toNat_of_nonneg (hnonneg hsign), BitVec.ofInt_natCast, toInt_ofNat (by omega)]
  have hvalue := op.type.value_inRange p op.offset
  have hold : op.type.value p op.offset = field p op.offset op.type.bits := by
    rw [BitfieldType.value, hsign, if_neg Bool.false_ne_true]
  rw [execUnsigned, getUnsignedBitfield_eq hin, bind_some, ← BitVec.ofInt_natCast, ← hold]
  have hnew : (if op.opcode = .incrby then BitVec.ofInt 64 (op.type.value p op.offset) + .ofInt 64 op.i64
      else .ofInt 64 op.i64) = .ofInt 64 (op.result p) := by
    rw [result, apply_ite (BitVec.ofInt 64), BitVec.ofInt_add]
  have hcheck : (if op.opcode = .incrby then
        checkUnsignedBitfieldOverflow (.ofInt 64 (op.type.value p op.offset)) op.i64 op.type.bits op.owtype
      else checkUnsignedBitfieldOverflow (.ofInt 64 (op.result p)) 0 op.type.bits op.owtype) =
      (op.type.verdict op.owtype (op.result p) op.Far).map fun r => (r.1, r.2.map (BitVec.ofInt 64)) := by
    by_cases hincr : op.opcode = .incrby
    · obtain ⟨-, hlt, hnonneg⟩ := hvalue.bounds
      have hnat : ((BitVec.ofInt 64 (op.type.value p op.offset)).toNat : ℤ) = op.type.value p op.offset := by
        rw [BitVec.toNat_ofInt]
        omega
      rw [if_pos hincr, result, if_pos hincr,
        op.type.checkUnsignedBitfieldOverflow_eq hsign (by omega) (by omega) h1 h2 (BitVec.ofInt_add ..).symm
          (.inl ⟨by rwa [hnat], by rw [hnat]⟩)]
      exact congrArg _ (op.type.verdict_congr _ _ (iff_of_false (by omega) (by rw [Far, hincr]; tauto)))
    · have hset : op.opcode = .set := by cases h : op.opcode <;> simp_all
      rw [if_neg hincr, result, if_neg hincr,
        op.type.checkUnsignedBitfieldOverflow_eq hsign h1 (by omega) (by norm_num) (by norm_num) (by simp)
          (.inr ⟨rfl, h2⟩)]
      exact congrArg _ (op.type.verdict_congr _ _ (by rw [Far, hset, hsign]; simp))
  simp only [hnew, hcheck]
  cases hv : op.type.verdict op.owtype (op.result p) op.Far with
  | none => rfl
  | some r =>
    obtain ⟨code, l⟩ := r
    simp only [map_some, bind_some, conclude]
    rcases op.type.verdict_cases hv with ⟨rfl, rfl, hfits⟩ | ⟨hcode, ⟨how, rfl⟩ | ⟨how, y, rfl, hy⟩⟩
    · simp [hset, apply_ite BitVec.toInt, htoInt _ hfits, htoInt _ hvalue]
    · simp [hcode, how]
    · simp [hcode, how, hset, apply_ite BitVec.toInt, htoInt _ hy, htoInt _ hvalue]

theorem exec_eq : op.exec p =
      if op.type.Unreadable (op.type.value p op.offset) then none
      else (op.type.verdict op.owtype (op.result p) op.Far).bind (op.conclude p) := by
  rw [exec, if_neg hop]
  by_cases hsign : op.type.sign = true
  · rw [if_pos hsign, execSigned_eq hop h1 h2 hin hsign]
  · rw [if_neg hsign, execUnsigned_eq hop h1 h2 hin (by simpa using hsign),
      if_neg (by rw [BitfieldType.Unreadable]; tauto)]

end

theorem conclude_store (hin : op.offset + op.type.bits ≤ 8 * p.length) {y : ℤ} (hy : op.type.InRange y)
    (hstore : code ≠ 0 ∧ l = some y ∧ op.owtype ≠ .fail ∨ code = 0 ∧ y = op.result p) :
    ∃ q, op.conclude p (code, l) = some (q, .int (if op.opcode = .incrby then y else op.type.value p op.offset)) ∧
      op.type.value q op.offset = y ∧ op.Frame p q := by
  obtain ⟨q, hset, hvalue, hlen, hbits⟩ := op.type.set_eq hin y
  refine ⟨q, ?_, by rw [hvalue, op.type.reduce_of_inRange hy], hlen, hbits⟩
  rcases hstore with ⟨hcode, rfl, how⟩ | ⟨rfl, rfl⟩
  · simp [conclude, hcode, how, hset]
  · simp [conclude, hset]

/-- The operations that go wrong: a read or a wrap with a shift by 64, and a saturating `SET`
that is taken to the other end of the range. -/
def Wrong (op : BitfieldOp) (p : Bytes) : Prop :=
  op.type.Unreadable (op.type.value p op.offset) ∨
    (op.owtype = .wrap ∧ op.type.bits = 64 ∧ ¬ op.type.InRange (op.result p)) ∨ (op.owtype = .sat ∧ op.Far)

theorem not_obeys_of_none (h : op.exec p = none) : ¬ op.Obeys p := by
  unfold Obeys
  rw [h]
  split
  · intro hobeys
    obtain ⟨q, hq, -⟩ := hobeys
    cases hq
  · exact nofun

theorem Far.result_lt (h : op.Far) : op.result p < op.type.lower := by
  have hlt := h.lt_lower
  rw [result, if_neg (by rw [h.1]; decide)]
  exact hlt

/-- Where the result does not fit, the verdict is the one for a number above the range exactly
if it is above or `Far`. -/
theorem verdict_of_not_inRange (h : ¬ op.type.InRange (op.result p)) : op.type.verdict op.owtype (op.result p) op.Far =
      if op.type.upper < op.result p ∨ op.Far then op.type.pick op.owtype (op.result p) 1 op.type.upper
      else op.type.pick op.owtype (op.result p) (-1) op.type.lower := by
  unfold BitfieldType.verdict
  by_cases hover : op.type.upper < op.result p ∨ op.Far
  · rw [if_pos hover, if_pos hover]
  · rw [if_neg hover, if_neg hover, if_pos]
    unfold BitfieldType.InRange at h
    push Not at hover
    omega

section

variable (hin : op.offset + op.type.bits ≤ 8 * p.length)
  (hexec : op.exec p = (op.type.verdict op.owtype (op.result p) op.Far).bind (op.conclude p))
include hin hexec

theorem obeys_of_inRange (h : op.type.InRange (op.result p)) : op.Obeys p := by
  have hnot : ¬ (op.type.upper < op.result p ∨ op.Far) := by
    intro hor
    have hle := h.2
    rcases hor with hlt | hfar
    · omega
    · have hlt := hfar.result_lt (p := p)
      have hge := h.1
      omega
  have hverdict : op.type.verdict op.owtype (op.result p) op.Far = some (0, none) := by
    rw [BitfieldType.verdict, if_neg hnot, if_neg (not_lt.mpr h.1)]
  rw [Obeys, BitfieldType.store, if_pos h, hexec, hverdict]
  exact conclude_store hin h (.inr ⟨rfl, rfl⟩)

theorem obeys_iff_of_not_inRange (h : ¬ op.type.InRange (op.result p)) :
    op.Obeys p ↔ ¬ ((op.owtype = .wrap ∧ op.type.bits = 64) ∨ (op.owtype = .sat ∧ op.Far)) := by
  rw [verdict_of_not_inRange h] at hexec
  cases how : op.owtype with
  | wrap =>
    have hpick : (if op.type.upper < op.result p ∨ op.Far then op.type.pick .wrap (op.result p) 1 op.type.upper
        else op.type.pick .wrap (op.result p) (-1) op.type.lower) =
        if op.type.bits = 64 then none else some (1, some (op.type.reduce (op.result p))) := ite_self _
    rw [how, hpick] at hexec
    split_ifs at hexec with hfull
    · rw [bind_none] at hexec
      exact iff_of_false (not_obeys_of_none hexec) (by tauto)
    · rw [bind_some] at hexec
      refine iff_of_true ?_ (by simp [hfull])
      rw [Obeys, BitfieldType.store, if_neg h, how, hexec]
      exact conclude_store hin (op.type.reduce_inRange _) (.inl ⟨by decide, rfl, by rw [how]; decide⟩)
  | sat =>
    have hne : op.type.upper ≠ op.type.lower := by
      have hpow := op.type.two_pow_bits
      rw [op.type.upper_eq]
      omega
    rw [Obeys, BitfieldType.store, if_neg h, how, BitfieldType.limit, BitfieldType.nearest]
    rw [how] at hexec
    by_cases hfar : op.Far
    · rw [if_pos (.inr hfar), BitfieldType.pick, bind_some] at hexec
      obtain ⟨q, hq, hvalue, -⟩ :=
        conclude_store hin op.type.bounds_inRange.1 (.inl ⟨one_ne_zero, rfl, by rw [how]; decide⟩)
      refine iff_of_false ?_ (by tauto)
      intro hobeys
      obtain ⟨q', hq', hvalue', -⟩ := hobeys
      rw [hexec, hq] at hq'
      obtain rfl := (Prod.mk.inj (some.inj hq')).1
      rw [if_pos hfar.result_lt] at hvalue'
      exact hne (hvalue.symm.trans hvalue')
    · refine iff_of_true ?_ (by simp [hfar])
      by_cases hover : op.type.upper < op.result p
      · have hge : ¬ op.result p < op.type.lower := by
          have hle := op.type.bounds_inRange.1.1
          omega
        rw [if_pos (.inl hover)] at hexec
        rw [if_neg hge, hexec]
        exact conclude_store hin op.type.bounds_inRange.1 (.inl ⟨one_ne_zero, rfl, by rw [how]; decide⟩)
      · have hlt : op.result p < op.type.lower := by
          unfold BitfieldType.InRange at h
          omega
        rw [if_neg (not_or.mpr ⟨hover, hfar⟩)] at hexec
        rw [if_pos hlt, hexec]
        exact conclude_store hin op.type.bounds_inRange.2 (.inl ⟨by decide, rfl, by rw [how]; decide⟩)
  | fail =>
    refine iff_of_true ?_ (by simp)
    rw [Obeys, BitfieldType.store, if_neg h, how, BitfieldType.limit]
    have hnil : ∀ code bound, code ≠ 0 →
        (op.type.pick op.owtype (op.result p) code bound).bind (op.conclude p) = some (p, .nullBulk) := by
      intro code bound hcode
      simp [how, BitfieldType.pick, conclude, hcode]
    rw [apply_ite (Option.bind · (op.conclude p)), hnil _ _ (by decide), hnil _ _ (by decide), ite_self] at hexec
    exact hexec

end

end BitfieldOp

/-- For every type, value of the field and 64-bit argument: `SET` and `INCRBY` store the true
result if it fits, else what the policy makes of it, and with `FAIL` nothing; apart from the
operations that are `Wrong`. -/
theorem bitfield_overflow_iff {op : BitfieldOp} {p : Bytes} (hop : op.opcode ≠ .get) (h1 : -2 ^ 63 ≤ op.i64)
    (h2 : op.i64 < 2 ^ 63) (hin : op.offset + op.type.bits ≤ 8 * p.length) : op.Obeys p ↔ ¬ op.Wrong p := by
  have hexec := exec_eq hop h1 h2 hin
  split_ifs at hexec with hread
  · exact iff_of_false (not_obeys_of_none hexec) (not_not.mpr (.inl hread))
  by_cases hfits : op.type.InRange (op.result p)
  · refine iff_of_true (obeys_of_inRange hin hexec hfits) ?_
    intro hwrong
    rcases hwrong with hbad | ⟨-, -, hnot⟩ | ⟨-, hfar⟩
    · exact hread hbad
    · exact hnot hfits
    · exact absurd hfar.result_lt (not_lt.mpr hfits.1)
  · rw [obeys_iff_of_not_inRange hin hexec hfits, BitfieldOp.Wrong]
    tauto

def unsigned8 : BitfieldType := ⟨false, 8, by decide, by decide⟩

/-- 250 and 10 in eight bits, saturating. -/
theorem bitfield_overflow_saturates : (⟨.incrby, unsigned8, 0, 10, .sat⟩ : BitfieldOp).Obeys [250] :=
  (bitfield_overflow_iff (by decide) (by decide) (by decide) (by decide)).mpr (by
    unfold BitfieldOp.Wrong
    decide)

/-- -1 saturates to the upper bound of eight bits, and the smallest number to that of the
signed types; and a sum that leaves 64 bits cannot be wrapped. -/
theorem saturates_to_other_end :
    (⟨.set, unsigned8, 0, -1, .sat⟩ : BitfieldOp).exec [7] = some ([255], .int 7) ∧
      unsigned8.store .sat (-1) = some 0 ∧
      (⟨.set, signed5, 0, -2 ^ 63, .sat⟩ : BitfieldOp).exec [0] = some ([120], .int 0) ∧
      signed5.store .sat (-2 ^ 63) = some (-16) ∧
      (⟨.incrby, signed64, 0, 2 ^ 63 - 1, .wrap⟩ : BitfieldOp).exec [0, 0, 0, 0, 0, 0, 0, 1] = none ∧
      signed64.store .wrap (2 ^ 63) = some (-2 ^ 63) := by
  decide +kernel

end RedisIR
