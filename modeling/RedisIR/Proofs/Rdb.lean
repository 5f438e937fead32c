import RedisIR.Proofs.Lzf
import RedisIR.Proofs.Util

/-! What the RDB writers write, the RDB readers read, next to any other bytes; except that a
string whose compressed form is longer than an `int` can tell is written twice. -/

namespace RedisIR

open CLib Endian List Outcome

variable {s : Bytes} {value : ℤ}

/-! ### Lengths -/

theorem Appended.andThen_of_ne {w next : Appended} (h : w.ret ≠ -1) :
    w.andThen next = ⟨w.bytes ++ next.bytes, if next.ret = -1 then -1 else w.ret + next.ret⟩ :=
  if_neg h

theorem Appended.andThen_bytes {w next : Appended} (h : w.ret ≠ -1) :
    (w.andThen next).bytes = w.bytes ++ next.bytes := by
  rw [Appended.andThen_of_ne h]

theorem typeBits :
    ∀ type < 2, ∀ n < 64, ((UInt8.ofNat ((n &&& 0xFF) ||| (type <<< 6))).toNat &&& 0xC0) >>> 6 = type ∧
    (UInt8.ofNat ((n &&& 0xFF) ||| (type <<< 6))).toNat &&& 0x3F = n := by decide

theorem beVal_singleton (b : UInt8) : beVal [b] = b.toNat := by
  simp [beVal, leVal]

theorem rdbWriteRaw_ret {p : Bytes} (h : p.length < 2 ^ 31) : (rdbWriteRaw p).ret = p.length := by
  simp only [rdbWriteRaw]
  exact wrapInt_eq (by omega) (by omega)

theorem andThen_rdbWriteRaw {p q : Bytes} (hp : p.length < 2 ^ 31) (hq : q.length < 2 ^ 31) :
    (rdbWriteRaw p).andThen (rdbWriteRaw q) = ⟨p ++ q, p.length + q.length⟩ := by
  rw [Appended.andThen_of_ne (by rw [rdbWriteRaw_ret hp]; omega), rdbWriteRaw_ret hp, rdbWriteRaw_ret hq,
    if_neg (by omega)]
  rfl

theorem rdbSaveLen_ret (len : ℕ) :
    (rdbSaveLen len).ret = if len < 2 ^ 6 then 1 else if len < 2 ^ 14 then 2 else if len < 2 ^ 32 then 5 else 9 := by
  unfold rdbSaveLen UINT32_MAX
  simp only [Nat.one_shiftLeft, Nat.le_sub_one_iff_lt (show 0 < 2 ^ 32 by norm_num)]
  split_ifs with h6 h14 h32
  · exact rdbWriteRaw_ret (by simp)
  · exact rdbWriteRaw_ret (by simp)
  · rw [andThen_rdbWriteRaw (by simp) (by simp)]
    simp
  · rw [andThen_rdbWriteRaw (by simp) (by simp)]
    simp

theorem rdbLoadLenByRef_rdbSaveLen {len : ℕ} (h : len < 2 ^ 64) (rest : Bytes) :
    rdbLoadLenByRef ((rdbSaveLen len).bytes ++ rest) = .returned (some ((false, len), rest)) := by
  unfold rdbSaveLen UINT32_MAX
  simp only [Nat.one_shiftLeft]
  split_ifs with h6 h14 h32
  · obtain ⟨htype, hlen⟩ := typeBits RDB_6BITLEN (by decide) len h6
    simp only [rdbWriteRaw, singleton_append, rdbLoadLenByRef, htype, hlen]
    rfl
  · obtain ⟨htype, hlen⟩ :=
      typeBits RDB_14BITLEN (by decide) (len >>> 8) (by rw [Nat.shiftRight_eq_div_pow]; omega)
    have hlow : len &&& 0xFF = len % 256 := Nat.and_two_pow_sub_one_eq_mod len 8
    have hbyte : (UInt8.ofNat (len % 256)).toNat = len % 256 := UInt8.toNat_ofNat_of_lt' (Nat.mod_lt _ (by norm_num))
    have hjoin : (len >>> 8) <<< 8 ||| len % 256 = len := by
      rw [← Nat.shiftLeft_add_eq_or_of_lt (Nat.mod_lt _ (by norm_num)), Nat.shiftLeft_eq, Nat.shiftRight_eq_div_pow]
      omega
    simp only [rdbWriteRaw, cons_append, nil_append, rdbLoadLenByRef, htype, hlen]
    have hread : fread 1 (UInt8.ofNat (len &&& 0xFF) :: rest) = some ([UInt8.ofNat (len &&& 0xFF)], rest) :=
      fread_append [UInt8.ofNat (len &&& 0xFF)] rest
    rw [if_neg (by decide), if_neg (by decide), if_pos trivial, hread, Option.map_some, beVal_singleton, hlow,
      hbyte, hjoin]
  · have hread := fread_append (beBytes 4 len) rest
    rw [beBytes_length] at hread
    rw [Appended.andThen_of_ne (by decide)]
    simp only [rdbWriteRaw, cons_append, nil_append, rdbLoadLenByRef]
    rw [if_neg (by decide), if_neg (by decide), if_neg (by decide), if_pos trivial, hread, Option.map_some,
      beVal_beBytes_of_lt (by omega)]
  · have hread := fread_append (beBytes 8 len) rest
    rw [beBytes_length] at hread
    rw [Appended.andThen_of_ne (by decide)]
    simp only [rdbWriteRaw, cons_append, nil_append, rdbLoadLenByRef]
    rw [if_neg (by decide), if_neg (by decide), if_neg (by decide), if_neg (by decide), if_pos trivial, hread,
      Option.map_some, beVal_beBytes_of_lt (by omega)]

theorem rdbLoadLen_rdbSaveLen {len : ℕ} (h : len < 2 ^ 64) (rest : Bytes) :
    rdbLoadLen ((rdbSaveLen len).bytes ++ rest) = .returned ((false, len), rest) := by
  rw [rdbLoadLen, rdbLoadLenByRef_rdbSaveLen h]
  rfl

theorem rdbLoadLen_encByte {enctype : ℕ} (h : enctype < 64) (rest : Bytes) :
    rdbLoadLen (encByte enctype :: rest) = .returned ((true, enctype), rest) := by
  have hbits : ∀ n < 64, ((encByte n).toNat &&& 0xC0) >>> 6 = RDB_ENCVAL ∧ (encByte n).toNat &&& 0x3F = n := by
    decide
  obtain ⟨htype, hval⟩ := hbits enctype h
  simp only [rdbLoadLen, rdbLoadLenByRef, htype, hval, if_true]
  rfl

/-! ### Strings -/

theorem rdbSaveLen_ret_pos (len : ℕ) : 0 < (rdbSaveLen len).ret := by
  rw [rdbSaveLen_ret]
  split_ifs <;> norm_num

theorem rdbSaveVerbatim_bytes (s : Bytes) : (rdbSaveVerbatim s).bytes = (rdbSaveLen s.length).bytes ++ s := by
  have := rdbSaveLen_ret_pos s.length
  rw [rdbSaveVerbatim, Appended.andThen_bytes (by omega)]
  by_cases hpos : s.length > 0
  · rw [if_pos hpos]
  · rw [if_neg hpos, eq_nil_of_length_eq_zero (by omega : s.length = 0)]

variable (lzf : Lzf) (flags : LoadFlags)

theorem load_verbatim (h : s.length < 2 ^ 32) (rest : Bytes) :
    rdbGenericLoadStringObject lzf flags ((rdbSaveVerbatim s).bytes ++ rest) = .returned (some (.string s, rest)) := by
  rw [rdbSaveVerbatim_bytes, append_assoc, rdbGenericLoadStringObject, rdbLoadLen_rdbSaveLen (by omega),
    bind_returned]
  simp only [Bool.false_eq_true, if_false]
  rw [if_neg (by unfold RDB_LENERR; omega)]
  split_ifs with h0
  · rw [eq_nil_of_length_eq_zero h0]
    rfl
  · rw [fread_append]
    rfl

theorem decimal_length_lt_of_fits (h : -2 ^ 31 ≤ value ∧ value < 2 ^ 31) :
    (decimal value).length < LONG_STR_SIZE := by
  have := decimal_length_le (i := value) (by omega) (by omega)
  unfold LONG_STR_SIZE
  omega

theorem load_integer {enctype w : ℕ}
    (hform : enctype = RDB_ENC_INT8 ∧ w = 1 ∨ enctype = RDB_ENC_INT16 ∧ w = 2 ∨
      enctype = RDB_ENC_INT32 ∧ w = 4)
    (hfits : Fits w value) (hint : -2 ^ 31 ≤ value ∧ value < 2 ^ 31) (rest : Bytes) :
    ∃ o, rdbGenericLoadStringObject lzf flags (encByte enctype :: intBytes w value ++ rest) =
        .returned (some (o, rest)) ∧ o.text = decimal value := by
  have hread := fread_append (intBytes w value) rest
  rw [intBytes_length] at hread
  refine ⟨if flags.plain || flags.sds then .string (ll2string LONG_STR_SIZE value)
    else if flags.encode then .integer value else .string (decimal value), ?_, ?_⟩
  · have hlt : enctype < 64 := by
      rcases hform with h | h | h <;> rw [h.1] <;> decide
    rw [cons_append, rdbGenericLoadStringObject, rdbLoadLen_encByte hlt, bind_returned]
    simp only [if_true]
    rcases hform with ⟨rfl, rfl⟩ | ⟨rfl, rfl⟩ | ⟨rfl, rfl⟩
    · rw [if_pos (.inl rfl), rdbLoadIntegerObject, if_pos rfl, hread, Option.map_some, intVal_intBytes hfits]
    · rw [if_pos (.inr (.inl rfl)), rdbLoadIntegerObject, if_neg (by decide), if_pos rfl, hread, Option.map_some,
        intVal_intBytes hfits]
    · rw [if_pos (.inr (.inr rfl)), rdbLoadIntegerObject, if_neg (by decide), if_neg (by decide), if_pos rfl, hread,
        Option.map_some, intVal_intBytes hfits]
  · split_ifs
    · exact ll2string_eq (decimal_length_lt_of_fits hint)
    · rfl
    · rfl

theorem load_rdbEncodeInteger (h : rdbEncodeInteger value ≠ []) (rest : Bytes) :
    ∃ o, rdbGenericLoadStringObject lzf flags (rdbEncodeInteger value ++ rest) = .returned (some (o, rest)) ∧
      o.text = decimal value := by
  unfold rdbEncodeInteger at h ⊢
  split_ifs at h ⊢ with h8 h16 h32
  · exact load_integer lzf flags (.inl ⟨rfl, rfl⟩) (by unfold Fits; omega) (by omega) rest
  · exact load_integer lzf flags (.inr (.inl ⟨rfl, rfl⟩)) (by unfold Fits; omega) (by omega) rest
  · exact load_integer lzf flags (.inr (.inr ⟨rfl, rfl⟩)) (by unfold Fits; omega) (by omega) rest
  · exact absurd rfl h

theorem rdbTryIntegerEncoding_eq {mem : Bytes} (h : rdbTryIntegerEncoding s mem ≠ []) :
    ∃ value, s = decimal value ∧ rdbTryIntegerEncoding s mem = rdbEncodeInteger value := by
  unfold rdbTryIntegerEncoding at h ⊢
  simp only at h ⊢
  split_ifs at h ⊢ with hend hbuf
  · exact absurd rfl h
  · exact absurd rfl h
  · generalize hvalue : strtol (cstr (s ++ mem)).val = value at h hbuf ⊢
    have hrange : -2 ^ 63 ≤ value ∧ value < 2 ^ 63 := by
      rw [← hvalue]
      unfold strtol
      split <;> omega
    have hlen := decimal_length_le hrange.1 hrange.2
    refine ⟨value, ?_, rfl⟩
    have heq : ll2string 32 value = s := by_contra fun hne => hbuf (.inr hne)
    rw [← heq, ll2string_eq (by omega)]

theorem rdbSaveLzfBlob_eq (data : Bytes) (originalLen : ℕ) : rdbSaveLzfBlob data originalLen =
      ⟨encByte RDB_ENC_LZF :: ((rdbSaveLen data.length).bytes ++ ((rdbSaveLen originalLen).bytes ++ data)),
        if wrapInt data.length = -1 then -1
        else 1 + (rdbSaveLen data.length).ret + (rdbSaveLen originalLen).ret + wrapInt data.length⟩ := by
  have h1 := rdbSaveLen_ret_pos data.length
  have h2 := rdbSaveLen_ret_pos originalLen
  have hbyte : (rdbWriteRaw [encByte RDB_ENC_LZF]).ret = 1 := rdbWriteRaw_ret (by simp)
  have ha : (rdbWriteRaw [encByte RDB_ENC_LZF]).andThen (rdbSaveLen data.length) =
      ⟨encByte RDB_ENC_LZF :: (rdbSaveLen data.length).bytes, 1 + (rdbSaveLen data.length).ret⟩ := by
    rw [Appended.andThen_of_ne (by omega), hbyte, if_neg (by omega)]
    rfl
  have hb : (⟨encByte RDB_ENC_LZF :: (rdbSaveLen data.length).bytes, 1 + (rdbSaveLen data.length).ret⟩ :
      Appended).andThen (rdbSaveLen originalLen) =
      ⟨encByte RDB_ENC_LZF :: (rdbSaveLen data.length).bytes ++ (rdbSaveLen originalLen).bytes,
        1 + (rdbSaveLen data.length).ret + (rdbSaveLen originalLen).ret⟩ := by
    rw [Appended.andThen_of_ne (by simp only; omega), if_neg (by omega)]
  rw [rdbSaveLzfBlob, ha, hb, Appended.andThen_of_ne (by simp only; omega)]
  have hdata : (rdbWriteRaw data).bytes = data ∧ (rdbWriteRaw data).ret = wrapInt data.length := by
    simp [rdbWriteRaw, and_self]
  rw [hdata.1, hdata.2, cons_append, cons_append, append_assoc]

theorem load_rdbSaveLzfBlob (h : s.length < 2 ^ 32) {outlen : ℕ} (hout : outlen < 2 ^ 32)
    (hc : lzf.compress s outlen ≠ []) (rest : Bytes) :
    rdbGenericLoadStringObject lzf flags ((rdbSaveLzfBlob (lzf.compress s outlen) s.length).bytes ++ rest) =
      .returned (some (.string s, rest)) := by
  have hle := lzf.compress_le s outlen
  rw [rdbSaveLzfBlob_eq, cons_append, rdbGenericLoadStringObject, rdbLoadLen_encByte (by decide),
    bind_returned]
  simp only [if_true]
  rw [if_neg (by decide), rdbLoadLzfStringObject, append_assoc, rdbLoadLen_rdbSaveLen (by omega),
    bind_returned]
  simp only
  rw [if_neg (by unfold RDB_LENERR; omega), append_assoc, rdbLoadLen_rdbSaveLen (by omega), bind_returned]
  simp only
  rw [if_neg (by unfold RDB_LENERR; omega), fread_append, Option.bind_some, lzf.decompress_compress s outlen hc]
  rfl

/-- A compressed form whose size the return value cannot tell: as an `int` it is negative, and
so is the sum, which is not the -1 of an error either. -/
def Untold (clen : ℕ) : Prop := 2 ^ 31 ≤ clen ∧ clen + 11 ≤ 2 ^ 32 ∧ clen + 12 ≠ 2 ^ 32

instance (clen : ℕ) : Decidable (Untold clen) := inferInstanceAs (Decidable (_ ∧ _))

theorem wrapInt_of_ge {n : ℕ} (h : 2 ^ 31 ≤ n) (hn : n < 2 ^ 32) : wrapInt n = n - 2 ^ 32 := by
  have hdvd := (wrapInt_eq_iff n ((n : ℤ) - 2 ^ 32)).mpr (by norm_num)
  rw [hdvd, wrapInt_eq (by omega) (by omega)]

theorem untold_iff {c : Bytes} (h : s.length < 2 ^ 32) (hc : c.length + 4 ≤ s.length) :
    Untold c.length ↔ (rdbSaveLzfBlob c s.length).ret ≠ -1 ∧ (rdbSaveLzfBlob c s.length).ret ≤ 0 := by
  rw [rdbSaveLzfBlob_eq]
  simp only [Untold]
  by_cases hbig : 2 ^ 31 ≤ c.length
  · have hlen : ∀ n : ℕ, 2 ^ 31 ≤ n → n < 2 ^ 32 → (rdbSaveLen n).ret = 5 := by
      intro n h1 h2
      rw [rdbSaveLen_ret, if_neg (by omega), if_neg (by omega), if_pos h2]
    rw [wrapInt_of_ge hbig (by omega), hlen _ hbig (by omega), hlen _ (by omega) h, if_neg (by omega)]
    omega
  · have h1 := rdbSaveLen_ret_pos c.length
    have h2 := rdbSaveLen_ret_pos s.length
    rw [wrapInt_eq (by omega) (by omega), if_neg (by omega)]
    omega

theorem rdbSaveRawString_cases (rdbCompression : Bool) (s mem : Bytes) (h : s.length < 2 ^ 32) :
    (∃ value, s = decimal value ∧ rdbEncodeInteger value ≠ [] ∧ s.length ≤ 11 ∧
        (rdbSaveRawString lzf rdbCompression s mem).bytes = rdbEncodeInteger value) ∨
      (rdbSaveRawString lzf rdbCompression s mem).bytes = (rdbSaveVerbatim s).bytes ∧
        ¬ (rdbCompression = true ∧ 20 < s.length ∧ lzf.compress s (s.length - 4) ≠ []) ∨
      rdbCompression = true ∧ 20 < s.length ∧ lzf.compress s (s.length - 4) ≠ [] ∧
        (rdbSaveRawString lzf rdbCompression s mem).bytes =
          (rdbSaveLzfBlob (lzf.compress s (s.length - 4)) s.length).bytes ++
            if Untold (lzf.compress s (s.length - 4)).length then (rdbSaveVerbatim s).bytes else [] := by
  unfold rdbSaveRawString
  simp only
  by_cases henc : (if s.length ≤ 11 then rdbTryIntegerEncoding s mem else []) ≠ []
  · rw [if_pos henc]
    by_cases hlen : s.length ≤ 11
    · rw [if_pos hlen] at henc ⊢
      obtain ⟨value, hs, heq⟩ := rdbTryIntegerEncoding_eq henc
      exact .inl ⟨value, hs, heq ▸ henc, hlen, heq⟩
    · rw [if_neg hlen] at henc
      exact absurd rfl henc
  · rw [if_neg henc]
    right
    by_cases hcompr : rdbCompression = true ∧ s.length > 20
    · rw [if_pos hcompr, rdbSaveLzfStringObject, if_neg (by omega : ¬ s.length ≤ 4)]
      by_cases hout : lzf.compress s (s.length - 4) = []
      · left
        simp [hout]
      · have hle := lzf.compress_le s (s.length - 4)
        have hiff := untold_iff h (c := lzf.compress s (s.length - 4)) (by omega)
        right
        refine ⟨hcompr.1, hcompr.2, hout, ?_⟩
        simp only [if_neg hout]
        generalize rdbSaveLzfBlob (lzf.compress s (s.length - 4)) s.length = blob at hiff ⊢
        by_cases herr : blob.ret = -1
        · rw [if_pos herr, if_neg fun hu => (hiff.mp hu).1 herr, append_nil]
        · rw [if_neg herr]
          by_cases hpos : blob.ret > 0
          · rw [if_pos hpos, if_neg fun hu => absurd (hiff.mp hu).2 (by omega), append_nil]
          · rw [if_neg hpos, if_pos (hiff.mpr ⟨herr, by omega⟩)]
    · left
      rw [if_neg hcompr]
      exact ⟨rfl, fun hall => hcompr ⟨hall.1, hall.2.1⟩⟩

theorem rdbSaveLen_bytes_ne_nil (len : ℕ) : (rdbSaveLen len).bytes ≠ [] := by
  unfold rdbSaveLen
  split_ifs
  · simp [rdbWriteRaw]
  · simp [rdbWriteRaw]
  · rw [Appended.andThen_bytes (by decide)]
    simp [rdbWriteRaw]
  · rw [Appended.andThen_bytes (by decide)]
    simp [rdbWriteRaw]

theorem load_rdbSaveRawString_iff (rdbCompression : Bool) (mem : Bytes) (hs : s.length < 2 ^ 32) (rest : Bytes) :
    (∃ o, rdbGenericLoadStringObject lzf flags ((rdbSaveRawString lzf rdbCompression s mem).bytes ++ rest) =
        .returned (some (o, rest)) ∧ o.text = s) ↔
      ¬ (rdbCompression = true ∧ 20 < s.length ∧ Untold (lzf.compress s (s.length - 4)).length) := by
  rcases rdbSaveRawString_cases lzf rdbCompression s mem hs with
    ⟨value, hvalue, henc, hlen, hbytes⟩ | ⟨hbytes, hnot⟩ | ⟨hcompr, hlen, hout, hbytes⟩
  · rw [hbytes]
    obtain ⟨o, hload, htext⟩ := load_rdbEncodeInteger lzf flags henc rest
    exact iff_of_true ⟨o, hload, htext.trans hvalue.symm⟩ (by omega)
  · rw [hbytes]
    refine iff_of_true ⟨_, load_verbatim lzf flags hs rest, rfl⟩ ?_
    intro h
    refine hnot ⟨h.1, h.2.1, ?_⟩
    intro hnil
    rw [hnil] at h
    exact absurd h.2.2.1 (by decide)
  · rw [hbytes, append_assoc, load_rdbSaveLzfBlob lzf flags hs (by omega) hout]
    split_ifs with huntold
    · refine iff_of_false ?_ (not_not.mpr ⟨hcompr, hlen, huntold⟩)
      intro h
      obtain ⟨o, ho, -⟩ := h
      have hrest : (rdbSaveVerbatim s).bytes ++ rest = rest := by
        have := Outcome.returned.inj ho
        simp only [Option.some.injEq, Prod.mk.injEq] at this
        exact this.2
      rw [append_left_eq_self, rdbSaveVerbatim_bytes] at hrest
      exact rdbSaveLen_bytes_ne_nil _ (append_eq_nil_iff.mp hrest).1
    · exact iff_of_true ⟨_, rfl, rfl⟩ fun h => huntold h.2.2

theorem load_rdbSaveLongLongAsStringObject (h1 : LLONG_MIN ≤ value) (h2 : value ≤ LLONG_MAX) (rest : Bytes) :
    ∃ o, rdbGenericLoadStringObject lzf flags ((rdbSaveLongLongAsStringObject value).bytes ++ rest) =
      .returned (some (o, rest)) ∧ o.text = decimal value := by
  unfold LLONG_MAX at h2
  have hlen := decimal_length_le (i := value) h1 (by omega)
  unfold rdbSaveLongLongAsStringObject
  simp only
  split_ifs with henc
  · exact load_rdbEncodeInteger lzf flags henc rest
  · have hpos := rdbSaveLen_ret_pos (ll2string 32 value).length
    rw [Appended.andThen_bytes (by omega)]
    have hload := load_verbatim lzf flags (s := ll2string 32 value) (by rw [ll2string_eq (by omega)]; omega) rest
    rw [rdbSaveVerbatim_bytes] at hload
    exact ⟨_, hload, ll2string_eq (by omega)⟩

/-- Lengths, strings and integers are read back, and exactly what was written is read, with
one exception: a string whose compressed form is so long that its size is negative as an `int` is
stored once more verbatim, and that stays unread. -/
theorem rdb_round_trip_iff (lzf : Lzf) (flags : LoadFlags) (rest : Bytes) :
    (∀ len < 2 ^ 64, rdbLoadLenByRef ((rdbSaveLen len).bytes ++ rest) = .returned (some ((false, len), rest))) ∧
      (∀ (rdbCompression : Bool) (s mem : Bytes), s.length < 2 ^ 32 →
        ((∃ o, rdbGenericLoadStringObject lzf flags ((rdbSaveRawString lzf rdbCompression s mem).bytes ++ rest) =
            .returned (some (o, rest)) ∧ o.text = s) ↔
          ¬ (rdbCompression = true ∧ 20 < s.length ∧ Untold (lzf.compress s (s.length - 4)).length))) ∧
      ∀ value, LLONG_MIN ≤ value → value ≤ LLONG_MAX →
        ∃ o, rdbGenericLoadStringObject lzf flags ((rdbSaveLongLongAsStringObject value).bytes ++ rest) =
          .returned (some (o, rest)) ∧ o.text = decimal value := by
  refine ⟨?_, ?_, ?_⟩
  · intro len hlen
    exact rdbLoadLenByRef_rdbSaveLen hlen rest
  · intro rdbCompression s mem hs
    exact load_rdbSaveRawString_iff lzf flags rdbCompression mem hs rest
  · intro value h1 h2
    exact load_rdbSaveLongLongAsStringObject lzf flags h1 h2 rest

/-- A compressible string of more than twenty bytes comes back, the compressed form alone being
written. -/
theorem rdb_round_trip_zeros : (List.replicate 30 (0 : UInt8)).length < 2 ^ 32 ∧
      ∃ o, rdbGenericLoadStringObject (liblzf fun _ => 0) ⟨false, false, false⟩
        ((rdbSaveRawString (liblzf fun _ => 0) true (List.replicate 30 0) [0]).bytes ++ [7]) =
          .returned (some (o, [7])) ∧ o.text = List.replicate 30 0 := by
  refine ⟨by decide, ?_⟩
  refine ((rdb_round_trip_iff (liblzf fun _ => 0) ⟨false, false, false⟩ [7]).2.1 true _ [0] (by decide)).mpr ?_
  have hcompress : (liblzf fun _ => 0).compress (List.replicate 30 0) (30 - 4) = [1, 0, 0, 224, 17, 0, 1, 0, 0] := by
    decide +kernel
  rw [length_replicate, hcompress]
  decide

theorem counters_not_loaded (htab : ℕ → ℕ) {k m : ℕ} (hlen : 32 * k + 264 * m + 34 < 2 ^ 32)
    (hroom : 33 * k + 3 * m + 37 ≤ 32 * k + 264 * m + 30) (hbig : 2 ^ 31 ≤ 33 * k + 3 * m + 36) :
    ¬ ∃ o, rdbGenericLoadStringObject (liblzf htab) ⟨false, false, false⟩
      ((rdbSaveRawString (liblzf htab) true (twoParts k m) [0]).bytes ++ []) = .returned (some (o, [])) ∧
        o.text = twoParts k m := by
  have hs := length_twoParts (k := k) (m := m)
  have hclen : ((liblzf htab).compress (twoParts k m) (32 * k + 264 * m + 34 - 4)).length = _ :=
    length_lzfCompress_counters htab (by omega)
  rw [load_rdbSaveRawString_iff (liblzf htab) _ true [0] (by omega) [], hs, not_not, hclen]
  exact ⟨rfl, by omega, by unfold Untold; omega⟩

/-- A string that packs to more than two gigabytes is written twice: 2,099,999,999 bytes in which
nothing comes back within reach, before 79,200,003 zeros. -/
theorem long_string_written_twice : (twoParts 65624999 300000).length = 2179200002 ∧
      ∀ htab, ¬ ∃ o, rdbGenericLoadStringObject (liblzf htab) ⟨false, false, false⟩
        ((rdbSaveRawString (liblzf htab) true (twoParts 65624999 300000) [0]).bytes ++ []) =
          .returned (some (o, [])) ∧ o.text = twoParts 65624999 300000 := by
  refine ⟨length_twoParts, fun htab => ?_⟩
  exact counters_not_loaded htab (by norm_num) (by norm_num) (by norm_num)

end RedisIR
