import RedisIR.Proofs.Util
import RedisIR.Spec.Ziplist

/-! The entries of a ziplist: how one is read, how they lie in the block, and what happens to
them when the length of one has changed. -/

namespace RedisIR

open Memory CLib Endian Positions List Option

variable {s : Bytes} {encoding : UInt8} {v : ℤ}

/-! ### One entry -/

/-- What the readers find at an entry behind its `prevlen`. -/
def zipLoad (zl : Bytes) (p : ℕ) (encoding : UInt8) (len : ℕ) : Option ZipValue :=
  if zipIsStr encoding then (Memory.read zl p len).map .string else (zipLoadInteger zl p encoding).map .integer

/-- The bytes `body` are read as a value, wherever they lie and whatever follows them. -/
def ZipReads (body : Bytes) (v : ZipValue) : Prop :=
  ∃ encoding lensize len, lensize + len = body.length ∧ ∀ pre rest : Bytes,
    zipDecodeLength (pre ++ (body ++ rest)) pre.length = some (encoding, lensize, len) ∧
      zipLoad (pre ++ (body ++ rest)) (pre.length + lensize) encoding len = some v

theorem zipStr06_byte :
    ∀ n < 64, zipEntryEncoding (UInt8.ofNat n) = ZIP_STR_06B ∧ (UInt8.ofNat n).toNat &&& 0x3f = n := by
  decide

theorem zipStr14_byte : ∀ n < 64, zipEntryEncoding (UInt8.ofNat (0x40 ||| (n &&& 0x3f))) = ZIP_STR_14B ∧
    (UInt8.ofNat (0x40 ||| (n &&& 0x3f))).toNat &&& 0x3f = n := by decide

theorem zipLoad_string {encoding : UInt8} (henc : zipIsStr encoding) (pre len s rest : Bytes) :
    zipLoad (pre ++ (len ++ s ++ rest)) (pre.length + len.length) encoding s.length = some (.string s) := by
  have hread : Memory.read (pre ++ (len ++ s ++ rest)) (pre.length + len.length) s.length = some s := by
    rw [read_append_right]
    exact read_append rfl rfl
  rw [zipLoad, if_pos henc, hread, map_some]

theorem zipStr06_reads (h : s.length ≤ 0x3f) : ZipReads ([UInt8.ofNat s.length] ++ s) (.string s) := by
  obtain ⟨henc, hlen⟩ := zipStr06_byte s.length (by omega)
  refine ⟨ZIP_STR_06B, 1, s.length, by simp; omega, ?_⟩
  intro pre rest
  refine ⟨?_, zipLoad_string (by decide) pre [_] s rest⟩
  rw [append_assoc, singleton_append, zipDecodeLength, getElem?_at, bind_some, henc, hlen]
  rfl

theorem zipStr14_reads (h : s.length ≤ 0x3fff) :
    ZipReads ([UInt8.ofNat (0x40 ||| (s.length >>> 8 &&& 0x3f)), UInt8.ofNat (s.length &&& 0xff)] ++ s)
      (.string s) := by
  have hhigh : s.length >>> 8 < 64 := by
    rw [Nat.shiftRight_eq_div_pow]
    omega
  obtain ⟨henc, hval⟩ := zipStr14_byte _ hhigh
  refine ⟨ZIP_STR_14B, 2, s.length, by simp; omega, ?_⟩
  intro pre rest
  refine ⟨?_, zipLoad_string (by decide) pre [_, _] s rest⟩
  have hsecond : ∀ (b b' : UInt8) (t : Bytes), (pre ++ (b :: b' :: t))[pre.length + 1]? = some b' :=
    fun b b' t => getElem?_append_length pre (b :: b' :: t) 1
  rw [append_assoc, cons_append, singleton_append, zipDecodeLength, getElem?_at, bind_some, henc]
  simp only [hsecond, map_some, hval, low_byte, join_byte]
  rfl

theorem zipStr32_reads (h : s.length < 2 ^ 32) : ZipReads ((ZIP_STR_32B :: beBytes 4 s.length) ++ s) (.string s) := by
  refine ⟨ZIP_STR_32B, 5, s.length, by simp; omega, ?_⟩
  intro pre rest
  refine ⟨?_, ?_⟩
  · rw [append_assoc, cons_append, zipDecodeLength, getElem?_at, bind_some]
    change (Memory.read _ _ _).map _ = _
    rw [read_behind _ _ _ _ (beBytes_length _ _), map_some, beVal_beBytes_of_lt h]
    rfl
  · have hload := @zipLoad_string ZIP_STR_32B (by decide) pre (ZIP_STR_32B :: beBytes 4 s.length) s rest
    rwa [length_cons, beBytes_length] at hload

theorem zipString_reads (h : s.length < 2 ^ 32) : ZipReads (zipStoreEntryEncoding 0 s.length ++ s) (.string s) := by
  rw [zipStoreEntryEncoding, if_pos (by decide)]
  split_ifs with h6 h14
  · exact zipStr06_reads h6
  · exact zipStr14_reads h14
  · exact zipStr32_reads h

theorem zipWord_reads {bs : Bytes} (hint : zipEntryEncoding encoding = encoding) (hstr : zipIsStr encoding = false)
    (hmask : ¬ encoding < ZIP_STR_MASK) (hsize : zipIntSize encoding = some bs.length)
    (hload : ∀ pre rest : Bytes, zipLoadInteger (pre ++ (encoding :: (bs ++ rest)))
    (pre.length + 1) encoding = some v) :
    ZipReads ([encoding] ++ bs) (.integer v) := by
  refine ⟨encoding, 1, bs.length, by simp; omega, ?_⟩
  intro pre rest
  rw [append_assoc, singleton_append]
  refine ⟨?_, ?_⟩
  · rw [zipDecodeLength, getElem?_at, bind_some, hint]
    simp [if_neg hmask, hsize, map_some]
  · rw [zipLoad, if_neg (by simp [hstr]), hload, map_some]

theorem intBytes_shift (v : ℤ) : 0 :: (intBytes 4 (v * 2 ^ 8)).drop 1 = intBytes 4 (v * 2 ^ 8) := by
  have hbyte : UInt8.ofNat (v * 2 ^ 8 % 256 ^ 4).toNat = 0 := by
    apply UInt8.toNat_inj.mp
    rw [UInt8.toNat_ofNat']
    change _ = 0
    omega
  rw [intBytes, leBytes, hbyte]
  rfl

theorem zipImm_byte :
    ∀ n < 13, zipEntryEncoding (ZIP_INT_IMM_MIN + UInt8.ofNat n) = ZIP_INT_IMM_MIN + UInt8.ofNat n ∧
    zipIsStr (ZIP_INT_IMM_MIN + UInt8.ofNat n) = false ∧ ¬ ZIP_INT_IMM_MIN + UInt8.ofNat n < ZIP_STR_MASK ∧
    zipIntSize (ZIP_INT_IMM_MIN + UInt8.ofNat n) = some 0 := by decide

theorem zipImm_reads {n : ℕ} (hn : n < 13) : zipSaveInteger n (ZIP_INT_IMM_MIN + UInt8.ofNat n) = some [] ∧
      ZipReads ([ZIP_INT_IMM_MIN + UInt8.ofNat n] ++ []) (.integer n) := by
  obtain ⟨h1, h2, h3, h4⟩ := zipImm_byte n hn
  refine ⟨by interval_cases n <;> rfl, zipWord_reads h1 h2 h3 h4 ?_⟩
  intro pre rest
  interval_cases n <;> rfl

theorem zipInt_reads {w : ℕ} (hfits : Fits w v)
    (hload : ∀ zl p, zipLoadInteger zl p encoding = (Memory.read zl p w).map intVal)
    (hsize : zipIntSize encoding = some w) (hint : zipEntryEncoding encoding = encoding)
    (hstr : zipIsStr encoding = false) (hmask : ¬ encoding < ZIP_STR_MASK) :
    ZipReads ([encoding] ++ intBytes w v) (.integer v) := by
  refine zipWord_reads hint hstr hmask (by rw [intBytes_length, hsize]) ?_
  intro pre rest
  rw [hload, read_behind _ _ _ _ (intBytes_length _ _), map_some, intVal_intBytes hfits]

theorem zipInt24_reads (hfits : Fits 3 v) :
    ZipReads ([ZIP_INT_24B] ++ (intBytes 4 (v * 2 ^ 8)).drop 1) (.integer v) := by
  have hlen : ((intBytes 4 (v * 2 ^ 8)).drop 1).length = 3 := by
    rw [length_drop, intBytes_length]
  refine zipWord_reads (by decide) (by decide) (by decide) (by rw [hlen]; rfl) ?_
  intro pre rest
  have hload :
    ∀ zl p, zipLoadInteger zl p ZIP_INT_24B = (Memory.read zl p 3).map fun bs => intVal (0 :: bs) / 2 ^ 8 :=
    fun _ _ => rfl
  have hfits' : Fits 4 (v * 2 ^ 8) := by
    unfold Fits at hfits ⊢
    omega
  rw [hload, read_behind _ _ _ _ hlen, map_some, intBytes_shift, intVal_intBytes hfits',
    Int.mul_ediv_cancel _ (by norm_num)]

theorem zipInteger_reads (h1 : LLONG_MIN ≤ v) (h2 : v ≤ LLONG_MAX) :
    ∃ bs, zipSaveInteger v (zipIntEncoding v) = some bs ∧ zipIsStr (zipIntEncoding v) = false ∧
      ZipReads ([zipIntEncoding v] ++ bs) (.integer v) := by
  unfold LLONG_MIN at h1
  unfold LLONG_MAX at h2
  unfold zipIntEncoding
  split
  case isTrue himm =>
    obtain ⟨n, rfl⟩ := Int.eq_ofNat_of_zero_le himm.1
    rw [Int.toNat_natCast]
    obtain ⟨hsave, hreads⟩ := zipImm_reads (n := n) (by omega)
    exact ⟨[], hsave, (zipImm_byte n (by omega)).2.1, hreads⟩
  split
  · exact ⟨intBytes 1 v, rfl, by decide,
      zipInt_reads (by unfold Fits; omega) (fun _ _ => rfl) rfl rfl rfl (by decide)⟩
  split
  · exact ⟨intBytes 2 v, rfl, by decide,
      zipInt_reads (by unfold Fits; omega) (fun _ _ => rfl) rfl rfl rfl (by decide)⟩
  split
  · exact ⟨_, rfl, by decide, zipInt24_reads (by unfold Fits; omega)⟩
  split
  · exact ⟨intBytes 4 v, rfl, by decide,
      zipInt_reads (by unfold Fits; omega) (fun _ _ => rfl) rfl rfl rfl (by decide)⟩
  exact ⟨intBytes 8 v, rfl, by decide,
    zipInt_reads (by unfold Fits; omega) (fun _ _ => rfl) rfl rfl rfl (by decide)⟩

/-- The value of an element, as `ziplistGet` finds it. -/
def zipValue (s : Bytes) : ZipValue := (zipTryEncoding s).elim (.string s) fun r => .integer r.1

theorem zipTryEncoding_eq_some (h : zipTryEncoding s = some (v, encoding)) :
    LLONG_MIN ≤ v ∧ v ≤ LLONG_MAX ∧ s = decimal v ∧ encoding = zipIntEncoding v := by
  unfold zipTryEncoding at h
  split_ifs at h
  rw [map_eq_some_iff] at h
  obtain ⟨v', hv', heq⟩ := h
  obtain ⟨rfl, rfl⟩ := Prod.mk.inj heq
  rw [string2ll_eq_some_iff] at hv'
  exact ⟨hv'.1, hv'.2.1, hv'.2.2, rfl⟩

theorem zipValue_print (s : Bytes) : (zipValue s).print = s := by
  unfold zipValue
  cases hv : zipTryEncoding s with
  | none => rfl
  | some r =>
    obtain ⟨v, encoding⟩ := r
    exact (zipTryEncoding_eq_some hv).2.2.1.symm

/-- The bytes of an element behind its `prevlen`. -/
def zipBody (s : Bytes) : Bytes := (zipEntryBody s).getD []

theorem zipEntryBody_spec (h : s.length < 2 ^ 32) :
    zipEntryBody s = some (zipBody s) ∧ ZipReads (zipBody s) (zipValue s) := by
  unfold zipBody zipEntryBody zipValue
  cases hv : zipTryEncoding s with
  | none => exact ⟨rfl, zipString_reads h⟩
  | some r =>
    obtain ⟨v, encoding⟩ := r
    obtain ⟨h1, h2, -, rfl⟩ := zipTryEncoding_eq_some hv
    obtain ⟨bs, hsave, hstr, hreads⟩ := zipInteger_reads h1 h2
    have henc : zipStoreEntryEncoding (zipIntEncoding v) s.length = [zipIntEncoding v] := by
      rw [zipStoreEntryEncoding, if_neg (by simp [hstr])]
    simp only [hsave, henc, map_some, getD_some, elim_some]
    exact ⟨trivial, hreads⟩

theorem length_lt_of_zipBody {k : ℕ} (hk : 32 ≤ k) (h : (zipBody s).length < k) : s.length < k := by
  unfold zipBody zipEntryBody at h
  cases hv : zipTryEncoding s with
  | none =>
    rw [hv] at h
    simp only [getD_some, length_append] at h
    omega
  | some r =>
    unfold zipTryEncoding at hv
    split_ifs at hv with hlen
    omega

/-! ### Entries -/

/-- An entry: the length of the one before it, in the long or in the short form, and its bytes
behind that. -/
structure ZEntry where
  large : Bool
  prevlen : ℕ
  body : Bytes
  deriving DecidableEq

def zipPrevField (large : Bool) (prevlen : ℕ) : Bytes :=
  if large then zipStorePrevEntryLengthLarge prevlen else [UInt8.ofNat prevlen]

def zipPrevSize (large : Bool) : ℕ := if large then 5 else 1

@[simp] theorem zipPrevSize_true : zipPrevSize true = 5 := rfl

@[simp] theorem zipPrevSize_false : zipPrevSize false = 1 := rfl

theorem zipPrevField_length (large : Bool) (prevlen : ℕ) :
    (zipPrevField large prevlen).length = zipPrevSize large := by
  unfold zipPrevField zipPrevSize zipStorePrevEntryLengthLarge
  split_ifs
  · rw [length_cons, leBytes_length]
  · rfl

theorem zipStorePrevEntryLength_eq (len : ℕ) :
    zipStorePrevEntryLength len = zipPrevField (ZIP_BIG_PREVLEN ≤ len) len := by
  unfold zipStorePrevEntryLength zipPrevField
  by_cases h : len < ZIP_BIG_PREVLEN
  · rw [if_pos h, if_neg (by simpa using h)]
  · rw [if_neg h, if_pos (by simpa using h)]

namespace ZEntry

variable {e : ZEntry}

def code (e : ZEntry) : Bytes := zipPrevField e.large e.prevlen ++ e.body

def raw (e : ZEntry) : ℕ := zipPrevSize e.large + e.body.length

@[simp] theorem code_length (e : ZEntry) : e.code.length = e.raw := by
  rw [code, length_append, zipPrevField_length, raw]

/-- The short form is used for small lengths only, and the bytes behind it can be read. -/
structure Ok (e : ZEntry) : Prop where
  small : e.large = false → e.prevlen < ZIP_BIG_PREVLEN
  lt : e.prevlen < 2 ^ 32
  reads : ∃ v, ZipReads e.body v

theorem Ok.head (h : Ok e) (pre rest : Bytes) :
    ∃ b : UInt8, (pre ++ (e.code ++ rest))[pre.length]? = some b ∧ b ≠ ZIP_END ∧
      (if b.toNat < ZIP_BIG_PREVLEN then 1 else 5) = zipPrevSize e.large := by
  obtain ⟨large, prevlen, body⟩ := e
  cases large with
  | false =>
    have hlt : prevlen < 254 := h.small rfl
    have hval : (UInt8.ofNat prevlen).toNat = prevlen := UInt8.toNat_ofNat_of_lt' (show prevlen < 256 by omega)
    refine ⟨UInt8.ofNat prevlen, getElem?_at _ _ _, ?_, ?_⟩
    · intro heq
      have htop : prevlen = 255 := by
        rw [← hval, heq]
        rfl
      omega
    · rw [hval, if_pos (show prevlen < ZIP_BIG_PREVLEN from hlt)]
      rfl
  | true => exact ⟨254, getElem?_at _ _ _, by decide, rfl⟩

theorem Ok.zipDecodePrevlensize_eq (h : Ok e) (pre rest : Bytes) :
    zipDecodePrevlensize (pre ++ (e.code ++ rest)) pre.length = some (zipPrevSize e.large) := by
  obtain ⟨b, hb, -, hsize⟩ := h.head pre rest
  rw [zipDecodePrevlensize, hb, map_some, hsize]

theorem Ok.zipDecodePrevlen_eq (h : Ok e) (pre rest : Bytes) :
    zipDecodePrevlen (pre ++ (e.code ++ rest)) pre.length = some (zipPrevSize e.large, e.prevlen) := by
  obtain ⟨large, prevlen, body⟩ := e
  cases large with
  | false =>
    have hlt : prevlen < 254 := h.small rfl
    have hval : (UInt8.ofNat prevlen).toNat = prevlen := UInt8.toNat_ofNat_of_lt' (show prevlen < 256 by omega)
    have hcode : code ⟨false, prevlen, body⟩ ++ rest = UInt8.ofNat prevlen :: (body ++ rest) := rfl
    rw [hcode, zipDecodePrevlen, getElem?_at, bind_some, hval, if_pos (show prevlen < ZIP_BIG_PREVLEN from hlt)]
    rfl
  | true =>
    have hcode : code ⟨true, prevlen, body⟩ ++ rest = 254 :: (leBytes 4 prevlen ++ (body ++ rest)) := by
      simp [code, zipPrevField, zipStorePrevEntryLengthLarge]
    rw [hcode, zipDecodePrevlen, getElem?_at, bind_some, if_neg (by decide),
      read_behind _ _ _ _ (leBytes_length _ _), map_some, leVal_leBytes_of_lt h.lt]
    rfl

theorem code_body (e : ZEntry) (pre rest : Bytes) : pre ++ (e.code ++ rest) =
    (pre ++ zipPrevField e.large e.prevlen) ++ (e.body ++ rest) := by
  rw [code, append_assoc, append_assoc]

theorem body_place (e : ZEntry) (pre : Bytes) :
    pre.length + zipPrevSize e.large = (pre ++ zipPrevField e.large e.prevlen).length := by
  rw [length_append, zipPrevField_length]

theorem decode_code {v : ZipValue} (hv : ZipReads e.body v) :
    ∃ encoding lensize len, lensize + len = e.body.length ∧ ∀ pre rest : Bytes,
      zipDecodeLength (pre ++ (e.code ++ rest)) (pre.length + zipPrevSize e.large) = some (encoding, lensize, len) ∧
        zipLoad (pre ++ (e.code ++ rest)) (pre.length + zipPrevSize e.large + lensize) encoding len = some v := by
  obtain ⟨encoding, lensize, len, hlen, hreads⟩ := hv
  refine ⟨encoding, lensize, len, hlen, ?_⟩
  intro pre rest
  rw [body_place, code_body]
  exact hreads (pre ++ zipPrevField e.large e.prevlen) rest

theorem Ok.zipRawEntryLength_eq (h : Ok e) (hraw : e.raw < 2 ^ 32) (pre rest : Bytes) :
    zipRawEntryLength (pre ++ (e.code ++ rest)) pre.length = some e.raw := by
  obtain ⟨v, hv⟩ := h.reads
  obtain ⟨encoding, lensize, len, hlen, hdecode⟩ := decode_code hv
  rw [zipRawEntryLength, h.zipDecodePrevlensize_eq]
  simp only [bind_some, (hdecode pre rest).1, map_some]
  unfold raw at hraw ⊢
  rw [Nat.mod_eq_of_lt (by omega), ← hlen, Nat.add_assoc]

theorem Ok.zipEntry_of_decode (h : Ok e) {pre rest : Bytes} {lensize len : ℕ}
    (hdecode : zipDecodeLength (pre ++ (e.code ++ rest)) (pre.length + zipPrevSize e.large) =
      some (encoding, lensize, len)) :
    zipEntry (pre ++ (e.code ++ rest)) pre.length =
      some ⟨zipPrevSize e.large, e.prevlen, lensize, len, zipPrevSize e.large + lensize, encoding⟩ := by
  rw [zipEntry, h.zipDecodePrevlen_eq]
  simp [bind_some, hdecode, map_some]

theorem Ok.zipEntry_eq (h : Ok e) (hraw : e.raw < 2 ^ 32) (pre rest : Bytes) :
    ∃ r, zipEntry (pre ++ (e.code ++ rest)) pre.length = some r ∧ r.prevrawlensize = zipPrevSize e.large ∧
      r.prevrawlen = e.prevlen ∧ r.rawlen = e.raw := by
  obtain ⟨v, hv⟩ := h.reads
  obtain ⟨encoding, lensize, len, hlen, hdecode⟩ := decode_code hv
  refine ⟨_, h.zipEntry_of_decode (hdecode pre rest).1, rfl, rfl, ?_⟩
  change (zipPrevSize e.large + lensize + len) % 2 ^ 32 = e.raw
  unfold raw at hraw ⊢
  rw [Nat.mod_eq_of_lt (by omega), ← hlen, Nat.add_assoc]

theorem Ok.ziplistGet_eq (h : Ok e) {v : ZipValue} (hv : ZipReads e.body v) (pre rest : Bytes) :
    ziplistGet (pre ++ (e.code ++ rest)) pre.length = some (some v) := by
  obtain ⟨encoding, lensize, len, -, hcode⟩ := decode_code hv
  obtain ⟨hdecode, hload⟩ := hcode pre rest
  obtain ⟨b, hb, hne, -⟩ := h.head pre rest
  rw [ziplistGet, hb, bind_some, if_neg hne, h.zipEntry_of_decode hdecode, bind_some, ← Nat.add_assoc]
  unfold zipLoad at hload
  split_ifs at hload ⊢ with hstr
  · obtain ⟨s, hs, rfl⟩ := map_eq_some_iff.mp hload
    rw [hs, map_some]
  · obtain ⟨i, hi, rfl⟩ := map_eq_some_iff.mp hload
    rw [hi, map_some]

end ZEntry

/-! ### The block -/

def zlBlock (bytes tail len : ℕ) (m : Bytes) : Bytes := leBytes 4 bytes ++ leBytes 4 tail ++ leBytes 2 len ++ m

section Header

variable {bytes tail len : ℕ} {m : Bytes}

theorem zlBlock_length (bytes tail len : ℕ) (m : Bytes) : (zlBlock bytes tail len m).length = 10 + m.length := by
  simp [zlBlock]
  omega

theorem zlBlock_append (bytes tail len : ℕ) (a m : Bytes) :
    zlBlock bytes tail len (a ++ m) = zlBlock bytes tail len a ++ m := by
  rw [zlBlock, zlBlock, append_assoc _ a]

theorem ziplistBytes_zlBlock (h : bytes < 2 ^ 32) : ziplistBytes (zlBlock bytes tail len m) = some bytes := by
  have hread : Memory.read (zlBlock bytes tail len m) 0 4 = some (leBytes 4 bytes) := by
    rw [zlBlock, append_assoc, append_assoc]
    exact read_append (a := []) rfl (leBytes_length _ _).symm
  rw [ziplistBytes, hread, map_some, leVal_leBytes_of_lt h]

theorem ziplistTailOffset_zlBlock (h : tail < 2 ^ 32) : ziplistTailOffset (zlBlock bytes tail len m) = some tail := by
  have hread : Memory.read (zlBlock bytes tail len m) 4 4 = some (leBytes 4 tail) := by
    rw [zlBlock, append_assoc]
    exact read_append (leBytes_length _ _).symm (leBytes_length _ _).symm
  rw [ziplistTailOffset, hread, map_some, leVal_leBytes_of_lt h]

theorem ziplistLength_zlBlock (h : len < 2 ^ 16) : ziplistLength (zlBlock bytes tail len m) = some len := by
  have hread : Memory.read (zlBlock bytes tail len m) 8 2 = some (leBytes 2 len) :=
    read_append (by simp) (leBytes_length _ _).symm
  rw [ziplistLength, hread, map_some, leVal_leBytes_of_lt h]

theorem ziplistSetBytes_zlBlock (v : ℕ) :
    ziplistSetBytes (zlBlock bytes tail len m) v = some (zlBlock v tail len m) := by
  have hlen : (leBytes 4 v).length = (leBytes 4 bytes).length := by rw [leBytes_length, leBytes_length]
  rw [zlBlock, zlBlock, append_assoc, append_assoc, append_assoc, append_assoc]
  exact write_append (a := []) rfl hlen

theorem ziplistSetTailOffset_zlBlock (v : ℕ) :
    ziplistSetTailOffset (zlBlock bytes tail len m) v = some (zlBlock bytes v len m) := by
  have hlen : (leBytes 4 v).length = (leBytes 4 tail).length := by rw [leBytes_length, leBytes_length]
  rw [zlBlock, zlBlock, append_assoc, append_assoc _ (leBytes 2 len)]
  exact write_append (leBytes_length _ _).symm hlen

theorem ziplistSetLength_zlBlock (v : ℕ) :
    ziplistSetLength (zlBlock bytes tail len m) v = some (zlBlock bytes tail v m) := by
  have hlen : (leBytes 2 v).length = (leBytes 2 len).length := by rw [leBytes_length, leBytes_length]
  exact write_append (by simp) hlen

theorem write_zlBlock {a w c bs : Bytes} {p : ℕ} (hp : p = 10 + a.length) (hlen : bs.length = w.length) :
    Memory.write (zlBlock bytes tail len (a ++ w ++ c)) p bs = some (zlBlock bytes tail len (a ++ bs ++ c)) := by
  simp only [zlBlock_append]
  exact write_append (by rw [zlBlock_length, hp]) hlen

theorem ziplistResize_zlBlock (m : Bytes) {k : ℕ} (hk : 11 + k < 2 ^ 32) :
    ziplistResize (zlBlock bytes tail len m) (11 + k) =
      some (zlBlock (11 + k) tail len (Memory.realloc 0 m k ++ [ZIP_END])) := by
  have hrealloc : Memory.realloc 0 (zlBlock bytes tail len m) (11 + k) =
      zlBlock bytes tail len (Memory.realloc 0 m (k + 1)) := by
    have hnil : zlBlock bytes tail len m = zlBlock bytes tail len [] ++ m := by
      rw [← zlBlock_append, nil_append]
    have hlen : (zlBlock bytes tail len []).length = 10 := zlBlock_length _ _ _ _
    rw [hnil, realloc_append 0 m (by omega), hlen, ← zlBlock_append, nil_append, show 11 + k - 10 = k + 1 by omega]
  obtain ⟨c, hc⟩ := realloc_succ 0 m k
  have hwrite := @write_zlBlock (11 + k) tail len (Memory.realloc 0 m k) [c] [] [ZIP_END] (11 + k - 1)
    (by rw [realloc_length]; omega) rfl
  rw [append_nil, append_nil] at hwrite
  rw [ziplistResize]
  simp only [Nat.mod_eq_of_lt hk, hrealloc, ziplistSetBytes_zlBlock, bind_some]
  rw [if_neg (by omega), hc, hwrite]

end Header

/-! ### Blocks of entries -/

def codes (es : List ZEntry) : Bytes := es.flatMap ZEntry.code

theorem codes_cons (e : ZEntry) (es : List ZEntry) : codes (e :: es) = e.code ++ codes es := flatMap_cons

@[simp] theorem codes_cons_length (e : ZEntry) (es : List ZEntry) :
    (codes (e :: es)).length = e.raw + (codes es).length := by
  rw [codes_cons, length_append, ZEntry.code_length]

theorem codes_append (a b : List ZEntry) : codes (a ++ b) = codes a ++ codes b := flatMap_append

theorem codes_dropLast_le (es : List ZEntry) : (codes es.dropLast).length ≤ (codes es).length := by
  rcases eq_nil_or_concat es with rfl | ⟨es, x, rfl⟩
  · exact Nat.le_refl _
  · rw [concat_eq_append, dropLast_concat, codes_append, length_append]
    exact Nat.le_add_right _ _

theorem codes_singleton (e : ZEntry) : codes [e] = e.code := by
  rw [codes_cons]
  exact append_nil _

/-- The block of the entries `es` behind the bytes `a`. -/
def zlFrame (len : ℕ) (a : Bytes) (es : List ZEntry) : Bytes :=
  zlBlock (11 + (a.length + (codes es).length)) (10 + (a.length + (codes es.dropLast).length)) len
    (a ++ (codes es ++ [ZIP_END]))

def zlSize (es : List ZEntry) : ℕ := 11 + (codes es).length

section Frame

variable {len : ℕ} {a : Bytes} {e : ZEntry} {es b : List ZEntry}

theorem zlFrame_cons (hes : es ≠ []) : zlFrame len a (e :: es) = zlFrame len (a ++ e.code) es := by
  rw [zlFrame, zlFrame, dropLast_cons_of_ne_nil hes, codes_cons, codes_cons]
  simp [length_append, append_assoc, Nat.add_assoc]

theorem zlFrame_append (hes : es ≠ []) : zlFrame len a (b ++ es) = zlFrame len (a ++ codes b) es := by
  induction b generalizing a with
  | nil => rw [nil_append, show codes [] = [] from rfl, append_nil]
  | cons e b ih => rw [cons_append, zlFrame_cons (by simp [hes]), ih, codes_cons, append_assoc]

theorem byte_before (pre : Bytes) (hes : ∀ e ∈ es, e.Ok) :
    ∃ c, (pre ++ (codes es ++ [ZIP_END]))[pre.length]? = some c ∧ (c = ZIP_END ↔ es = []) := by
  cases es with
  | nil => exact ⟨ZIP_END, getElem?_at _ _ _, by simp⟩
  | cons e es =>
    obtain ⟨c, hc, hne, -⟩ := (hes e (by simp)).head pre (codes es ++ [ZIP_END])
    rw [codes_cons, append_assoc]
    exact ⟨c, hc, by simp [hne]⟩

theorem zlFrame_eq (len : ℕ) (a : Bytes) (es : List ZEntry) : ∃ pre : Bytes, pre.length = 10 + a.length ∧
    zlFrame len a es = pre ++ (codes es ++ [ZIP_END]) :=
  ⟨_, zlBlock_length _ _ _ a, zlBlock_append _ _ _ _ _⟩

theorem zlFrame_eq_cons (len : ℕ) (a : Bytes) (e : ZEntry) (es : List ZEntry) : ∃ pre : Bytes,
    pre.length = 10 + a.length ∧ zlFrame len a (e :: es) = pre ++ (e.code ++ (codes es ++ [ZIP_END])) := by
  obtain ⟨pre, hpre, heq⟩ := zlFrame_eq len a (e :: es)
  exact ⟨pre, hpre, by rw [heq, codes_cons, append_assoc]⟩

theorem zlFrame_byte (hes : ∀ e ∈ es, e.Ok) :
    ∃ c, (zlFrame len a es)[10 + a.length]? = some c ∧ (c = ZIP_END ↔ es = []) := by
  obtain ⟨pre, hpre, heq⟩ := zlFrame_eq len a es
  rw [heq, ← hpre]
  exact byte_before pre hes

theorem zlFrame_byte_next (hes : ∀ e ∈ es, e.Ok) :
    ∃ c, (zlFrame len a (e :: es))[10 + a.length + e.raw]? = some c ∧ (c = ZIP_END ↔ es = []) := by
  obtain ⟨pre, hpre, heq⟩ := zlFrame_eq_cons len a e es
  obtain ⟨c, hc, hend⟩ := byte_before (pre ++ e.code) hes
  refine ⟨c, ?_, hend⟩
  rw [length_append, e.code_length, append_assoc] at hc
  rw [heq, ← hpre, hc]

theorem zlFrame_zipEntry (he : e.Ok) (hraw : e.raw < 2 ^ 32) :
    ∃ r, zipEntry (zlFrame len a (e :: es)) (10 + a.length) = some r ∧ r.prevrawlensize = zipPrevSize e.large ∧
      r.prevrawlen = e.prevlen ∧ r.rawlen = e.raw := by
  obtain ⟨pre, hpre, heq⟩ := zlFrame_eq_cons len a e es
  rw [heq, ← hpre]
  exact he.zipEntry_eq hraw _ _

theorem zlFrame_rawEntryLength (he : e.Ok) (hraw : e.raw < 2 ^ 32) :
    zipRawEntryLength (zlFrame len a (e :: es)) (10 + a.length) = some e.raw := by
  obtain ⟨pre, hpre, heq⟩ := zlFrame_eq_cons len a e es
  rw [heq, ← hpre]
  exact he.zipRawEntryLength_eq hraw _ _

theorem zlFrame_decodePrevlen (he : e.Ok) :
    zipDecodePrevlen (zlFrame len a (e :: es)) (10 + a.length) = some (zipPrevSize e.large, e.prevlen) := by
  obtain ⟨pre, hpre, heq⟩ := zlFrame_eq_cons len a e es
  rw [heq, ← hpre]
  exact he.zipDecodePrevlen_eq _ _

theorem zlFrame_byteDiff (he : e.Ok) (q : ℕ) : zipPrevLenByteDiff (zlFrame len a (e :: es)) (10 + a.length) q =
    some ((zipPrevSize (ZIP_BIG_PREVLEN ≤ q) : ℤ) - zipPrevSize e.large) := by
  obtain ⟨pre, hpre, heq⟩ := zlFrame_eq_cons len a e es
  rw [heq, ← hpre, zipPrevLenByteDiff, he.zipDecodePrevlensize_eq, map_some, zipStorePrevEntryLength_eq,
    zipPrevField_length]

theorem zlFrame_resize (len : ℕ) (a : Bytes) (es : List ZEntry) {k : ℕ}
    (hk : 11 + (a.length + (codes es).length) + k < 2 ^ 32) :
    ziplistResize (zlFrame len a es) (11 + (a.length + (codes es).length) + k) =
      some (zlBlock (11 + (a.length + (codes es).length) + k) (10 + (a.length + (codes es.dropLast).length)) len
        (a ++ (codes es ++ Memory.realloc 0 [ZIP_END] k) ++ [ZIP_END])) := by
  have hlen : (a ++ codes es).length = a.length + (codes es).length := length_append
  rw [Nat.add_assoc] at hk ⊢
  rw [zlFrame, ziplistResize_zlBlock _ hk, ← append_assoc, realloc_append 0 _ (by omega), hlen,
    Nat.add_sub_cancel_left, append_assoc a]

theorem zlFrame_write (q : ℕ) : Memory.write (zlFrame len a (e :: es)) (10 + a.length) (zipPrevField e.large q) =
    some (zlFrame len a ({ e with prevlen := q } :: es)) := by
  have hsize : (codes ({ e with prevlen := q } :: es)).length = (codes (e :: es)).length := by
    rw [codes_cons_length, codes_cons_length]
    rfl
  have htail : (codes ({ e with prevlen := q } :: es).dropLast).length = (codes (e :: es).dropLast).length := by
    cases es with
    | nil => rfl
    | cons e' es =>
      rw [dropLast_cons_cons, dropLast_cons_cons, codes_cons_length, codes_cons_length]
      rfl
  have hwrite := @write_zlBlock (11 + (a.length + (codes (e :: es)).length))
    (10 + (a.length + (codes (e :: es).dropLast).length)) len a (zipPrevField e.large e.prevlen)
    (e.body ++ (codes es ++ [ZIP_END])) (zipPrevField e.large q) _ rfl
    (by rw [zipPrevField_length, zipPrevField_length])
  rw [zlFrame, zlFrame, hsize, htail]
  simpa only [codes_cons, ZEntry.code, append_assoc] using hwrite

end Frame

/-! ### Carrying a length on -/

/-- The entries behind one of length `len`: as long as the short form is too short, an entry
changes its length as well. -/
def relink : ℕ → List ZEntry → List ZEntry
  | _, [] => []
  | len, e :: es =>
    if e.prevlen = len then e :: es
    else if e.large = false ∧ ZIP_BIG_PREVLEN ≤ len then ⟨true, len, e.body⟩ :: relink (5 + e.body.length) es
    else ⟨e.large, len, e.body⟩ :: es

theorem relink_bodies (q : ℕ) (es : List ZEntry) : (relink q es).map ZEntry.body = es.map ZEntry.body := by
  induction es generalizing q with
  | nil => rfl
  | cons e es ih =>
    rw [relink]
    split_ifs
    · rfl
    · rw [map_cons, map_cons, ih]
    · rfl

theorem relink_length_le (q : ℕ) (es : List ZEntry) : (codes es).length ≤ (codes (relink q es)).length := by
  induction es generalizing q with
  | nil => exact Nat.le_refl _
  | cons e es ih =>
    rw [relink]
    split_ifs with h1 h2
    · exact Nat.le_refl _
    · have hle := ih (5 + e.body.length)
      simp only [codes_cons_length, ZEntry.raw, h2.1, zipPrevSize_true, zipPrevSize_false]
      omega
    · rw [codes_cons_length, codes_cons_length]
      exact Nat.le_refl _

section Cascade

variable {len : ℕ} {a : Bytes} {e cur : ZEntry} {es b : List ZEntry}

theorem zipPrevSize_lt {large large' : Bool} :
    zipPrevSize large < zipPrevSize large' ↔ large = false ∧ large' = true := by
  cases large <;> cases large' <;> decide

/-- The entry at the start of the frame takes a length that needs the long form. -/
theorem ziplistGrowPrevlen_eq (hsmall : e.large = false) {q : ℕ} (hq : ZIP_BIG_PREVLEN ≤ q)
    (hsize : 11 + (a.length + (codes (⟨true, q, e.body⟩ :: es)).length) < 2 ^ 32) :
    ziplistGrowPrevlen (zlFrame len a (e :: es)) (10 + a.length) q (11 + (a.length + (codes (e :: es)).length)) 1 =
      some (zlFrame len a (⟨true, q, e.body⟩ :: es)) := by
  have hfield : zipStorePrevEntryLength q = zipPrevField true q := by
    rw [zipStorePrevEntryLength_eq]
    simp [hq]
  have hlen : (zipPrevField true q).length = 5 := zipPrevField_length true q
  have hbytes : (codes (⟨true, q, e.body⟩ :: es)).length = (codes (e :: es)).length + 4 := by
    simp only [codes_cons_length, ZEntry.raw, hsmall, zipPrevSize_true, zipPrevSize_false]
    omega
  rw [hbytes] at hsize
  -- the block has four bytes more before its end
  have hresize := @zlFrame_resize len a (e :: es) 4 (by omega)
  have hg : (Memory.realloc 0 [ZIP_END] 4).length = 4 := realloc_length _ _ _
  generalize Memory.realloc 0 [ZIP_END] 4 = g at hresize hg
  -- the last entry moves by as many, unless it is the one that grows
  have htail : ∀ bytes m, (if 10 + (a.length + (codes (e :: es).dropLast).length) ≠ 10 + a.length then
        ziplistSetTailOffset (zlBlock bytes (10 + (a.length + (codes (e :: es).dropLast).length)) len m)
          (10 + (a.length + (codes (e :: es).dropLast).length) + 4)
      else some (zlBlock bytes (10 + (a.length + (codes (e :: es).dropLast).length)) len m)) =
      some (zlBlock bytes
        (10 + (a.length + (codes (⟨true, q, e.body⟩ :: es : List ZEntry).dropLast).length)) len m) := by
    intro bytes m
    cases es with
    | nil => exact if_neg (by simp [codes])
    | cons e' es =>
      simp only [dropLast_cons_cons, codes_cons_length, ZEntry.raw, hsmall, zipPrevSize_true, zipPrevSize_false]
      rw [if_pos (by omega), ziplistSetTailOffset_zlBlock]
      congr 2
      omega
  have hlast : 10 + (a.length + (codes (e :: es).dropLast).length) < 2 ^ 32 := by
    have hle := codes_dropLast_le (e :: es)
    omega
  rw [ziplistGrowPrevlen, hfield, hlen]
  simp only [Nat.add_one_sub_one, hresize, bind_some, ziplistTailOffset_zlBlock hlast, htail]
  -- what lies behind the short form moves by as many bytes, and the long form fills the room
  have hcode : codes (e :: es) = [UInt8.ofNat e.prevlen] ++ (e.body ++ codes es) := by
    rw [codes_cons, ZEntry.code, hsmall, append_assoc]
    rfl
  have hcodelen : (codes (e :: es)).length = 1 + (e.body ++ codes es).length := by
    rw [hcode, length_append]
    rfl
  rw [zlFrame, hbytes, zlBlock_append, zlBlock_append, zlBlock_append]
  generalize hbody : e.body ++ codes es = body at *
  generalize hpre : zlBlock _ _ len a = pre
  have hprelen : pre.length = 10 + a.length := by rw [← hpre, zlBlock_length]
  have hmoved : 11 + (a.length + (codes (e :: es)).length) - (10 + a.length) - 1 - 1 = body.length := by
    omega
  have hread : Memory.read (pre ++ (codes (e :: es) ++ g) ++ [ZIP_END]) (10 + a.length + 1) body.length =
      some body := by
    have hread' := @read_append _ (pre ++ [UInt8.ofNat e.prevlen]) body (g ++ [ZIP_END])
      (10 + a.length + 1) _ (by rw [length_append, hprelen]; rfl) rfl
    rw [hcode]
    simpa only [append_assoc] using hread'
  have hsum : (codes (e :: es) ++ g).length = (codes (e :: es)).length + 4 := by rw [length_append, hg]
  obtain ⟨w, hw, hmove⟩ := @move_within _ pre _ _ _ 5 (10 + a.length + 5) _ _ hread (by rw [hprelen])
    (by rw [hsum]; omega)
  rw [hmoved, hmove, bind_some, append_assoc _ body, write_append hprelen.symm (by rw [hw, hlen]),
    codes_cons, ZEntry.code, ← hbody]
  simp [append_assoc]

theorem ziplistCascadeLoop_eq {fuel : ℕ} (hfuel : b.length < fuel) (hcur : cur.Ok) (hb : ∀ e ∈ b, e.Ok)
    (hsize : 11 + (a.length + (codes (cur :: relink cur.raw b)).length) < 2 ^ 32) :
    ziplistCascadeLoop fuel (zlFrame len a (cur :: b)) (10 + a.length) (11 + (a.length + (codes (cur :: b)).length)) =
      some (zlFrame len a (cur :: relink cur.raw b)) := by
  induction b generalizing fuel a cur with
  | nil =>
    obtain ⟨fuel, rfl⟩ := Nat.exists_eq_add_of_lt hfuel
    have hraw : cur.raw < 2 ^ 32 := by
      rw [codes_cons_length] at hsize
      omega
    obtain ⟨c, hc, hend⟩ := @zlFrame_byte len a [cur] (by simpa using hcur)
    obtain ⟨r, hr, -, -, hlen⟩ := @zlFrame_zipEntry len a cur [] hcur hraw
    obtain ⟨c', hc', hend'⟩ := @zlFrame_byte_next len a cur [] (by simp)
    rw [ziplistCascadeLoop, hc, bind_some, if_neg (mt hend.mp (by simp)), hr, bind_some]
    simp only [hlen, hc', bind_some]
    rw [if_pos (hend'.mpr rfl), relink]
  | cons e b ih =>
    obtain ⟨fuel, rfl⟩ := Nat.exists_eq_add_of_lt (Nat.zero_lt_of_lt hfuel)
    have he := hb e (by simp)
    have hle := relink_length_le cur.raw (e :: b)
    rw [codes_cons_length] at hsize
    have hraw : cur.raw < 2 ^ 32 := by omega
    have hraw' : e.raw < 2 ^ 32 := by
      rw [codes_cons_length] at hle
      omega
    obtain ⟨c, hc, hend⟩ := @zlFrame_byte len a (cur :: e :: b) (by simpa [hcur] using hb)
    obtain ⟨r, hr, -, -, hlen⟩ := @zlFrame_zipEntry len a cur (e :: b) hcur hraw
    obtain ⟨c', hc', hend'⟩ := @zlFrame_byte_next len a cur (e :: b) hb
    -- the next entry, seen from behind the current one
    have hplace : 10 + a.length + cur.raw = 10 + (a ++ cur.code).length := by
      rw [length_append, ZEntry.code_length, Nat.add_assoc]
    have hframe : ∀ x : ZEntry, ∀ xs, zlFrame len a (cur :: x :: xs) = zlFrame len (a ++ cur.code) (x :: xs) :=
      fun x xs => zlFrame_cons (cons_ne_nil _ _)
    obtain ⟨next, hnext, hnsize, hnlen, -⟩ := @zlFrame_zipEntry len (a ++ cur.code) e b he hraw'
    have hcurlen : 11 + (a.length + (codes (cur :: e :: b)).length) =
        11 + ((a ++ cur.code).length + (codes (e :: b)).length) := by
      rw [codes_cons, length_append, length_append, Nat.add_assoc]
    rw [ziplistCascadeLoop, hc, bind_some, if_neg (mt hend.mp (by simp)), hr, bind_some]
    simp only [hlen, hc', bind_some]
    rw [if_neg (mt hend'.mp (by simp)), hframe, hplace, hnext, bind_some, hnlen, hnsize, hcurlen,
      zipStorePrevEntryLength_eq, zipPrevField_length]
    by_cases heq : e.prevlen = cur.raw
    · rw [if_pos heq, relink, if_pos heq, hframe]
    rw [relink, if_neg heq] at hsize ⊢
    rw [if_neg heq]
    by_cases hgrow : e.large = false ∧ ZIP_BIG_PREVLEN ≤ cur.raw
    · -- the next entry grows and is the current one of the next round
      rw [if_pos hgrow] at hsize ⊢
      have hgrown : zipPrevSize e.large < zipPrevSize (ZIP_BIG_PREVLEN ≤ cur.raw) :=
        zipPrevSize_lt.mpr ⟨hgrow.1, by simpa using hgrow.2⟩
      have hnew : ZEntry.Ok ⟨true, cur.raw, e.body⟩ := ⟨by simp, hraw, he.reads⟩
      have hsize' : 11 + ((a ++ cur.code).length +
          (codes (⟨true, cur.raw, e.body⟩ :: relink (5 + e.body.length) b)).length) < 2 ^ 32 := by
        rw [length_append, ZEntry.code_length]
        omega
      have hle' := relink_length_le (5 + e.body.length) b
      rw [if_pos hgrown, hgrow.1]
      have hone : zipPrevSize false = 1 := rfl
      have hfive : zipPrevSize (ZIP_BIG_PREVLEN ≤ cur.raw) = 5 := by simp [zipPrevSize, hgrow.2]
      rw [hone, ziplistGrowPrevlen_eq hgrow.1 hgrow.2, bind_some, hfive]
      · have hcurlen' : 11 + ((a ++ cur.code).length + (codes (e :: b)).length) + (5 - 1) =
            11 + ((a ++ cur.code).length + (codes (⟨true, cur.raw, e.body⟩ :: b)).length) := by
          simp only [codes_cons_length, ZEntry.raw, hgrow.1, zipPrevSize_true, zipPrevSize_false]
          omega
        rw [hcurlen', ih (by simpa using hfuel) hnew (fun e' he' => hb e' (by simp [he'])) hsize', hframe]
        rfl
      · rw [codes_cons_length] at hsize' ⊢
        omega
    · -- the next entry keeps its form
      rw [if_neg hgrow, hframe, if_neg (by simpa [zipPrevSize_lt] using hgrow)]
      have hwrite := @zlFrame_write len (a ++ cur.code) e b cur.raw
      by_cases hshort : zipPrevSize e.large > zipPrevSize (ZIP_BIG_PREVLEN ≤ cur.raw)
      · rw [(zipPrevSize_lt.mp hshort).2] at hwrite
        rw [if_pos hshort, (zipPrevSize_lt.mp hshort).2]
        exact hwrite
      · have hform : decide (ZIP_BIG_PREVLEN ≤ cur.raw) = e.large := by
          rw [gt_iff_lt, zipPrevSize_lt] at hshort
          cases hlarge : e.large with
          | false => simpa [hlarge] using hgrow
          | true => simpa [hlarge] using hshort
        rw [if_neg hshort, hform]
        exact hwrite

theorem length_le_codes (es : List ZEntry) : es.length ≤ (codes es).length := by
  induction es with
  | nil => exact Nat.le_refl _
  | cons e es ih =>
    have hpos : 1 ≤ zipPrevSize e.large := by cases e.large <;> decide
    rw [codes_cons_length, length_cons, ZEntry.raw]
    omega

theorem ziplistCascadeUpdate_eq (hcur : cur.Ok) (hb : ∀ e ∈ b, e.Ok)
    (hsize : 11 + (a.length + (codes (cur :: relink cur.raw b)).length) < 2 ^ 32) :
    ziplistCascadeUpdate (zlFrame len a (cur :: b)) (10 + a.length) =
      some (zlFrame len a (cur :: relink cur.raw b)) := by
  have hle := relink_length_le cur.raw b
  have hfuel : b.length < (zlFrame len a (cur :: b)).length := by
    have hcodes := length_le_codes b
    rw [zlFrame, zlBlock_length]
    simp only [length_append, codes_cons_length]
    omega
  have hbytes : ziplistBytes (zlFrame len a (cur :: b)) = some (11 + (a.length + (codes (cur :: b)).length)) := by
    apply ziplistBytes_zlBlock
    rw [codes_cons_length] at hsize ⊢
    omega
  rw [ziplistCascadeUpdate, hbytes, bind_some, ziplistCascadeLoop_eq hfuel hcur hb hsize]

end Cascade

end RedisIR
