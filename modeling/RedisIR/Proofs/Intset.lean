import RedisIR.Lib.Machine
import RedisIR.Spec.Intset

/-! An intset is a sorted set of 64-bit integers, as long as its contents take fewer than
2^32 bytes. -/

namespace RedisIR

open CLib Endian List Option Memory Machine

variable {is : Intset} {xs a b : List ℤ} {x value lo hi v : ℤ} {i n pos : ℕ} {e : IntsetEnc} {s : Finset ℤ}

/-- Values as a block holds them, `w` bytes each. -/
def words (w : ℕ) (xs : List ℤ) : Bytes := xs.flatMap (intBytes w)

@[simp] theorem words_nil (w : ℕ) : words w [] = [] := rfl

@[simp] theorem words_append (w : ℕ) (xs ys : List ℤ) : words w (xs ++ ys) = words w xs ++ words w ys :=
  flatMap_append

@[simp] theorem words_cons (w : ℕ) (x : ℤ) (xs : List ℤ) : words w (x :: xs) = intBytes w x ++ words w xs := rfl

@[simp] theorem words_length (w : ℕ) (xs : List ℤ) : (words w xs).length = xs.length * w := by
  induction xs with
  | nil => simp
  | cons x xs ih =>
    rw [words_cons, length_append, ih, intBytes_length, length_cons, Nat.add_one_mul, Nat.add_comm]

structure Intset.Holds (is : Intset) (xs : List ℤ) : Prop where
  length_eq : is.length = xs.length
  contents_eq : is.contents = words is.encoding.size xs
  sorted : xs.Pairwise (· < ·)
  fits : ∀ x ∈ xs, Fits is.encoding.size x
  small : xs.length * is.encoding.size < 2 ^ 32

theorem IntsetEnc.size_pos (e : IntsetEnc) : 2 ≤ e.size ∧ e.size ≤ 8 := by
  cases e <;> decide

theorem Intset.Holds.length_lt (h : is.Holds xs) : xs.length < 2 ^ 31 := by
  have hsmall := h.small
  have hsize := is.encoding.size_pos.1
  have : xs.length * 2 ≤ xs.length * is.encoding.size := Nat.mul_le_mul_left _ hsize
  omega

theorem getEncoded_words {enc : IntsetEnc} {rest : Bytes} (h : is.contents = words enc.size (a ++ x :: b) ++ rest)
    (hx : Fits enc.size x) : is.getEncoded a.length enc = some x := by
  have hsplit : is.contents = words enc.size a ++ intBytes enc.size x ++ (words enc.size b ++ rest) := by
    rw [h]
    simp
  rw [Intset.getEncoded, if_neg (by omega), Int.toNat_natCast, hsplit,
    read_append (by simp) (by simp), map_some, intVal_intBytes hx]

theorem exists_split_at (hi : i < xs.length) : ∃ a b, xs = a ++ xs[i] :: b ∧ a.length = i :=
  ⟨xs.take i, xs.drop (i + 1), by rw [getElem_cons_drop, take_append_drop], length_take_of_le hi.le⟩

theorem Intset.Holds.get (h : is.Holds xs) (hi : i < xs.length) : is.get i = some xs[i] := by
  obtain ⟨a, b, hxs, hlen⟩ := exists_split_at hi
  have hcontents : is.contents = words is.encoding.size (a ++ xs[i] :: b) ++ [] := by
    rw [append_nil, ← hxs, h.contents_eq]
  have hget := getEncoded_words hcontents (h.fits _ (getElem_mem hi))
  rwa [hlen] at hget

/-! ### The binary search -/

/-- Only positions from `lo` to `hi` can still hold the value. -/
structure Narrowed (xs : List ℤ) (value lo hi : ℤ) : Prop where
  lo_nonneg : 0 ≤ lo
  hi_lt : hi < xs.length
  lo_le : lo ≤ hi + 1
  below : ∀ (i : ℕ) (_ : i < xs.length), (i : ℤ) < lo → xs[i] < value
  above : ∀ (i : ℕ) (_ : i < xs.length), hi < i → value < xs[i]

section

variable (h : xs.Pairwise (· < ·))
include h

theorem getElem_le_of_sorted {j : ℕ} (hij : i ≤ j) (hj : j < xs.length) : xs[i] ≤ xs[j] := by
  rcases Nat.lt_or_eq_of_le hij with hlt | rfl
  · exact (pairwise_iff_getElem.mp h i j (by omega) hj hlt).le
  · exact le_rfl

theorem Narrowed.raise (hn : Narrowed xs value lo hi) {m : ℕ} (hm : m < xs.length)
    (hhi : (m : ℤ) ≤ hi) (hlt : xs[m] < value) : Narrowed xs value (m + 1) hi where
  lo_nonneg := by omega
  hi_lt := hn.hi_lt
  lo_le := by omega
  below := by
    intro i hi' hi''
    exact (getElem_le_of_sorted h (by omega) hm).trans_lt hlt
  above := hn.above

theorem Narrowed.lower (hn : Narrowed xs value lo hi) {m : ℕ} (hm : m < xs.length)
    (hlo : lo ≤ m) (hlt : value < xs[m]) : Narrowed xs value lo (m - 1) where
  lo_nonneg := hn.lo_nonneg
  hi_lt := by omega
  lo_le := by omega
  below := hn.below
  above := by
    intro i hi' hi''
    exact hlt.trans_le (getElem_le_of_sorted h (by omega) hi')

end

/-- The search splits the values at the position that it returns. -/
inductive Splits (xs : List ℤ) (value : ℤ) : Bool → ℕ → Prop
  | found {a b : List ℤ} : xs = a ++ value :: b → Splits xs value true a.length
  | missing {a b : List ℤ} :
      xs = a ++ b → (∀ x ∈ a, x < value) → (∀ x ∈ b, value < x) → Splits xs value false a.length

theorem Splits.of_getElem (hi : i < xs.length) : Splits xs xs[i] true i := by
  obtain ⟨a, b, hxs, hlen⟩ := exists_split_at hi
  have := Splits.found hxs
  rwa [hlen] at this

theorem Splits.of_narrowed (h : Narrowed xs value lo hi) (hlt : hi < lo) : Splits xs value false lo.toNat := by
  have hle := h.lo_le
  have hhi := h.hi_lt
  have hlen : (xs.take lo.toNat).length = lo.toNat := length_take_of_le (by omega)
  have := @Splits.missing xs value _ _ (take_append_drop lo.toNat xs).symm ?_ ?_
  · rwa [hlen] at this
  · intro x hx
    obtain ⟨i, hi', rfl⟩ := mem_iff_getElem.mp hx
    rw [getElem_take]
    exact h.below i (by simp at hi'; omega) (by simp at hi'; omega)
  · intro x hx
    obtain ⟨i, hi', rfl⟩ := mem_iff_getElem.mp hx
    rw [getElem_drop]
    exact h.above _ (by simp at hi'; omega) (by omega)

theorem mid_eq (h0 : 0 ≤ lo) (hle : lo ≤ hi) (hlt : hi < 2 ^ 31) :
    (lo % 2 ^ 32 + hi % 2 ^ 32) % 2 ^ 32 / 2 = (lo + hi) / 2 := by
  rw [Int.emod_eq_of_lt h0 (by omega), Int.emod_eq_of_lt (by omega) (by omega), Int.emod_eq_of_lt (by omega) (by omega)]

theorem searchLoop_spec (h : is.Holds xs) (value : ℤ) {fuel : ℕ} (mid cur : ℤ) (hn : Narrowed xs value lo hi)
    (hfuel : hi - lo + 1 < fuel) (hcur : hi < lo → cur ≠ value) :
    ∃ lo' mid' cur', is.searchLoop value fuel lo hi mid cur = some (lo', mid', cur') ∧
      if value = cur' then 0 ≤ mid' ∧ mid' < 2 ^ 31 ∧ Splits xs value true mid'.toNat
      else 0 ≤ lo' ∧ lo' < 2 ^ 32 ∧ Splits xs value false lo'.toNat := by
  -- each round takes the middle away from what is left
  have hlen := h.length_lt
  induction fuel generalizing lo hi mid cur with
  | zero =>
    have := hn.lo_le
    omega
  | succ fuel ih =>
    have hlo := hn.lo_nonneg
    have hhi := hn.hi_lt
    have hle := hn.lo_le
    unfold Intset.searchLoop
    by_cases hge : hi ≥ lo
    · obtain ⟨m, hm⟩ : ∃ m : ℕ, (m : ℤ) = (lo + hi) / 2 := ⟨((lo + hi) / 2).toNat, by omega⟩
      have hmlt : m < xs.length := by omega
      simp only [if_pos hge, mid_eq hlo hge (by omega), ← hm, h.get hmlt, bind_eq_bind, bind_some]
      split_ifs with hgt hlt
      · exact ih _ _ (hn.raise h.sorted hmlt (by omega) hgt) (by omega) (fun _ => hgt.ne)
      · exact ih _ _ (hn.lower h.sorted hmlt (by omega) hlt) (by omega) (fun _ => hlt.ne')
      · have heq : value = xs[m] := by omega
        refine ⟨lo, m, xs[m], rfl, ?_⟩
        rw [if_pos heq]
        refine ⟨by omega, by omega, ?_⟩
        rw [heq]
        exact Splits.of_getElem hmlt
    · refine ⟨lo, mid, cur, if_neg hge, ?_⟩
      rw [if_neg (hcur (by omega)).symm]
      exact ⟨hlo, by omega, Splits.of_narrowed hn (by omega)⟩

theorem intsetSearch_spec (h : is.Holds xs) (value : ℤ) :
    ∃ found pos, intsetSearch is value = some (found, pos) ∧ Splits xs value found pos := by
  have hlen := h.length_lt
  unfold intsetSearch
  by_cases hzero : is.length = 0
  · have hnil : xs = [] := eq_nil_of_length_eq_zero (h.length_eq ▸ hzero)
    refine ⟨false, 0, if_pos hzero, ?_⟩
    exact .missing (a := []) (b := []) (by simpa using hnil) (by simp) (by simp)
  · have hpos : 0 < xs.length := by
      rw [← h.length_eq]
      omega
    have hmax : wrapInt (is.length - 1) = ((xs.length - 1 : ℕ) : ℤ) := by
      rw [h.length_eq, wrapInt_eq (by omega) (by omega)]
      omega
    have hall : Narrowed xs value 0 ((xs.length - 1 : ℕ) : ℤ) :=
      ⟨le_rfl, by omega, by omega, fun i _ hi => by omega, fun i hi hi' => by omega⟩
    have hget0 : is.get 0 = some xs[0] := h.get hpos
    have hfuel : ((xs.length - 1 : ℕ) : ℤ) - 0 + 1 < ((is.length + 1 : ℕ) : ℤ) := by
      rw [h.length_eq]
      omega
    simp only [if_neg hzero, hmax, h.get (show xs.length - 1 < xs.length by omega), hget0, bind_eq_bind,
      bind_some]
    split_ifs with hgt hlt
    · refine ⟨false, is.length, rfl, ?_⟩
      have := Splits.of_narrowed (hall.raise h.sorted (by omega) (by omega) hgt) (by omega)
      rw [h.length_eq]
      rwa [show (((xs.length - 1 : ℕ) : ℤ) + 1).toNat = xs.length by omega] at this
    · exact ⟨false, 0, rfl, Splits.of_narrowed (hall.lower h.sorted hpos le_rfl hlt) (by omega)⟩
    · obtain ⟨lo, mid, cur, hloop, hres⟩ := searchLoop_spec h value (-1) (-1) hall hfuel (by omega)
      simp only [hloop, bind_some]
      split_ifs at hres ⊢ with hcur
      · refine ⟨true, _, rfl, ?_⟩
        rw [Int.emod_eq_of_lt hres.1 (by omega)]
        exact hres.2.2
      · refine ⟨false, _, rfl, ?_⟩
        rw [Int.emod_eq_of_lt hres.1 hres.2.1]
        exact hres.2.2

/-! ### Widths -/

theorem fits_iff (e : IntsetEnc) (v : ℤ) :
    Fits e.size v ↔ -2 ^ (8 * e.size - 1) ≤ v ∧ v < 2 ^ (8 * e.size - 1) := by
  cases e <;> simp only [Fits, IntsetEnc.size] <;> omega

/-- A value that an `int64_t` can hold. -/
def Int64 (v : ℤ) : Prop := Fits 8 v

instance (v : ℤ) : Decidable (Int64 v) := inferInstanceAs (Decidable (Fits 8 v))

theorem fits_encoding_iff (h : Int64 v) (e : IntsetEnc) :
    Fits e.size v ↔ (intsetValueEncoding v).size ≤ e.size := by
  have h8 : -2 ^ 63 ≤ v ∧ v < 2 ^ 63 := (fits_iff .int64 v).mp h
  rw [fits_iff]
  unfold intsetValueEncoding
  cases e <;> split_ifs <;> simp only [IntsetEnc.size] <;> omega

/-- What does not fit is beyond everything that does, on the side of its sign. -/
theorem beyond_of_not_fits (hv : ¬ Fits e.size v) (hx : Fits e.size x) : if v < 0 then v < x else x < v := by
  rw [fits_iff] at hv hx
  cases e <;> simp only [IntsetEnc.size] at hv hx <;> split_ifs <;> omega

theorem Fits.mono {e' : IntsetEnc} (h : e.size ≤ e'.size) (hx : Fits e.size x) : Fits e'.size x := by
  rw [fits_iff] at hx ⊢
  cases e <;> cases e' <;> simp only [IntsetEnc.size] at h hx ⊢ <;> omega

/-! ### Adding and removing -/

theorem Intset.set_eq {is : Intset} {a mid b : Bytes} {pos : ℕ} (hc : is.contents = a ++ mid ++ b)
    (ha : a.length = pos * is.encoding.size) (hmid : mid.length = is.encoding.size) (value : ℤ) :
    is.set pos value = some { is with contents := a ++ intBytes is.encoding.size value ++ b } := by
  rw [Intset.set, if_neg (by omega), Int.toNat_natCast, hc, write_append ha.symm (by simp [hmid])]
  rfl

theorem pairwise_insert (h : (a ++ b).Pairwise (· < ·)) (ha : ∀ x ∈ a, x < value) (hb : ∀ x ∈ b, value < x) :
    (a ++ value :: b).Pairwise (· < ·) := by
  rw [pairwise_append] at h ⊢
  refine ⟨h.1, pairwise_cons.mpr ⟨hb, h.2.1⟩, ?_⟩
  intro x hx y hy
  rcases mem_cons.mp hy with rfl | hy
  · exact ha x hx
  · exact h.2.2 x hx y hy

theorem tail_bytes {p w : ℕ} (hp : p ≤ n) (hw : 0 < w) (h : (n - p) * w < 2 ^ 32) :
    (((n : ℤ) - p) % 2 ^ 32 * w % 2 ^ 32).toNat = (n - p) * w := by
  have hle : n - p ≤ (n - p) * w := Nat.le_mul_of_pos_right _ hw
  have hdiff : ((n : ℤ) - p) % 2 ^ 32 = ((n - p : ℕ) : ℤ) := by
    rw [Int.emod_eq_of_lt (by omega) (by omega)]
    omega
  rw [hdiff, ← Nat.cast_mul, Int.emod_eq_of_lt (by omega) (by omega), Int.toNat_natCast]

theorem moveTail_up (is : Intset) {gap : Bytes} (hlen : is.length = (a ++ b).length)
    (hsmall : (a ++ b).length * is.encoding.size < 2 ^ 32) (hgap : gap.length = is.encoding.size)
    (hc : is.contents = words is.encoding.size a ++ words is.encoding.size b ++ gap) :
    ∃ mid : Bytes, mid.length = is.encoding.size ∧
      (if a.length < is.length then intsetMoveTail is a.length (a.length + 1) else some is) =
        some { is with contents := words is.encoding.size a ++ mid ++ words is.encoding.size b } := by
  rw [length_append] at hlen hsmall
  by_cases hb : a.length < is.length
  · refine ⟨(words is.encoding.size b ++ gap).take gap.length, by simp [hgap], ?_⟩
    have hsize := is.encoding.size_pos.1
    have hle : b.length * is.encoding.size ≤ (a.length + b.length) * is.encoding.size :=
      Nat.mul_le_mul_right _ (by omega)
    have hrest : is.length - a.length = b.length := by omega
    have hbytes := tail_bytes (n := is.length) (p := a.length) (w := is.encoding.size) (by omega) (by omega)
      (by rw [hrest]; omega)
    rw [hrest] at hbytes
    rw [if_pos hb, intsetMoveTail, hc]
    simp only [hbytes]
    rw [move_up (by rw [words_length, hgap, Nat.add_one_mul]) (by rw [words_length]) (by rw [words_length])]
    rfl
  · have hnil : b = [] := eq_nil_of_length_eq_zero (by omega)
    subst hnil
    refine ⟨gap, hgap, ?_⟩
    rw [if_neg hb, words_nil, append_nil, ← append_nil (words is.encoding.size a), ← words_nil, ← hc]

theorem intsetAdd_missing (h : is.Holds (a ++ b)) (hwidth : ¬ (intsetValueEncoding value).size > is.encoding.size)
    (hfits : Fits is.encoding.size value) (hsearch : intsetSearch is value = some (false, a.length))
    (ha : ∀ x ∈ a, x < value) (hb : ∀ x ∈ b, value < x)
    (hsmall : ((a ++ b).length + 1) * is.encoding.size < 2 ^ 32) :
    ∃ is', intsetAdd is value = some (is', true) ∧ is'.encoding = is.encoding ∧ is'.Holds (a ++ value :: b) := by
  have hlen := h.length_lt
  have hresize : intsetResize is ((is.length + 1) % 2 ^ 32) = ⟨is.encoding, is.length,
        words is.encoding.size a ++ words is.encoding.size b ++ replicate is.encoding.size 0⟩ := by
    have hcl : is.contents.length = (a ++ b).length * is.encoding.size := by rw [h.contents_eq, words_length]
    rw [intsetResize, h.length_eq, Nat.mod_eq_of_lt (show (a ++ b).length + 1 < 2 ^ 32 by omega),
      Nat.mod_eq_of_lt hsmall,
      realloc_of_le _ (by rw [hcl]; exact Nat.mul_le_mul_right _ (by omega)), hcl, Nat.add_one_mul,
      Nat.add_sub_cancel_left, h.contents_eq, words_append]
  obtain ⟨mid, hmid, hmove⟩ := moveTail_up (a := a) (b := b)
    ⟨is.encoding, is.length, words is.encoding.size a ++ words is.encoding.size b ++ replicate is.encoding.size 0⟩
    h.length_eq h.small (by simp) rfl
  refine ⟨⟨is.encoding, is.length + 1, words is.encoding.size (a ++ value :: b)⟩, ?_, rfl, ?_⟩
  · have hpos : wrapInt (a.length : ℤ) = a.length := by
      rw [length_append] at hlen
      exact wrapInt_eq (by omega) (by omega)
    have hnext : (is.length + 1) % 2 ^ 32 = is.length + 1 := Nat.mod_eq_of_lt (by rw [h.length_eq]; omega)
    rw [intsetAdd, if_neg hwidth, hsearch]
    simp only [bind_eq_bind, bind_some, Bool.false_eq_true, if_false, hresize]
    rw [hmove]
    simp only [bind_some, hpos]
    rw [Intset.set_eq rfl (by simp) (by simpa using hmid)]
    simp only [bind_some, hnext]
    simp
  · exact ⟨by simp [h.length_eq]; omega, rfl, pairwise_insert h.sorted ha hb, by
        intro x hx
        rcases mem_append.mp hx with hx | hx
        · exact h.fits x (by simp [hx])
        · rcases mem_cons.mp hx with rfl | hx
          · exact hfits
          · exact h.fits x (by simp [hx]),
      by simpa [Nat.add_assoc] using hsmall⟩

/-- Where the size of the contents reaches 2^32 bytes, the block is cut down to nothing. -/
theorem intsetAdd_overflow (h : is.Holds xs) (hwidth : ¬ (intsetValueEncoding value).size > is.encoding.size)
    (hsearch : intsetSearch is value = some (false, pos)) (hbig : 2 ^ 32 ≤ (xs.length + 1) * is.encoding.size) :
    intsetAdd is value = none := by
  have hlen := h.length_lt
  have hsmall := h.small
  have hsize : (xs.length + 1) * is.encoding.size = 2 ^ 32 := by
    rw [Nat.add_one_mul] at hbig ⊢
    cases henc : is.encoding <;> rw [henc] at hbig hsmall <;> simp only [IntsetEnc.size] at hbig hsmall ⊢ <;> omega
  have hresize : (intsetResize is ((is.length + 1) % 2 ^ 32)).contents = [] := by
    rw [intsetResize, h.length_eq, Nat.mod_eq_of_lt (show xs.length + 1 < 2 ^ 32 by omega), hsize, Nat.mod_self]
    simp [Memory.realloc]
  have hset : ∀ is' : Intset, is'.contents = [] → ∀ p : ℤ, is'.set p value = none := by
    intro is' hnil p
    have := is'.encoding.size_pos.1
    unfold Intset.set
    split_ifs
    · rfl
    · rw [hnil, write_none (by simp; omega)]
      rfl
  rw [intsetAdd, if_neg hwidth, hsearch]
  simp only [bind_eq_bind, bind_some, Bool.false_eq_true, if_false]
  generalize hr : intsetResize is ((is.length + 1) % 2 ^ 32) = r at hresize
  split_ifs with hpos
  · cases hmove : intsetMoveTail r pos (pos + 1) with
    | none => rfl
    | some is' =>
      have hnil : is'.contents = [] := by
        simp only [intsetMoveTail, map_eq_some_iff, Memory.move, bind_eq_some_iff] at hmove
        obtain ⟨c, ⟨bs, -, hwrite⟩, rfl⟩ := hmove
        have := write_length hwrite
        rw [hresize] at this
        exact eq_nil_of_length_eq_zero this
      rw [bind_some, hset is' hnil]
      rfl
  · rw [bind_some, hset r hresize]
    rfl

/-! ### The change of width -/

/-- Values are rewritten from the last to the first; what is not rewritten yet lies before
the place of the next one. -/
theorem upgradeLoop_eq {curenc : IntsetEnc} (prepend : ℕ) (hfits : ∀ x ∈ xs, Fits curenc.size x) (is : Intset)
    (hle : curenc.size ≤ is.encoding.size) {gap tail : Bytes}
    (hlen : (words curenc.size xs ++ gap).length = (xs.length + prepend) * is.encoding.size)
    (hc : is.contents = words curenc.size xs ++ gap ++ tail) :
    ∃ hole : Bytes, hole.length = prepend * is.encoding.size ∧ Intset.upgradeLoop curenc prepend xs.length is =
        some { is with contents := hole ++ words is.encoding.size xs ++ tail } := by
  induction xs using List.reverseRecOn generalizing is gap tail with
  | nil =>
    refine ⟨gap, by simpa using hlen, ?_⟩
    have hcontents : gap ++ words is.encoding.size [] ++ tail = is.contents := by simpa using hc.symm
    rw [hcontents]
    rfl
  | append_singleton ys y ih =>
    have hget : is.getEncoded ys.length curenc = some y := by
      have hcontents : is.contents = words curenc.size (ys ++ y :: []) ++ (gap ++ tail) := by
        rw [hc, append_assoc]
      exact getEncoded_words hcontents (hfits y (by simp))
    -- the place of `y` is at the end of what is before the tail
    obtain ⟨front, last, hsplit, hfront, hlast⟩ : ∃ front last : Bytes,
        words curenc.size (ys ++ [y]) ++ gap = words curenc.size ys ++ front ++ last ∧
          (words curenc.size ys ++ front).length = (ys.length + prepend) * is.encoding.size ∧
          last.length = is.encoding.size := by
      obtain ⟨k, hk⟩ :=
        Nat.exists_eq_add_of_le (Nat.mul_le_mul (show ys.length ≤ ys.length + prepend by omega) hle)
      simp only [words_append, words_cons, words_nil, append_nil, length_append, words_length,
        intBytes_length, length_singleton] at hlen
      rw [show ys.length + 1 + prepend = ys.length + prepend + 1 by omega, Nat.add_one_mul] at hlen
      refine ⟨(intBytes curenc.size y ++ gap).take k, (intBytes curenc.size y ++ gap).drop k, ?_, ?_, ?_⟩
      · simp [append_assoc]
      · simp only [length_append, words_length, length_take, intBytes_length]
        omega
      · simp only [length_drop, length_append, intBytes_length]
        omega
    have hset : is.set (ys.length + prepend : ℕ) y =
        some { is with contents := words curenc.size ys ++ front ++ intBytes is.encoding.size y ++ tail } :=
      Intset.set_eq (by rw [hc, hsplit]) hfront hlast y
    obtain ⟨hole, hhole, hloop⟩ := ih (fun x hx => hfits x (by simp [hx]))
      { is with contents := words curenc.size ys ++ front ++ (intBytes is.encoding.size y ++ tail) }
      hle hfront rfl
    refine ⟨hole, hhole, ?_⟩
    rw [length_append, length_singleton, Intset.upgradeLoop, hget]
    simp only [bind_eq_bind, bind_some]
    rw [← Nat.cast_add, hset, bind_some, append_assoc, hloop]
    simp

theorem intsetUpgradeAndAdd_def (h : is.Holds xs) (value : ℤ) : intsetUpgradeAndAdd is value =
      (Intset.upgradeLoop is.encoding (if value < 0 then 1 else 0) xs.length ⟨intsetValueEncoding value, xs.length,
          Memory.realloc 0 is.contents ((xs.length + 1) * (intsetValueEncoding value).size % 2 ^ 32)⟩).bind fun is =>
        (is.set (if value < 0 then 0 else wrapInt is.length) value).bind fun is =>
          some { is with length := (is.length + 1) % 2 ^ 32 } := by
  have hlen := h.length_lt
  have hwrap : wrapInt (xs.length : ℤ) = xs.length := wrapInt_eq (by omega) (by omega)
  have hnat : ¬ (xs.length : ℤ) < 0 := by omega
  have hnext : (xs.length + 1) % 2 ^ 32 = xs.length + 1 := Nat.mod_eq_of_lt (by omega)
  rw [intsetUpgradeAndAdd]
  simp only [h.length_eq, hwrap, hnext, if_neg hnat, Int.toNat_natCast, intsetResize, bind_eq_bind]
  rfl

/-- An addition that widens the set puts the value at one of its ends. -/
theorem intsetUpgradeAndAdd_eq (h : is.Holds xs) (hv : Int64 value)
    (hwidth : (intsetValueEncoding value).size > is.encoding.size)
    (hsmall : (xs.length + 1) * (intsetValueEncoding value).size < 2 ^ 32) :
    ∃ is', intsetUpgradeAndAdd is value = some is' ∧ is'.encoding = intsetValueEncoding value ∧
      is'.Holds (if value < 0 then value :: xs else xs ++ [value]) := by
  rw [intsetUpgradeAndAdd_def h]
  generalize henc : intsetValueEncoding value = enc at hwidth hsmall ⊢
  have hlen := h.length_lt
  obtain ⟨gap, hgap⟩ := Nat.exists_eq_add_of_le (Nat.mul_le_mul_left xs.length hwidth.le)
  have hfits : Fits enc.size value := henc ▸ (fits_encoding_iff hv _).mpr le_rfl
  have hnot : ¬ Fits is.encoding.size value := by
    rw [fits_encoding_iff hv, henc]
    omega
  have hbeyond : ∀ x ∈ xs, if value < 0 then value < x else x < value :=
    fun x hx => beyond_of_not_fits hnot (h.fits x hx)
  have hmono : ∀ x ∈ xs, Fits enc.size x := fun x hx => Fits.mono hwidth.le (h.fits x hx)
  have hnext : (xs.length + 1) % 2 ^ 32 = xs.length + 1 := Nat.mod_eq_of_lt (by omega)
  have hcontents : Memory.realloc 0 is.contents ((xs.length + 1) * enc.size % 2 ^ 32) = words is.encoding.size xs ++
        (replicate gap 0 ++ replicate enc.size 0) := by
    rw [Nat.mod_eq_of_lt hsmall, Nat.add_one_mul, h.contents_eq,
      realloc_of_le _ (by rw [words_length]; omega), words_length, ← replicate_add,
      show xs.length * enc.size + enc.size - xs.length * is.encoding.size = gap + enc.size by omega]
  rw [hcontents]
  by_cases hneg : value < 0
  · simp only [hneg, if_true] at hbeyond ⊢
    have hroom : (words is.encoding.size xs ++
        (replicate gap 0 ++ replicate enc.size 0)).length =
        (xs.length + 1) * enc.size := by
      simp only [length_append, words_length, length_replicate, Nat.add_one_mul]
      omega
    obtain ⟨hole, hhole, hloop⟩ :=
      upgradeLoop_eq 1 h.fits ⟨enc, xs.length, _⟩ hwidth.le hroom (append_nil _).symm
    refine ⟨⟨enc, xs.length + 1, words enc.size (value :: xs)⟩, ?_, rfl, ?_⟩
    · have hset := @Intset.set_eq ⟨enc, xs.length, hole ++ words enc.size xs ++ []⟩ [] hole (words enc.size xs) 0
        (by simp) (by simp) (by simpa using hhole) value
      rw [hloop, bind_some]
      simp only [Nat.cast_zero] at hset
      rw [hset]
      simp only [bind_some, hnext]
      rfl
    · refine ⟨by simp, rfl, pairwise_cons.mpr ⟨hbeyond, h.sorted⟩, ?_, hsmall⟩
      exact forall_mem_cons.mpr ⟨hfits, hmono⟩
  · simp only [hneg, if_false] at hbeyond ⊢
    have hroom : (words is.encoding.size xs ++
        replicate gap 0).length = (xs.length + 0) * enc.size := by
      simp only [length_append, words_length, length_replicate, Nat.add_zero]
      omega
    obtain ⟨hole, hhole, hloop⟩ := upgradeLoop_eq 0 h.fits ⟨enc, xs.length, _⟩ hwidth.le hroom
      (append_assoc _ _ _).symm
    have hnil : hole = [] := eq_nil_of_length_eq_zero (by simpa using hhole)
    subst hnil
    refine ⟨⟨enc, xs.length + 1, words enc.size (xs ++ [value])⟩, ?_, rfl, ?_⟩
    · have hset := @Intset.set_eq ⟨enc, xs.length, [] ++ words enc.size xs ++ replicate enc.size 0⟩
        (words enc.size xs) (replicate enc.size 0) [] xs.length (by simp) (by simp) (by simp) value
      have hwrap : wrapInt (xs.length : ℤ) = xs.length := wrapInt_eq (by omega) (by omega)
      rw [hloop, bind_some]
      simp only [hwrap]
      rw [hset]
      simp only [bind_some, hnext]
      simp
    · refine ⟨by simp, rfl, ?_, ?_, by simpa using hsmall⟩
      · rw [pairwise_append]
        exact ⟨h.sorted, pairwise_singleton _ _, by simpa using hbeyond⟩
      · intro x hx
        rcases mem_append.mp hx with hx | hx
        · exact hmono x hx
        · rw [mem_singleton.mp hx]
          exact hfits

theorem intsetUpgradeAndAdd_overflow (h : is.Holds xs) (hwidth : (intsetValueEncoding value).size > is.encoding.size)
    (hbig : 2 ^ 32 ≤ (xs.length + 1) * (intsetValueEncoding value).size) : intsetUpgradeAndAdd is value = none := by
  rw [intsetUpgradeAndAdd_def h]
  generalize intsetValueEncoding value = enc at hwidth hbig ⊢
  have hsmall := h.small
  have hsize := enc.size_pos
  -- the rewritten last value does not fit in what is left of the block
  have hcut : (xs.length + 1) * enc.size % 2 ^ 32 < xs.length * enc.size := by
    cases enc <;> cases henc : is.encoding <;> rw [henc] at hwidth hsmall <;>
      simp only [IntsetEnc.size] at hbig hwidth hsmall ⊢ <;> omega
  cases hn : xs.length with
  | zero =>
    rw [hn] at hbig
    omega
  | succ n =>
    rw [hn] at hcut
    have hset : ∀ (prepend : ℕ) (v : ℤ),
        (⟨enc, n + 1, Memory.realloc 0 is.contents ((n + 1 + 1) * enc.size % 2 ^ 32)⟩ : Intset).set
          (n + prepend) v =
          none := by
      intro prepend v
      have hle : (n + 1) * enc.size ≤ (n + prepend + 1) * enc.size := Nat.mul_le_mul_right _ (by omega)
      rw [Intset.set, if_neg (by omega), show ((n : ℤ) + prepend).toNat = n + prepend by omega, write_none]
      · rfl
      · rw [realloc_length, intBytes_length, ← Nat.add_one_mul]
        exact hcut.trans_le hle
    rw [Intset.upgradeLoop]
    cases hget : Intset.getEncoded _ (n : ℤ) is.encoding with
    | none => rfl
    | some v =>
      simp only [bind_eq_bind, bind_some]
      rw [hset]
      rfl

/-! ### Removing -/

theorem moveTail_down (h : is.Holds (a ++ value :: b)) : ∃ rest : Bytes,
      (if a.length < is.length - 1 then intsetMoveTail is (a.length + 1) a.length else some is) =
        some { is with contents := words is.encoding.size a ++ words is.encoding.size b ++ rest } := by
  have hlen : is.length = a.length + (b.length + 1) := by simpa using h.length_eq
  have hsmall := h.small
  have hsize := is.encoding.size_pos.1
  by_cases hb : a.length < is.length - 1
  · have hle : b.length * is.encoding.size ≤ (a ++ value :: b).length * is.encoding.size :=
      Nat.mul_le_mul_right _ (by simp; omega)
    have hrest : is.length - (a.length + 1) = b.length := by omega
    have hbytes := tail_bytes (n := is.length) (p := a.length + 1) (w := is.encoding.size) (by omega) (by omega)
      (by rw [hrest]; omega)
    have hc :
      is.contents = words is.encoding.size a ++ intBytes is.encoding.size value ++ words is.encoding.size b := by
      simp [h.contents_eq]
    refine ⟨(intBytes is.encoding.size value ++ words is.encoding.size b).drop
      (words is.encoding.size b).length, ?_⟩
    rw [if_pos hb, intsetMoveTail, hc]
    simp only [hbytes, hrest]
    rw [move_down (by rw [words_length]) (by rw [words_length, intBytes_length, Nat.add_one_mul])
      (by rw [words_length])]
    rfl
  · have hnil : b = [] := eq_nil_of_length_eq_zero (by omega)
    subst hnil
    have hc :
      words is.encoding.size a ++ words is.encoding.size [] ++ intBytes is.encoding.size value = is.contents := by
      simp [h.contents_eq]
    refine ⟨intBytes is.encoding.size value, ?_⟩
    rw [if_neg hb, hc]

theorem Intset.Holds.removed (h : is.Holds (a ++ value :: b)) :
    Intset.Holds ⟨is.encoding, a.length + b.length, words is.encoding.size (a ++ b)⟩ (a ++ b) := by
  have hsub : (a ++ b).Sublist (a ++ value :: b) := (sublist_cons_self value b).append_left a
  refine ⟨by simp, rfl, h.sorted.sublist hsub, fun x hx => h.fits x (hsub.subset hx), ?_⟩
  exact (Nat.mul_le_mul_right _ hsub.length_le).trans_lt h.small

theorem intsetRemove_found (h : is.Holds (a ++ value :: b))
    (hwidth : (intsetValueEncoding value).size ≤ is.encoding.size)
    (hsearch : intsetSearch is value = some (true, a.length)) :
    ∃ is', intsetRemove is value = some (is', true) ∧ is'.encoding = is.encoding ∧ is'.Holds (a ++ b) := by
  have hlen : is.length - 1 = a.length + b.length := by
    rw [h.length_eq]
    simp
  obtain ⟨rest, hmove⟩ := moveTail_down h
  have hsmall := h.removed.small
  simp only [length_append] at hsmall
  have hcut : Memory.realloc 0 (words is.encoding.size a ++ words is.encoding.size b ++ rest)
      ((a.length + b.length) * is.encoding.size % 2 ^ 32) = words is.encoding.size (a ++ b) := by
    have hwords : (a.length + b.length) * is.encoding.size = (words is.encoding.size (a ++ b)).length := by
      rw [words_length, length_append]
    rw [Nat.mod_eq_of_lt hsmall, ← words_append, hwords, realloc_of_ge _ (by simp), take_left]
  refine ⟨⟨is.encoding, a.length + b.length, words is.encoding.size (a ++ b)⟩, ?_, rfl, h.removed⟩
  rw [intsetRemove, if_pos hwidth, hsearch]
  simp only [bind_eq_bind, bind_some, if_true]
  rw [hmove]
  simp only [bind_some, hlen, intsetResize, hcut]
  rfl

/-! ### Runs -/

def Intset.Represents (is : Intset) (st : Finset ℤ × IntsetEnc) : Prop :=
  is.encoding = st.2 ∧ is.Holds (st.1.sort (· ≤ ·))

theorem sort_toFinset_of_pairwise (h : xs.Pairwise (· < ·)) : xs.toFinset.sort (· ≤ ·) = xs :=
  (toFinset_sort (· ≤ ·) (h.imp ne_of_lt)).mpr (h.imp le_of_lt)

theorem Intset.Holds.represents (h : is.Holds xs) (hs : xs.toFinset = s) : is.Represents (s, is.encoding) := by
  subst hs
  refine ⟨rfl, ?_⟩
  rwa [sort_toFinset_of_pairwise h.sorted]

theorem Splits.found_eq {found : Bool} (h : Splits xs value found pos) : found = decide (value ∈ xs) := by
  cases h with
  | found hxs => simp [hxs]
  | missing hxs ha hb =>
    subst hxs
    refine (decide_eq_false fun hmem => ?_).symm
    rcases mem_append.mp hmem with hmem | hmem
    · exact absurd (ha _ hmem) (lt_irrefl _)
    · exact absurd (hb _ hmem) (lt_irrefl _)

theorem Intset.Holds.search_sort (h : is.Holds (s.sort (· ≤ ·))) (v : ℤ) :
    ∃ pos, intsetSearch is v = some (decide (v ∈ s), pos) ∧
      Splits (s.sort (· ≤ ·)) v (decide (v ∈ s)) pos := by
  obtain ⟨found, pos, hsearch, hsplits⟩ := intsetSearch_spec h v
  have hfound := hsplits.found_eq
  simp only [Finset.mem_sort] at hfound
  exact ⟨pos, hfound ▸ hsearch, hfound ▸ hsplits⟩

theorem Intset.Holds.not_mem_of_wide (h : is.Holds (s.sort (· ≤ ·))) (hv : Int64 v)
    (hwidth : ¬ (intsetValueEncoding v).size ≤ is.encoding.size) : v ∉ s :=
  fun hmem => hwidth ((fits_encoding_iff hv is.encoding).mp (h.fits v ((Finset.mem_sort _).mpr hmem)))

section

variable (h : is.Represents (s, e))
include h

theorem Intset.Represents.add (hv : Int64 v) :
    if (insert v s).card * (e.wider (intsetValueEncoding v)).size < 2 ^ 32 then
      ∃ is', intsetAdd is v = some (is', decide (v ∉ s)) ∧
    is'.Represents (insert v s, e.wider (intsetValueEncoding v)) else intsetAdd is v = none := by
  obtain ⟨rfl, h⟩ := h
  simp only at h ⊢
  by_cases hwidth : (intsetValueEncoding v).size > is.encoding.size
  · have hnot : v ∉ s := h.not_mem_of_wide hv (Nat.not_le.mpr hwidth)
    rw [IntsetEnc.wider, if_pos hwidth, Finset.card_insert_of_notMem hnot, ← Finset.length_sort (· ≤ ·)]
    split_ifs with hsmall
    · obtain ⟨is', hadd, henc, hholds⟩ := intsetUpgradeAndAdd_eq h hv hwidth hsmall
      refine ⟨is', ?_, henc ▸ hholds.represents ?_⟩
      · rw [intsetAdd, if_pos hwidth, hadd]
        simp [hnot]
      · ext x
        split_ifs <;> simp
    · rw [intsetAdd, if_pos hwidth, intsetUpgradeAndAdd_overflow h hwidth (by omega)]
      rfl
  · rw [IntsetEnc.wider, if_neg hwidth]
    obtain ⟨pos, hsearch, hsplits⟩ := h.search_sort v
    by_cases hmem : v ∈ s
    · have hsmall := h.small
      rw [Finset.length_sort] at hsmall
      rw [Finset.insert_eq_of_mem hmem, if_pos hsmall, intsetAdd, if_neg hwidth, hsearch]
      exact ⟨is, by simp [hmem], rfl, h⟩
    · rw [decide_eq_false hmem] at hsearch hsplits
      rw [Finset.card_insert_of_notMem hmem, ← Finset.length_sort (· ≤ ·)]
      split_ifs with hsmall
      · generalize hxs : s.sort (· ≤ ·) = xs at h hsplits hsmall
        cases hsplits with
        | @missing a b hab ha hb =>
          subst hab
          obtain ⟨is', hadd, henc, hholds⟩ := intsetAdd_missing h hwidth
            ((fits_encoding_iff hv _).mpr (by omega)) hsearch ha hb hsmall
          refine ⟨is', by simp [hadd, hmem], henc ▸ hholds.represents ?_⟩
          have hs := Finset.sort_toFinset s (· ≤ ·)
          rw [hxs] at hs
          rw [← hs]
          ext x
          simp only [List.mem_toFinset, mem_append, mem_cons, Finset.mem_insert]
          tauto
      · exact intsetAdd_overflow h hwidth hsearch (by omega)

theorem Intset.Represents.remove (hv : Int64 v) :
    ∃ is', intsetRemove is v = some (is', decide (v ∈ s)) ∧ is'.Represents (s.erase v, e) := by
  obtain ⟨rfl, h⟩ := h
  simp only at h ⊢
  by_cases hwidth : (intsetValueEncoding v).size ≤ is.encoding.size
  · obtain ⟨pos, hsearch, hsplits⟩ := h.search_sort v
    by_cases hmem : v ∈ s
    · rw [decide_eq_true hmem] at hsearch hsplits
      generalize hxs : s.sort (· ≤ ·) = xs at h hsplits
      cases hsplits with
      | @found a b hab =>
        subst hab
        obtain ⟨is', hremove, henc, hholds⟩ := intsetRemove_found h hwidth hsearch
        refine ⟨is', by simp [hremove, hmem], henc ▸ hholds.represents ?_⟩
        have hnodup : (a ++ v :: b).Nodup := h.sorted.imp ne_of_lt
        have hs := Finset.sort_toFinset s (· ≤ ·)
        rw [hxs] at hs
        rw [← hs]
        ext x
        simp only [List.mem_toFinset, mem_append, mem_cons, Finset.mem_erase]
        rw [nodup_append, nodup_cons] at hnodup
        refine ⟨?_, by tauto⟩
        intro hx
        refine ⟨?_, by tauto⟩
        rintro rfl
        rcases hx with hx | hx
        · exact hnodup.2.2 x hx x (by simp) rfl
        · exact hnodup.2.1.1 hx
    · refine ⟨is, ?_, rfl, ?_⟩
      · rw [intsetRemove, if_pos hwidth, hsearch]
        simp [hmem]
      · rwa [Finset.erase_eq_of_notMem hmem]
  · have hnot : v ∉ s := h.not_mem_of_wide hv hwidth
    refine ⟨is, ?_, rfl, ?_⟩
    · rw [intsetRemove, if_neg hwidth]
      simp [hnot]
    · rwa [Finset.erase_eq_of_notMem hnot]

theorem Intset.Represents.find (hv : Int64 v) : intsetFind is v = some (decide (v ∈ s)) := by
  obtain ⟨rfl, h⟩ := h
  simp only at h
  unfold intsetFind
  split_ifs with hwidth
  · obtain ⟨pos, hsearch, -⟩ := h.search_sort v
    rw [hsearch]
    rfl
  · simp [h.not_mem_of_wide hv hwidth]

theorem Intset.Represents.intsetGet (i : ℕ) : intsetGet is i = some ((s.sort (· ≤ ·))[i]?) := by
  obtain ⟨-, h⟩ := h
  simp only at h
  have hlen := h.length_lt
  rw [RedisIR.intsetGet, h.length_eq]
  split_ifs with hi
  · rw [wrapInt_eq (by omega) (by omega), h.get hi, List.getElem?_eq_getElem hi]
    rfl
  · rw [List.getElem?_eq_none (by omega)]

end

theorem intsetNew_represents : intsetNew.Represents (∅, .int16) :=
  ⟨rfl, by simp [intsetNew], by simp [intsetNew], by simp, by simp, by simp⟩

theorem Intset.Represents.step {st : Finset ℤ × IntsetEnc} (h : is.Represents st) {op : IntsetOp}
    (hop : Int64 op.value) :
    (op.Small st → ∃ is' r, op.run is = some (is', r) ∧ (op.apply st).2 = [r] ∧
      is'.Represents (op.apply st).1) ∧ (¬ op.Small st → op.run is = none) := by
  obtain ⟨s, e⟩ := st
  cases op with
  | add v =>
    have hadd := h.add hop
    simp only [IntsetOp.Small]
    split_ifs at hadd with hsmall
    · obtain ⟨is', hrun, hrep⟩ := hadd
      exact ⟨fun _ => ⟨is', _, hrun, rfl, hrep⟩, fun hnot => absurd hsmall hnot⟩
    · exact ⟨fun hsmall' => absurd hsmall' hsmall, fun _ => hadd⟩
  | remove v =>
    obtain ⟨is', hrun, hrep⟩ := h.remove hop
    exact ⟨fun _ => ⟨is', _, hrun, rfl, hrep⟩, fun hnot => absurd trivial hnot⟩
  | find v =>
    have hfind := h.find (v := v) hop
    refine ⟨fun _ => ⟨is, _, ?_, rfl, h⟩, fun hnot => absurd trivial hnot⟩
    rw [IntsetOp.run, hfind]
    rfl

theorem Intset.Represents.run {ops : List IntsetOp} (hops : ∀ op ∈ ops, Int64 op.value)
    {st : Finset ℤ × IntsetEnc} (h : is.Represents st) : (Along IntsetOp.apply IntsetOp.Small ops st →
        ∃ is', intsetRun ops is = some (is', (run IntsetOp.apply ops st).2) ∧
          is'.Represents (run IntsetOp.apply ops st).1) ∧
      (¬ Along IntsetOp.apply IntsetOp.Small ops st → intsetRun ops is = none) := by
  induction ops generalizing is st with
  | nil => exact ⟨fun _ => ⟨is, rfl, h⟩, fun hnot => absurd trivial hnot⟩
  | cons op ops ih =>
    obtain ⟨hstep, hfail⟩ := h.step (hops op (by simp))
    by_cases hsmall : op.Small st
    · obtain ⟨is', r, hrun, hout, hrep⟩ := hstep hsmall
      obtain ⟨hrest, hrest'⟩ := ih (fun op' hop' => hops op' (by simp [hop'])) hrep
      rw [intsetRun, hrun, bind_some]
      refine ⟨?_, ?_⟩
      · intro halong
        obtain ⟨is'', hrun', hrep'⟩ := hrest halong.2
        refine ⟨is'', ?_, hrep'⟩
        simp only [hrun', map_some, run, hout]
        rfl
      · intro hnot
        simp [hrest' fun halong => hnot ⟨hsmall, halong⟩, map_none]
    · refine ⟨fun halong => absurd halong.1 hsmall, fun _ => ?_⟩
      rw [intsetRun, hfail hsmall]
      rfl

/-- From `intsetNew`, every sequence of operations is one of a finite set of integers, with the
same flags, and the array holds the set in increasing order, exactly as long as each addition
leaves contents of fewer than 2^32 bytes; the first one that does not writes outside of the
block. -/
theorem intset_refines_iff {ops : List IntsetOp} (hops : ∀ op ∈ ops, Int64 op.value) :
    let final := run IntsetOp.apply ops (∅, .int16)
    (Along IntsetOp.apply IntsetOp.Small ops (∅, .int16) →
        ∃ is, intsetRun ops intsetNew = some (is, final.2) ∧ is.encoding = final.1.2 ∧
          is.Holds (final.1.1.sort (· ≤ ·)) ∧ ∀ i, intsetGet is i = some ((final.1.1.sort (· ≤ ·))[i]?)) ∧
      (¬ Along IntsetOp.apply IntsetOp.Small ops (∅, .int16) → intsetRun ops intsetNew = none) := by
  obtain ⟨hgood, hbad⟩ := intsetNew_represents.run hops
  refine ⟨?_, hbad⟩
  intro halong
  obtain ⟨is, hrun, hrep⟩ := hgood halong
  exact ⟨is, hrun, hrep.1, hrep.2, hrep.intsetGet⟩

/-- Additions with a change of width, one of them twice, and a removal. -/
def mixedOps : List IntsetOp := [.add 5, .add (-70000), .add 5, .find (-70000), .remove 5]

theorem intset_refines_mixedOps :
    ∃ is, intsetRun mixedOps intsetNew = some (is, [true, true, false, true, true]) ∧ is.encoding = .int32 ∧
      is.Holds (Finset.sort {-70000} (· ≤ ·)) ∧
        ∀ i, intsetGet is i = some ((Finset.sort {-70000} (· ≤ ·))[i]?) :=
  (@intset_refines_iff mixedOps (by decide)).1 (by decide)

/-- The additions of `n` consecutive values of 64 bits. -/
def wideAdds (n : ℕ) : List IntsetOp := (List.range n).map fun i : ℕ => .add (2 ^ 40 + (i : ℤ))

theorem wideAdds_succ (n : ℕ) : wideAdds (n + 1) = wideAdds n ++ [.add (2 ^ 40 + n)] := by
  rw [wideAdds, range_succ, map_append]
  rfl

theorem wideAdds_int64 (hn : n ≤ 2 ^ 32) : ∀ op ∈ wideAdds n, Int64 op.value := by
  intro op hop
  obtain ⟨i, hi, rfl⟩ := List.mem_map.mp hop
  have := List.mem_range.mp hi
  refine (fits_iff .int64 _).mpr ?_
  simp only [IntsetOp.value, IntsetEnc.size]
  omega

theorem valueEncoding_wide (n : ℕ) : intsetValueEncoding (2 ^ 40 + n) = .int64 :=
  if_pos (by right; omega)

theorem wideAdds_run (n : ℕ) : (run IntsetOp.apply (wideAdds (n + 1)) (∅, .int16)).1 =
      ((Finset.range (n + 1)).image fun i : ℕ => (2 ^ 40 + i : ℤ), .int64) := by
  induction n with
  | zero => rfl
  | succ n ih =>
    rw [wideAdds_succ, run_append, ih, Finset.range_add_one (n := n + 1), Finset.image_insert]
    simp only [run, IntsetOp.apply, valueEncoding_wide]
    rfl

theorem wideAdds_card (n : ℕ) : ((Finset.range n).image fun i : ℕ => (2 ^ 40 + i : ℤ)).card = n := by
  rw [Finset.card_image_of_injective, Finset.card_range]
  intro i j hij
  simpa using hij

theorem wideAdds_not_small (hn : 2 ^ 32 ≤ (n + 2) * 8) :
    ¬ Along IntsetOp.apply IntsetOp.Small (wideAdds (n + 2)) (∅, .int16) := by
  intro halong
  rw [wideAdds_succ, along_append, wideAdds_run] at halong
  have hsmall := halong.2.1
  simp only [IntsetOp.Small, valueEncoding_wide] at hsmall
  rw [← Finset.image_insert (fun i : ℕ => (2 ^ 40 + i : ℤ)) (n + 1), ← Finset.range_add_one,
    wideAdds_card] at hsmall
  exact absurd (hn.trans_lt hsmall) (lt_irrefl _)

/-- Their 2^29 values would take 2^32 bytes. -/
theorem wide_set_overflows : (∀ op ∈ wideAdds (2 ^ 29), Int64 op.value) ∧ (wideAdds (2 ^ 29)).length = 2 ^ 29 ∧
      intsetRun (wideAdds (2 ^ 29)) intsetNew = none := by
  have h64 : ∀ op ∈ wideAdds (2 ^ 29), Int64 op.value := wideAdds_int64 (by norm_num)
  refine ⟨h64, by rw [wideAdds, length_map, length_range], (intsetNew_represents.run h64).2 ?_⟩
  rw [show (2 : ℕ) ^ 29 = 536870910 + 2 by norm_num]
  exact wideAdds_not_small (by norm_num)

end RedisIR
