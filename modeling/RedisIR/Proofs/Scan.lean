import RedisIR.Lib.ReverseCursor
import RedisIR.Proofs.Dict

/-! A full scan emits every key that is there all the time, however the tables change between
its calls: the cursor passes the hashes in the order of their reversed bits. -/

namespace RedisIR

open Buckets ReverseCursor Option Multiset

variable {n b : ℕ} {v : BitVec 64}

/-! ### The cursor -/

/-- One round of `rev`. -/
def swapBits (s : ℕ) (mask v : BitVec 64) : BitVec 64 := ((v >>> s) &&& mask) ||| ((v <<< s) &&& ~~~mask)

theorem getLsbD_swapBits {s : ℕ} {mask : BitVec 64}
    (h : ∀ i < 64, if mask.getLsbD i then i ^^^ s = s + i else s ≤ i ∧ i ^^^ s = i - s) (v : BitVec 64) {i : ℕ}
    (hi : i < 64) : (swapBits s mask v).getLsbD i = v.getLsbD (i ^^^ s) := by
  have hbit := h i hi
  rw [swapBits, BitVec.getLsbD_or, BitVec.getLsbD_and, BitVec.getLsbD_and, BitVec.getLsbD_ushiftRight,
    BitVec.getLsbD_shiftLeft, BitVec.getLsbD_not]
  split_ifs at hbit with hm
  · simp [hm, hbit]
  · have hlt : ¬ i < s := by omega
    rw [Bool.not_eq_true] at hm
    rw [hm, hbit.2]
    simp [hi, hlt]

theorem rev_eq (v : BitVec 64) : rev v = v.reverse := by
  have hrounds : rev v = swapBits 1 0x5555555555555555 (swapBits 2 0x3333333333333333 (swapBits 4 0x0F0F0F0F0F0F0F0F
      (swapBits 8 0x00FF00FF00FF00FF (swapBits 16 0x0000FFFF0000FFFF (swapBits 32 0x00000000FFFFFFFF v))))) := rfl
  have hxor : ∀ i < 64, i ^^^ 1 < 64 ∧ i ^^^ 2 < 64 ∧ i ^^^ 4 < 64 ∧ i ^^^ 8 < 64 ∧ i ^^^ 16 < 64 ∧
      i ^^^ 1 ^^^ 2 ^^^ 4 ^^^ 8 ^^^ 16 ^^^ 32 = 63 - i := by decide
  refine BitVec.eq_of_getLsbD_eq ?_
  intro i hi
  have h1 := (hxor i hi).1
  have h2 := (hxor _ h1).2.1
  have h4 := (hxor _ h2).2.2.1
  have h8 := (hxor _ h4).2.2.2.1
  have h16 := (hxor _ h8).2.2.2.2.1
  rw [hrounds, getLsbD_swapBits (by decide) _ hi, getLsbD_swapBits (by decide) _ h1, getLsbD_swapBits (by decide) _ h2,
    getLsbD_swapBits (by decide) _ h4, getLsbD_swapBits (by decide) _ h8, getLsbD_swapBits (by decide) _ h16,
    (hxor i hi).2.2.2.2.2, BitVec.getLsbD_reverse, BitVec.getMsbD_eq_getLsbD]
  simp [hi]

theorem nextCursor_eq (a : ℕ) (v : BitVec 64) : nextCursor (2 ^ a - 1) v = advance (mask 64 a) v := by
  rw [nextCursor, rev_eq, rev_eq]
  rfl

/-! ### One call -/

variable {K V : Type*} {hash : K → BitVec 64} {t : Dictht K V} {d : Dict K V} {a : ℕ}

/-- The bucket of a cursor holds the entries whose hashes agree with it in their lowest bits. -/
theorem Dictht.Wf.chain_eq (h : t.Wf hash) (hs : t.Sized a) (v : BitVec 64) :
    (t.chain (v.toNat &&& t.sizemask) : Multiset (K × V)) =
      t.entries.filter fun e => block a (hash e.1) = block a v := by
  have hlt : v.toNat &&& t.sizemask < t.size := by
    rw [hs.size_eq, hs.mask_eq, Nat.and_two_pow_sub_one_eq_mod]
    exact Nat.mod_lt _ (by positivity)
  rw [← filter_contents h.placed hlt]
  refine filter_congr ?_
  intro e _
  have ha : a ≤ 64 := hs.le_sixty.trans (by norm_num)
  rw [slot, hs.mask_eq]
  exact and_mask_eq_iff ha _ _

theorem Dictht.Sized.read_cursor (hs : t.Sized a) (v : BitVec 64) :
    t.read (v.toNat &&& t.sizemask) = some (t.chain (v.toNat &&& t.sizemask)) := by
  refine hs.read ?_
  rw [hs.mask_eq, Nat.and_two_pow_sub_one_eq_mod]
  exact Nat.mod_lt _ (by positivity)

theorem Dictht.Sized.pos_nextCursor (hs : t.Sized a) (v : BitVec 64) :
    pos (nextCursor t.sizemask v) = (block a v + 1) * 2 ^ (64 - a) % 2 ^ 64 := by
  have ha : a ≤ 64 := hs.le_sixty.trans (by norm_num)
  rw [hs.mask_eq, nextCursor_eq, pos_advance ha]

theorem next_mod_of_lt (ha : a ≤ 64) (hn : n < 2 ^ a) : n * 2 ^ (64 - a) % 2 ^ 64 = n * 2 ^ (64 - a) := by
  refine Nat.mod_eq_of_lt ?_
  calc n * 2 ^ (64 - a) < 2 ^ a * 2 ^ (64 - a) := Nat.mul_lt_mul_of_pos_right hn (by positivity)
    _ = 2 ^ 64 := by rw [← pow_add, Nat.add_sub_cancel' ha]

theorem next_mod_of_eq (ha : a ≤ 64) : 2 ^ a * 2 ^ (64 - a) % 2 ^ 64 = 0 := by
  rw [← pow_add, Nat.add_sub_cancel' ha, Nat.mod_self]

theorem lt_next (q : ℕ) (hn : 0 < n) : q < (q / n + 1) * n := by
  have := Nat.lt_div_mul_add hn (a := q)
  rw [Nat.add_one_mul]
  omega

theorem succ_inside {q : ℕ} (hn : 0 < n) (h : q + 1 < (q / n + 1) * n) : (q + 1) / n = q / n ∧ ¬ n ∣ q + 1 := by
  have hdiv : (q + 1) / n = q / n := by
    refine Nat.le_antisymm ?_ (Nat.div_le_div_right (Nat.le_succ q))
    exact Nat.le_of_lt_succ ((Nat.div_lt_iff_lt_mul hn).mpr h)
  refine ⟨hdiv, ?_⟩
  intro hdvd
  have hmul := Nat.div_mul_cancel hdvd
  have hle := Nat.div_mul_le_self q n
  rw [hdiv] at hmul
  omega

/-- Whether the loop over the larger table goes on, and from which bucket. -/
theorem scanLarger_step (hs : t.Sized b) (hab : a ≤ b) (v : BitVec 64) :
    block b v + 1 = (block a v + 1) * 2 ^ (b - a) ∧
        nextCursor t.sizemask v &&& (BitVec.ofNat 64 (2 ^ a - 1) ^^^ BitVec.ofNat 64 t.sizemask) = 0 ∧
        pos (nextCursor t.sizemask v) = (block a v + 1) * 2 ^ (64 - a) % 2 ^ 64 ∨
      block b v + 1 < (block a v + 1) * 2 ^ (b - a) ∧
        nextCursor t.sizemask v &&& (BitVec.ofNat 64 (2 ^ a - 1) ^^^ BitVec.ofNat 64 t.sizemask) ≠ 0 ∧
        block b (nextCursor t.sizemask v) = block b v + 1 ∧ block a (nextCursor t.sizemask v) = block a v := by
  have hb : b ≤ 64 := hs.le_sixty.trans (by norm_num)
  have hD : 0 < 2 ^ (64 - b) := by positivity
  have hR : 0 < 2 ^ (b - a) := by positivity
  have hwide : 2 ^ (b - a) * 2 ^ (64 - b) = 2 ^ (64 - a) := by
    rw [← pow_add]
    congr 1
    omega
  have hpos := hs.pos_nextCursor v
  have hdvd : 2 ^ (64 - b) ∣ pos (nextCursor t.sizemask v) := by
    rw [hpos]
    exact (Nat.dvd_mod_iff (pow_dvd_pow 2 (by omega))).mpr (Nat.dvd_mul_left _ _)
  have hcond := and_xor_mask_eq_zero_iff hab hb hdvd
  rw [mask, mask, ← hs.mask_eq] at hcond
  have hlt := lt_next (block b v) hR
  rw [← block_div hab hb] at hlt
  rcases Nat.eq_or_lt_of_le (Nat.succ_le_of_lt hlt) with hlast | hmore
  · refine .inl ⟨hlast, ?_, ?_⟩
    · rw [hcond, hpos, show block b v + 1 = _ from hlast, Nat.mul_assoc, hwide]
      exact (Nat.dvd_mod_iff (pow_dvd_pow 2 (by omega))).mpr (Nat.dvd_mul_left _ _)
    · rw [hpos, show block b v + 1 = _ from hlast, Nat.mul_assoc, hwide]
  · have hmore' := hmore
    rw [block_div hab hb] at hmore'
    obtain ⟨hsame, hnot⟩ := succ_inside hR hmore'
    -- the interval ends inside the table
    have hend : (block a v + 1) * 2 ^ (b - a) ≤ 2 ^ b := by
      calc (block a v + 1) * 2 ^ (b - a) ≤ 2 ^ a * 2 ^ (b - a) := Nat.mul_le_mul_right _ (block_lt (hab.trans hb) v)
        _ = 2 ^ b := by rw [← pow_add, Nat.add_sub_cancel' hab]
    rw [next_mod_of_lt hb (by omega)] at hpos
    have hblock : block b (nextCursor t.sizemask v) = block b v + 1 := by
      rw [block, hpos, Nat.mul_div_cancel _ hD]
    refine .inr ⟨hmore, ?_, hblock, ?_⟩
    · rw [Ne, hcond, hpos, ← hwide]
      intro h
      exact hnot ((Nat.mul_dvd_mul_iff_right hD).mp h)
    · rw [block_div hab hb, hblock, hsame, ← block_div hab hb]

/-- The loop over the larger table emits what is left of the interval of the smaller one. -/
theorem scanLarger_spec (hwf : t.Wf hash) (hs : t.Sized b) (hab : a ≤ b) {fuel : ℕ}
    (hfuel : (block a v + 1) * 2 ^ (b - a) ≤ block b v + fuel) :
    ∃ v' es, scanLarger (2 ^ a - 1) t fuel v = some (v', es) ∧ pos v' = (block a v + 1) * 2 ^ (64 - a) % 2 ^ 64 ∧
      (es : Multiset (K × V)) = t.entries.filter fun e =>
        block b v ≤ block b (hash e.1) ∧ block b (hash e.1) < (block a v + 1) * 2 ^ (b - a) := by
  induction fuel generalizing v with
  | zero =>
    have hlt := lt_next (block b v) (n := 2 ^ (b - a)) (by positivity)
    rw [← block_div hab (hs.le_sixty.trans (by norm_num))] at hlt
    omega
  | succ fuel ih =>
    rw [scanLarger, hs.read_cursor, bind_some]
    simp only
    obtain ⟨hlast, hstop, hpos⟩ | ⟨hmore, hcont, hblock, hsame⟩ := scanLarger_step hs hab v
    · rw [if_neg (not_not.mpr hstop)]
      refine ⟨_, _, rfl, hpos, ?_⟩
      rw [hwf.chain_eq hs, ← hlast]
      refine filter_congr ?_
      intro e _
      omega
    · rw [if_pos hcont]
      obtain ⟨v', es, hscan, hpos, hes⟩ := ih (v := nextCursor t.sizemask v) (by rw [hblock, hsame]; omega)
      refine ⟨v', t.chain (v.toNat &&& t.sizemask) ++ es, by rw [hscan, map_some], hsame ▸ hpos, ?_⟩
      rw [← coe_add, hes, hwf.chain_eq hs, hblock, hsame]
      exact filter_add_filter_interval t.entries (fun e => block b (hash e.1)) (by omega)

/-- A call emits the entries `entries` as far as they are in the interval of its cursor and not
before it, and its cursor goes to the next interval. -/
structure Emits (hash : K → BitVec 64) (a : ℕ) (entries : Multiset (K × V)) (v v' : BitVec 64)
    (es : List (K × V)) : Prop where
  pos_eq : pos v' = (block a v + 1) * 2 ^ (64 - a) % 2 ^ 64
  mem : ∀ e ∈ entries, pos v ≤ pos (hash e.1) → block a (hash e.1) = block a v → e ∈ es
  aligned : 2 ^ (64 - a) ∣ pos v → (es : Multiset (K × V)) = entries.filter fun e => block a (hash e.1) = block a v

theorem block_of_dvd (hab : a ≤ b) (hb : b ≤ 64) (h : 2 ^ (64 - a) ∣ pos v) :
    block b v = block a v * 2 ^ (b - a) := by
  obtain ⟨k, hk⟩ := h
  have hwide : 2 ^ (64 - a) = 2 ^ (64 - b) * 2 ^ (b - a) := by
    rw [← pow_add]
    congr 1
    omega
  rw [block, block, hk, Nat.mul_div_cancel_left _ (by positivity), hwide, Nat.mul_assoc,
    Nat.mul_div_cancel_left _ (by positivity), Nat.mul_comm]

theorem scanTwo_spec {t0 t1 : Dictht K V} (h0 : t0.Wf hash) (hs0 : t0.Sized a) (h1 : t1.Wf hash) (hs1 : t1.Sized b)
    (hab : a ≤ b) (v : BitVec 64) : ∃ v' es, ((t0.read (v.toNat &&& t0.sizemask)).bind fun de =>
        (scanLarger t0.sizemask t1 t1.size v).map fun r => (r.1, de ++ r.2)) = some (v', es) ∧
      Emits hash a (t0.entries + t1.entries) v v' es := by
  have hb : b ≤ 64 := hs1.le_sixty.trans (by norm_num)
  have hR : 0 < 2 ^ (b - a) := by positivity
  have hfuel : (block a v + 1) * 2 ^ (b - a) ≤ block b v + t1.size := by
    calc (block a v + 1) * 2 ^ (b - a) ≤ 2 ^ a * 2 ^ (b - a) := Nat.mul_le_mul_right _ (block_lt (hab.trans hb) v)
      _ = t1.size := by rw [← pow_add, Nat.add_sub_cancel' hab, hs1.size_eq]
      _ ≤ block b v + t1.size := Nat.le_add_left _ _
  obtain ⟨v', es, hscan, hpos, hes⟩ := scanLarger_spec h1 hs1 hab hfuel
  refine ⟨v', t0.chain (v.toNat &&& t0.sizemask) ++ es, ?_, hpos, ?_, ?_⟩
  · rw [hs0.read_cursor, bind_some, hs0.mask_eq, hscan, map_some]
  · intro e he hle hblock
    rw [← mem_coe, ← coe_add, h0.chain_eq hs0, hes, mem_add, mem_filter,
      mem_filter]
    refine (mem_add.mp he).imp (fun hmem => ⟨hmem, hblock⟩) fun hmem => ⟨hmem, block_mono hle, ?_⟩
    have hlt := lt_next (block b (hash e.1)) hR
    rwa [← block_div hab hb, hblock] at hlt
  · intro hdvd
    rw [← coe_add, h0.chain_eq hs0, hes, filter_add]
    congr 1
    refine filter_congr ?_
    intro e _
    rw [block_of_dvd hab hb hdvd, ← Nat.le_div_iff_mul_le hR, ← Nat.div_lt_iff_lt_mul hR, ← block_div hab hb]
    omega

theorem dictScan_of_resting (h : d.Wf hash) (hs : d.ht0.Sized a) (hre : ¬ dictIsRehashing d = true)
    (hsize : dictSize d ≠ 0) (v : BitVec 64) :
    ∃ v' es, dictScan d v = some (v', es) ∧ Emits hash a d.entries v v' es := by
  have hmem : ∀ e : K × V, e ∈ d.ht0.chain (v.toNat &&& d.ht0.sizemask) ↔
      e ∈ d.ht0.entries ∧ block a (hash e.1) = block a v := by
    intro e
    rw [← mem_coe, h.ht0.chain_eq hs, mem_filter]
  refine ⟨nextCursor d.ht0.sizemask v, d.ht0.chain (v.toNat &&& d.ht0.sizemask), ?_, hs.pos_nextCursor v, ?_, ?_⟩
  · rw [dictScan, if_neg hsize, if_pos hre, hs.read_cursor, map_some]
  · intro e he _ hblock
    rw [h.entries_of_resting hre] at he
    exact (hmem e).mpr ⟨he, hblock⟩
  · intro _
    rw [h.ht0.chain_eq hs, h.entries_of_resting hre]

/-- Every call on a dict with entries takes the steps of one of its tables. -/
theorem dictScan_spec (h : d.Wf hash) (hne : d.entries ≠ 0) :
    ∃ a ≤ 60, ∀ v, ∃ v' es, dictScan d v = some (v', es) ∧ Emits hash a d.entries v v' es := by
  have hsize : dictSize d ≠ 0 := mt h.dictSize_eq_zero.mp hne
  obtain ⟨a, hs0⟩ := h.ht0_sized hne
  by_cases hre : dictIsRehashing d = true
  · obtain ⟨b, hs1⟩ := h.ht1_sized hre
    by_cases hlarger : d.ht0.size > d.ht1.size
    · have hba : b ≤ a := by
        rw [hs0.size_eq, hs1.size_eq] at hlarger
        exact ((Nat.pow_lt_pow_iff_right (by norm_num)).mp hlarger).le
      refine ⟨b, hs1.le_sixty, ?_⟩
      intro v
      rw [dictScan, if_neg hsize, if_neg (not_not.mpr hre), if_pos hlarger, Dict.entries, add_comm]
      exact scanTwo_spec h.ht1 hs1 h.ht0 hs0 hba v
    · have hab : a ≤ b := by
        rw [hs0.size_eq, hs1.size_eq] at hlarger
        exact (Nat.pow_le_pow_iff_right (by norm_num)).mp (Nat.le_of_not_lt hlarger)
      refine ⟨a, hs0.le_sixty, ?_⟩
      intro v
      rw [dictScan, if_neg hsize, if_neg (not_not.mpr hre), if_neg hlarger, Dict.entries]
      exact scanTwo_spec h.ht0 hs0 h.ht1 hs1 hab v
  · exact ⟨a, hs0.le_sixty, dictScan_of_resting h hs0 hre hsize⟩

theorem dictScan_of_empty (h : d.Wf hash) (hempty : d.entries = 0) (v : BitVec 64) : dictScan d v = some (0, []) :=
  if_pos (h.dictSize_eq_zero.mpr hempty)

/-- An entry that is not before the cursor is emitted, or it is not before the next one either. -/
theorem Emits.emitted_or_after {entries : Multiset (K × V)} {v' : BitVec 64} {es : List (K × V)}
    (h : Emits hash a entries v v' es) (ha : a ≤ 64) {e : K × V} (he : e ∈ entries)
    (hle : pos v ≤ pos (hash e.1)) : e ∈ es ∨ v' ≠ 0 ∧ pos v' ≤ pos (hash e.1) := by
  by_cases hblock : block a (hash e.1) = block a v
  · exact .inl (h.mem e he hle hblock)
  · have hlater : block a v < block a (hash e.1) := lt_of_le_of_ne (block_mono hle) (Ne.symm hblock)
    have hlt := block_lt ha (hash e.1)
    have hpos := h.pos_eq
    rw [next_mod_of_lt ha (by omega)] at hpos
    rw [Ne, ← pos_eq_zero, hpos]
    exact .inr ⟨(Nat.mul_pos (Nat.succ_pos _) (by positivity)).ne', next_le_of_block_lt hlater⟩

theorem dictScan_emitted_or_after (h : d.Wf hash) {e : K × V} (he : e ∈ d.entries) (hle : pos v ≤ pos (hash e.1)) :
    ∃ v' es, dictScan d v = some (v', es) ∧ (e ∈ es ∨ v' ≠ 0 ∧ pos v' ≤ pos (hash e.1)) := by
  obtain ⟨a, ha, hspec⟩ := dictScan_spec h fun hempty => notMem_zero _ (hempty ▸ he)
  obtain ⟨v', es, heq, hemits⟩ := hspec v
  exact ⟨v', es, heq, hemits.emitted_or_after (ha.trans (by norm_num)) he hle⟩

/-! ### Whole scans -/

section Scans

variable [DecidableEq K] {m : Finmap fun _ : K => V} {gaps : List (List (DictCall K V))}

theorem dictScan_isSome (h : d.Wf hash) (v : BitVec 64) : ∃ r, dictScan d v = some r := by
  by_cases hempty : d.entries = 0
  · exact ⟨_, dictScan_of_empty h hempty v⟩
  · obtain ⟨a, -, hspec⟩ := dictScan_spec h hempty
    obtain ⟨v', es, heq, -⟩ := hspec v
    exact ⟨_, heq⟩

section

variable (h : d.Wf hash) (hm : Represents d.entries m)
include h hm

/-- The calls between two calls of a scan leave a dict to go on with. -/
theorem dictRun_gap {gap : List (DictCall K V)} (hsmall : SmallRun (gap :: gaps).flatten m) :
    ∃ d' m' out, dictRun hash gap d = some (d', out) ∧ d'.Wf hash ∧ Represents d'.entries m' ∧
      SmallRun gaps.flatten m' := by
  rw [List.flatten_cons, SmallRun, Machine.along_append] at hsmall
  obtain ⟨d', hrun, hwf, hm'⟩ := dictRun_spec h hm hsmall.1
  exact ⟨d', _, _, hrun, hwf, hm', hsmall.2⟩

theorem scanRun_isSome (hsmall : SmallRun gaps.flatten m) (v : BitVec 64) : ∃ r, scanRun hash gaps d v = some r := by
  induction gaps generalizing d m v with
  | nil =>
    obtain ⟨r, hr⟩ := dictScan_isSome h v
    exact ⟨_, by rw [scanRun, hr, map_some]⟩
  | cons gap gaps ih =>
    obtain ⟨r, hr⟩ := dictScan_isSome h v
    obtain ⟨d', m', out, hgap, hwf, hm', hsmall'⟩ := dictRun_gap h hm hsmall
    obtain ⟨r', hr'⟩ := ih hwf hm' hsmall' r.1
    exact ⟨_, by rw [scanRun, hr, bind_some, hgap, bind_some, hr', map_some]⟩

/-- From a cursor on, a key that is there at every call and not before the cursor is emitted. -/
theorem scanRun_emits (hsmall : SmallRun gaps.flatten m) {calls : List (Dict K V × List (K × V))}
    (hrun : scanRun hash gaps d v = some (0, calls)) {key : K} (hkey : pos v ≤ pos (hash key))
    (hthere : ∀ c ∈ calls, ∃ val, (key, val) ∈ c.1.entries) : ∃ c ∈ calls, ∃ val, (key, val) ∈ c.2 := by
  induction gaps generalizing d m v calls with
  | nil =>
    rw [scanRun, map_eq_some_iff] at hrun
    obtain ⟨r, hr, heq⟩ := hrun
    obtain ⟨hzero, rfl⟩ := Prod.mk.inj heq
    obtain ⟨val, hval⟩ := hthere _ (List.mem_singleton_self _)
    obtain ⟨v', es, hscan, hor⟩ := dictScan_emitted_or_after h hval hkey
    obtain rfl := some.inj (hscan.symm.trans hr)
    rcases hor with hes | ⟨hne, -⟩
    · exact ⟨_, List.mem_singleton_self _, val, hes⟩
    · exact absurd hzero hne
  | cons gap gaps ih =>
    obtain ⟨d', m', out, hgap, hwf, hm', hsmall'⟩ := dictRun_gap h hm hsmall
    rw [scanRun, bind_eq_some_iff] at hrun
    obtain ⟨r, hr, hrest⟩ := hrun
    rw [hgap, bind_some, map_eq_some_iff] at hrest
    obtain ⟨r', hr', heq⟩ := hrest
    obtain ⟨hzero, rfl⟩ := Prod.mk.inj heq
    obtain ⟨val, hval⟩ := hthere _ List.mem_cons_self
    obtain ⟨v', es, hscan, hor⟩ := dictScan_emitted_or_after h hval hkey
    obtain rfl := some.inj (hscan.symm.trans hr)
    rcases hor with hes | ⟨-, hafter⟩
    · exact ⟨_, List.mem_cons_self, val, hes⟩
    · have hcalls : scanRun hash gaps d' v' = some (0, r'.2) := by
        rw [hr', ← hzero]
      obtain ⟨c, hc, hemitted⟩ :=
        ih hwf hm' hsmall' hcalls hafter (List.forall_mem_cons.mp hthere).2
      exact ⟨c, List.mem_cons_of_mem _ hc, hemitted⟩

end

theorem scanRun_unchanged (hspec : ∀ v, ∃ v' es, dictScan d v = some (v', es) ∧ Emits hash a d.entries v v' es)
    (ha : a ≤ 64) (n : ℕ) (hv : 2 ^ (64 - a) ∣ pos v) (hn : block a v + n < 2 ^ a) :
    ∃ v' calls, scanRun hash (List.replicate n []) d v = some (v', calls) ∧
      pos v' = (block a v + n + 1) * 2 ^ (64 - a) % 2 ^ 64 ∧
      ((calls.flatMap Prod.snd : List (K × V)) : Multiset (K × V)) =
        d.entries.filter fun e => block a v ≤ block a (hash e.1) ∧ block a (hash e.1) < block a v + n + 1 := by
  induction n generalizing v with
  | zero =>
    obtain ⟨v', es, hscan, hemits⟩ := hspec v
    refine ⟨v', [(d, es)], by rw [List.replicate_zero, scanRun, hscan, map_some], hemits.pos_eq, ?_⟩
    rw [List.flatMap_singleton, hemits.aligned hv]
    refine filter_congr ?_
    intro e _
    omega
  | succ n ih =>
    obtain ⟨v₁, es, hscan, hemits⟩ := hspec v
    have hpos := hemits.pos_eq
    rw [next_mod_of_lt ha (by omega)] at hpos
    have hblock : block a v₁ = block a v + 1 := by
      rw [block, hpos, Nat.mul_div_cancel _ (by positivity)]
    obtain ⟨v', calls, hrun, hpos', hes⟩ := ih (v := v₁) (hpos ▸ Nat.dvd_mul_left _ _) (by omega)
    refine ⟨v', (d, es) :: calls, ?_, ?_, ?_⟩
    · rw [List.replicate_succ, scanRun, hscan, bind_some, dictRun, bind_some, hrun, map_some]
    · rw [hpos', hblock]
      congr 2
      omega
    · rw [List.flatMap_cons, ← coe_add, hes, hemits.aligned hv, hblock,
        show block a v + (n + 1) + 1 = block a v + 1 + n + 1 by omega]
      exact filter_add_filter_interval d.entries (fun e => block a (hash e.1)) (by omega)

/-- A full scan of a dict that does not change emits each entry once. -/
theorem scanRun_once (h : d.Wf hash) : ∃ n calls, scanRun hash (List.replicate n []) d 0 = some (0, calls) ∧
      (∀ k < n, ∀ r, scanRun hash (List.replicate k []) d 0 = some r → r.1 ≠ 0) ∧
      ((calls.flatMap Prod.snd : List (K × V)) : Multiset (K × V)) = d.entries := by
  by_cases hempty : d.entries = 0
  · refine ⟨0, [(d, [])], ?_, ?_, ?_⟩
    · rw [List.replicate_zero, scanRun, dictScan_of_empty h hempty, map_some]
    · intro k hk
      exact absurd hk (Nat.not_lt_zero k)
    · rw [hempty]
      rfl
  · obtain ⟨a, ha, hspec⟩ := dictScan_spec h hempty
    have ha' : a ≤ 64 := ha.trans (by norm_num)
    have hpow : 0 < 2 ^ a := by positivity
    have hblock : block a (0 : BitVec 64) = 0 := by rw [block, pos_zero, Nat.zero_div]
    have hrun := fun n (hn : n < 2 ^ a) =>
      scanRun_unchanged hspec ha' n (v := 0) (by rw [pos_zero]; exact Nat.dvd_zero _) (by rw [hblock]; omega)
    simp only [hblock, Nat.zero_add] at hrun
    obtain ⟨v', calls, hscan, hpos, hes⟩ := hrun (2 ^ a - 1) (by omega)
    rw [Nat.sub_add_cancel hpow] at hpos hes
    rw [next_mod_of_eq ha'] at hpos
    refine ⟨2 ^ a - 1, calls, pos_eq_zero.mp hpos ▸ hscan, ?_, ?_⟩
    · intro k hk r hr
      obtain ⟨v'', calls', hscan', hpos', -⟩ := hrun k (by omega)
      obtain rfl := some.inj (hscan'.symm.trans hr)
      rw [next_mod_of_lt ha' (by omega)] at hpos'
      rw [Ne, ← pos_eq_zero, hpos']
      exact (Nat.mul_pos (Nat.succ_pos _) (by positivity)).ne'
    · rw [hes]
      refine filter_eq_self.mpr ?_
      intro e _
      exact ⟨Nat.zero_le _, block_lt ha' _⟩

end Scans

/-- On a dict that any calls have built, and with any calls between those of `dictScan`, a scan
that comes back to the cursor 0 has emitted every key that was there at each of its calls; and
without calls between them it comes back to 0 with each entry emitted once; as long as no
expansion beyond 2^60 buckets is asked for and there are at most 2^59 keys. -/
theorem scan_emits_all [DecidableEq K] (hash : K → BitVec 64) {before : List (DictCall K V)}
    {gaps : List (List (DictCall K V))} (hsmall : SmallRun (before ++ gaps.flatten) ∅) :
    ∃ d out v calls, dictRun hash before dictCreate = some (d, out) ∧ scanRun hash gaps d 0 = some (v, calls) ∧
      (v = 0 → ∀ key, (∀ c ∈ calls, ∃ val, (key, val) ∈ c.1.entries) →
        ∃ c ∈ calls, ∃ val, (key, val) ∈ c.2) ∧
      ∃ n calls, scanRun hash (List.replicate n []) d 0 = some (0, calls) ∧
        (∀ k < n, ∀ r, scanRun hash (List.replicate k []) d 0 = some r → r.1 ≠ 0) ∧
        ((calls.flatMap Prod.snd : List (K × V)) : Multiset (K × V)) = d.entries ∧
          (d.entries.map Prod.fst).Nodup := by
  rw [SmallRun, Machine.along_append] at hsmall
  obtain ⟨d, hrun, hwf, hm⟩ := dictRun_spec .create .empty hsmall.1
  obtain ⟨⟨v, calls⟩, hscan⟩ := scanRun_isSome hwf hm hsmall.2 0
  refine ⟨d, _, v, calls, hrun, hscan, ?_, ?_⟩
  · intro hv key hthere
    subst hv
    exact scanRun_emits hwf hm hsmall.2 hscan (by rw [pos_zero]; exact Nat.zero_le _) hthere
  · obtain ⟨n, calls', hscan', hfirst, hes⟩ := scanRun_once hwf
    exact ⟨n, calls', hscan', hfirst, hes, hm.nodup⟩

/-- Three keys, and a table that grows and moves during the scan. -/
def scannedCalls : List (DictCall ℕ ℕ) := [⟨true, .add 1 10⟩, ⟨true, .add 2 20⟩, ⟨true, .add 7 70⟩]

def scanGaps : List (List (DictCall ℕ ℕ)) :=
  [[⟨true, .expand 8⟩], [⟨true, .rehash 1⟩, ⟨true, .add 5 50⟩], [⟨true, .delete 2⟩], []]

theorem scan_emits_all_growing : SmallRun (scannedCalls ++ scanGaps.flatten) ∅ ∧
      ∃ d out v calls, dictRun (BitVec.ofNat 64) scannedCalls dictCreate = some (d, out) ∧
        scanRun (BitVec.ofNat 64) scanGaps d 0 = some (v, calls) ∧
        (v = 0 → ∀ key, (∀ c ∈ calls, ∃ val, (key, val) ∈ c.1.entries) →
          ∃ c ∈ calls, ∃ val, (key, val) ∈ c.2) := by
  have hsmall : SmallRun (scannedCalls ++ scanGaps.flatten) ∅ := by decide
  obtain ⟨d, out, v, calls, hrun, hscan, hall, -⟩ := scan_emits_all (BitVec.ofNat 64) hsmall
  exact ⟨hsmall, d, out, v, calls, hrun, hscan, hall⟩

/-- That scan comes back to 0, with the entries of each of its calls. -/
example :
    ((dictRun (BitVec.ofNat 64) scannedCalls dictCreate).bind fun r =>
      (scanRun (BitVec.ofNat 64) scanGaps r.1 0).map fun r' => (r'.1, r'.2.map Prod.snd)) =
      some (0, [[], [(2, 20)], [(1, 10), (5, 50)], [], [(7, 70)]]) := by
  decide

/-- After an expansion to 2^61 buckets the scan of the only key reads outside of the table. -/
theorem scan_expand_overflows :
    ((dictRun (BitVec.ofNat 64) [⟨true, .add 1 10⟩, ⟨true, .expand (2 ^ 61)⟩]
      (dictCreate : Dict ℕ ℕ)).map fun r =>
      (scanRun (BitVec.ofNat 64) [] r.1 0).isNone) = some true := by
  decide

end RedisIR
