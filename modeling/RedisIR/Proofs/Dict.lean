import RedisIR.Lib.Machine
import RedisIR.Spec.Dict

/-! A dict is a finite map in every state of its rehashing, as long as no table of 2^61
buckets is asked for: the size in bytes of such a table is zero in 64 bits. -/

namespace RedisIR

open CLib Buckets Option Function Multiset Machine

variable {K V : Type*}
variable {i idx n size : ℕ} {e : K × V} {rest : List (K × V)}

/-! ### One table -/

def Dictht.chain (t : Dictht K V) (i : ℕ) : List (K × V) := t.table.elim [] fun s => s.chain i

def Dictht.entries (t : Dictht K V) : Multiset (K × V) := contents t.size t.chain

structure Dictht.Sized (t : Dictht K V) (a : ℕ) : Prop where
  two_le : 2 ≤ a
  le_sixty : a ≤ 60
  size_eq : t.size = 2 ^ a
  mask_eq : t.sizemask = 2 ^ a - 1
  slots_eq : t.table.map Slots.count = some (2 ^ a)

/-- Entries are counted by `used` and each is in the bucket of its hash. -/
structure Dictht.Wf (hash : K → BitVec 64) (t : Dictht K V) : Prop where
  shape : t = dictReset ∨ ∃ a, t.Sized a
  used_eq : t.used = t.entries.card
  placed : ∀ i < t.size, ∀ e ∈ t.chain i, slot hash t e.1 = i

def Dictht.set (t : Dictht K V) (i : ℕ) (c : List (K × V)) : Dictht K V :=
  { t with table := t.table.map fun s => { s with chain := update s.chain i c } }

variable {hash : K → BitVec 64} {t : Dictht K V} {a : ℕ}

section

variable (h : t.Sized a)
include h

theorem Dictht.Sized.exists_slots : ∃ s, t.table = some s ∧ s.count = 2 ^ a :=
  map_eq_some_iff.mp h.slots_eq

theorem Dictht.Sized.table_isSome : t.table.isSome := by
  obtain ⟨s, hs, -⟩ := h.exists_slots
  rw [hs]
  rfl

theorem Dictht.Sized.read (hi : i < 2 ^ a) : t.read i = some (t.chain i) := by
  obtain ⟨s, hs, hcount⟩ := h.exists_slots
  rw [Dictht.read, Dictht.chain, hs, bind_some, if_pos (hcount ▸ hi)]
  rfl

theorem Dictht.Sized.write (hi : i < 2 ^ a) (c : List (K × V)) : t.write i c = some (t.set i c) := by
  obtain ⟨s, hs, hcount⟩ := h.exists_slots
  rw [Dictht.write, Dictht.set, hs, bind_some, if_pos (hcount ▸ hi)]
  rfl

theorem Dictht.Sized.slot_lt (key : K) : slot hash t key < 2 ^ a := by
  rw [slot, h.mask_eq, Nat.and_two_pow_sub_one_eq_mod]
  exact Nat.mod_lt _ (by positivity)

theorem Dictht.Sized.set (i : ℕ) (c : List (K × V)) (n : ℕ) :
    Dictht.Sized { t.set i c with used := n } a where
  two_le := h.two_le
  le_sixty := h.le_sixty
  size_eq := h.size_eq
  mask_eq := h.mask_eq
  slots_eq := by
    rw [Dictht.set, Option.map_map]
    exact h.slots_eq

theorem Dictht.Sized.chain_set (i : ℕ) (c : List (K × V)) : (t.set i c).chain = update t.chain i c := by
  obtain ⟨s, hs, -⟩ := h.exists_slots
  funext j
  rw [Dictht.chain, Dictht.set, hs, update_apply]
  simp [Dictht.chain, hs, map_some, elim_some, update_apply]

theorem Dictht.Sized.entries_set_add (hi : i < 2 ^ a) (c : List (K × V)) :
    (t.set i c).entries + t.chain i = t.entries + c := by
  rw [Dictht.entries, h.chain_set]
  exact contents_update (h.size_eq ▸ hi) t.chain c

theorem Dictht.Sized.entries_set (hi : i < 2 ^ a) {c : List (K × V)} {old new rest : Multiset (K × V)}
    (hold : (t.chain i : Multiset (K × V)) = old + rest) (hnew : (c : Multiset (K × V)) = new + rest) :
    ∃ others, t.entries = old + others ∧ (t.set i c).entries = new + others := by
  have hadd := h.entries_set_add hi c
  have hchain : (t.chain i : Multiset (K × V)) ≤ t.entries :=
    Finset.single_le_sum_of_canonicallyOrdered (f := fun j => (t.chain j : Multiset (K × V)))
      (Finset.mem_range.mpr (h.size_eq ▸ hi))
  obtain ⟨others, hothers⟩ := Multiset.le_iff_exists_add.mp hchain
  rw [hold] at hothers hadd
  refine ⟨rest + others, by rw [hothers, add_assoc], ?_⟩
  rw [hothers, hnew] at hadd
  have hswap : (t.set i c).entries + (old + rest) = (new + (rest + others)) + (old + rest) := by
    rw [hadd]
    abel
  exact add_right_cancel hswap

end

theorem Dictht.Wf.set (h : t.Wf hash) (hs : t.Sized a) {i : ℕ} (hi : i < 2 ^ a) {c : List (K × V)}
    (hc : ∀ e ∈ c, slot hash t e.1 = i) {n : ℕ} (hn : n + (t.chain i).length = t.used + c.length) :
    Dictht.Wf hash { t.set i c with used := n } where
  shape := .inr ⟨a, hs.set i c n⟩
  used_eq := by
    have hcard := congrArg Multiset.card (hs.entries_set_add hi c)
    rw [card_add, card_add, coe_card, coe_card, ← h.used_eq] at hcard
    change n = (t.set i c).entries.card
    omega
  placed := by
    intro j hj e he
    change e ∈ (t.set i c).chain j at he
    rw [hs.chain_set, update_apply] at he
    split_ifs at he with hji
    · exact hji ▸ hc e he
    · exact h.placed j hj e he

theorem Dictht.Wf.reset : Dictht.Wf hash (dictReset : Dictht K V) where
  shape := .inl rfl
  used_eq := rfl
  placed := by
    intro i hi
    exact absurd hi (Nat.not_lt_zero i)

theorem Dictht.Wf.sized (h : t.Wf hash) (ht : t.table.isSome) : ∃ a, t.Sized a := by
  rcases h.shape with rfl | hs
  · exact absurd ht (by simp [dictReset])
  · exact hs

theorem Dictht.Wf.entries_eq_zero (h : t.Wf hash) (hu : t.used = 0) : t.entries = 0 :=
  card_eq_zero.mp (h.used_eq ▸ hu)

theorem Dictht.Wf.mem_chain (h : t.Wf hash) (he : e ∈ t.entries) : e ∈ t.chain (slot hash t e.1) := by
  obtain ⟨i, hi, hei⟩ := mem_contents.mp he
  rwa [h.placed i hi e hei]

section Entries

variable [DecidableEq K]

theorem Dictht.Wf.unlink_none (h : t.Wf hash) {key : K} (hk : unlink key (t.chain (slot hash t key)) = none) :
    ∀ e ∈ t.entries, e.1 ≠ key := by
  intro e he hek
  subst hek
  exact unlink_eq_none.mp hk e (h.mem_chain he) rfl

end Entries

def Dictht.push (hash : K → BitVec 64) (t : Dictht K V) (e : K × V) : Dictht K V :=
  { t.set (slot hash t e.1) (e :: t.chain (slot hash t e.1)) with used := t.used + 1 }

theorem Dictht.Sized.push (hs : t.Sized a) (e : K × V) : (t.push hash e).Sized a := hs.set _ _ _

theorem Dictht.Wf.push (h : t.Wf hash) (hs : t.Sized a) (e : K × V) : (t.push hash e).Wf hash := by
  refine h.set hs (hs.slot_lt _) ?_ ?_
  · intro e' he'
    rcases List.mem_cons.mp he' with rfl | hmem
    · rfl
    · exact h.placed _ (hs.size_eq ▸ hs.slot_lt _) e' hmem
  · rw [List.length_cons]
    omega

theorem Dictht.Sized.entries_push (hs : t.Sized a) (e : K × V) : (t.push hash e).entries = e ::ₘ t.entries := by
  have hlt : slot hash t e.1 < 2 ^ a := hs.slot_lt e.1
  obtain ⟨others, hold, hnew⟩ := hs.entries_set hlt (c := e :: t.chain (slot hash t e.1)) (zero_add _).symm
    (singleton_add e (t.chain (slot hash t e.1) : Multiset (K × V))).symm
  rw [zero_add] at hold
  rw [hold, ← singleton_add]
  exact hnew

theorem Dictht.Sized.insertTop (hs : t.Sized a) (e : K × V) :
    t.insertTop (slot hash t e.1) e = some (t.push hash e) := by
  rw [Dictht.insertTop, hs.read (hs.slot_lt _), bind_some, hs.write (hs.slot_lt _)]
  rfl

/-! ### Rehashing -/

def Dict.entries (d : Dict K V) : Multiset (K × V) := d.ht0.entries + d.ht1.entries

/-- The tables of a dict. While it is rehashing, the buckets before `rehashidx` are empty;
otherwise the second table is not there. -/
structure Dict.Wf (hash : K → BitVec 64) (d : Dict K V) : Prop where
  ht0 : d.ht0.Wf hash
  ht1 : d.ht1.Wf hash
  resting : d.rehashidx = none → d.ht1 = dictReset
  moving : ∀ idx, d.rehashidx = some idx → d.ht0.table.isSome ∧ d.ht1.table.isSome ∧
    ∀ i < idx, d.ht0.chain i = []

variable {d : Dict K V}

theorem Dict.Wf.create : Dict.Wf hash (dictCreate : Dict K V) where
  ht0 := .reset
  ht1 := .reset
  resting _ := rfl
  moving idx hidx := by
    exact absurd hidx (by simp [dictCreate, dictInit])

theorem moveEntry_eq (hs : d.ht1.Sized a) (e : K × V) : moveEntry hash d e =
      some { d with ht0 := { d.ht0 with used := d.ht0.used - 1 }, ht1 := d.ht1.push hash e } := by
  rw [moveEntry]
  simp only
  rw [hs.read (hs.slot_lt _), bind_some, hs.write (hs.slot_lt _)]
  rfl

theorem moveChain_spec (c : List (K × V)) (hwf : d.ht1.Wf hash) (hs : d.ht1.Sized a) :
    ∃ ht1 : Dictht K V, moveChain hash c d =
        some { d with ht0 := { d.ht0 with used := d.ht0.used - c.length }, ht1 := ht1 } ∧
      ht1.Wf hash ∧ ht1.Sized a ∧ ht1.entries = d.ht1.entries + c := by
  induction c generalizing d with
  | nil => exact ⟨d.ht1, rfl, hwf, hs, (add_zero _).symm⟩
  | cons e c ih =>
    obtain ⟨ht1, hmove, hwf', hs', hentries⟩ :=
      ih (d := { d with ht0 := { d.ht0 with used := d.ht0.used - 1 }, ht1 := d.ht1.push hash e })
        (hwf.push hs e) (hs.push e)
    refine ⟨ht1, ?_, hwf', hs', ?_⟩
    · rw [moveChain, moveEntry_eq hs, bind_some, hmove, List.length_cons, Nat.sub_sub, Nat.add_comm 1]
    · rw [hentries, hs.entries_push, ← cons_coe, cons_add, add_cons]

/-- The loop over empty buckets passes only empty buckets, and ends at the limit or at a chain. -/
theorem skipEmpty_spec (hs : t.Sized a) (visits : ℕ) (hex : ∃ j, idx ≤ j ∧ j < 2 ^ a ∧ t.chain j ≠ []) :
    ∃ i, (∀ k, idx ≤ k → k < i → t.chain k = []) ∧ (skipEmpty t visits idx = some (.limit i) ∨
        i < 2 ^ a ∧ t.chain i ≠ [] ∧
          ∃ visits', skipEmpty t visits idx = some (.found i visits' (t.chain i))) := by
  obtain ⟨j, hij, hj, hne⟩ := hex
  have hread := hs.read (i := idx) (by omega)
  have hnil : ∀ c : List (K × V), c.isEmpty = true ↔ c = [] := fun c => List.isEmpty_iff
  induction visits generalizing idx with
  | zero =>
    by_cases hc : t.chain idx = []
    · refine ⟨idx + 1, ?_, .inl ?_⟩
      · intro k h1 h2
        rwa [show k = idx by omega]
      · rw [skipEmpty, hread, map_some, if_pos ((hnil _).mpr hc)]
    · refine ⟨idx, fun k h1 h2 => by omega, .inr ⟨by omega, hc, 0, ?_⟩⟩
      rw [skipEmpty, hread, map_some, if_neg (fun h => hc ((hnil _).mp h))]
  | succ visits ih =>
    by_cases hc : t.chain idx = []
    · have hlt : idx < j := lt_of_le_of_ne hij fun h => hne (h ▸ hc)
      obtain ⟨i, hempty, hend⟩ := ih (show idx + 1 ≤ j from hlt) (hs.read (by omega))
      refine ⟨i, ?_, ?_⟩
      · intro k h1 h2
        rcases Nat.eq_or_lt_of_le h1 with rfl | h
        · exact hc
        · exact hempty k h h2
      · rwa [skipEmpty, hread, bind_some, if_pos ((hnil _).mpr hc)]
    · refine ⟨idx, fun k h1 h2 => by omega, .inr ⟨by omega, hc, visits + 1, ?_⟩⟩
      rw [skipEmpty, hread, bind_some, if_neg (fun h => hc ((hnil _).mp h))]

/-- What holds at the start of each round of `dictRehash`. -/
structure Dict.Moving (hash : K → BitVec 64) (d : Dict K V) (idx : ℕ) : Prop where
  ht0 : d.ht0.Wf hash
  ht1 : d.ht1.Wf hash
  sized0 : ∃ a, d.ht0.Sized a
  sized1 : ∃ a, d.ht1.Sized a
  idx_eq : d.rehashidx = some idx
  below : ∀ i < idx, d.ht0.chain i = []

theorem Dict.Wf.moving_of_eq (h : d.Wf hash) (hidx : d.rehashidx = some idx) : d.Moving hash idx := by
  obtain ⟨h0, h1, hbelow⟩ := h.moving idx hidx
  exact ⟨h.ht0, h.ht1, h.ht0.sized h0, h.ht1.sized h1, hidx, hbelow⟩

theorem Dict.Moving.wf (h : d.Moving hash idx) : d.Wf hash where
  ht0 := h.ht0
  ht1 := h.ht1
  resting hnone := by
    rw [h.idx_eq] at hnone
    exact absurd hnone (by simp)
  moving idx' hidx' := by
    obtain ⟨a, ha⟩ := h.sized0
    obtain ⟨b, hb⟩ := h.sized1
    have heq : idx = idx' := some.inj (h.idx_eq.symm.trans hidx')
    exact ⟨ha.table_isSome, hb.table_isSome, heq ▸ h.below⟩

theorem Dict.Moving.move (h : d.Moving hash idx) (h0 : d.ht0.Sized a) (hi : i < 2 ^ a)
    (hempty : ∀ k, idx ≤ k → k < i → d.ht0.chain k = []) :
    ∃ d' : Dict K V, ((moveChain hash (d.ht0.chain i) d).bind fun d =>
        (d.ht0.write i []).map fun ht0 => { d with ht0 := ht0, rehashidx := some (i + 1) }) = some d' ∧
      d'.Moving hash (i + 1) ∧ d'.entries = d.entries := by
  obtain ⟨b, h1⟩ := h.sized1
  obtain ⟨ht1, hmove, hwf1, hs1, hentries1⟩ := moveChain_spec (d.ht0.chain i) h.ht1 h1
  have hadd := h0.entries_set_add hi []
  have hle : (d.ht0.chain i).length ≤ d.ht0.used := by
    have hcard := congrArg Multiset.card hadd
    simp only [card_add, coe_card, List.length_nil, ← h.ht0.used_eq] at hcard
    omega
  have hwf0 : Dictht.Wf hash { d.ht0.set i [] with used := d.ht0.used - (d.ht0.chain i).length } :=
    h.ht0.set h0 hi (by simp) (by simp only [List.length_nil]; omega)
  refine ⟨{ d with
    ht0 := { d.ht0.set i [] with used := d.ht0.used - (d.ht0.chain i).length },
    ht1 := ht1, rehashidx := some (i + 1) }, ?_, ?_, ?_⟩
  · rw [hmove, bind_some]
    have hs0 : Dictht.Sized { d.ht0 with used := d.ht0.used - (d.ht0.chain i).length } a :=
      ⟨h0.two_le, h0.le_sixty, h0.size_eq, h0.mask_eq, h0.slots_eq⟩
    simp only [hs0.write hi]
    rfl
  · refine ⟨hwf0, hwf1, ⟨a, h0.set i [] _⟩, ⟨b, hs1⟩, rfl, ?_⟩
    intro k hk
    change (d.ht0.set i []).chain k = []
    rw [h0.chain_set, update_apply]
    split_ifs with hki
    · rfl
    · rcases Nat.lt_or_ge k idx with hlt | hge
      · exact h.below k hlt
      · exact hempty k hge (by omega)
  · change (d.ht0.set i []).entries + ht1.entries = d.ht0.entries + d.ht1.entries
    rw [hentries1, ← add_assoc, add_right_comm, hadd]
    exact congrArg (· + d.ht1.entries) (add_zero d.ht0.entries)

theorem rehashLoop_spec (n visits : ℕ) (h : d.Moving hash idx) :
    ∃ limit d' idx', rehashLoop hash n visits idx d = some (limit, d') ∧ d'.Moving hash idx' ∧
      d'.entries = d.entries := by
  induction n generalizing d visits idx with
  | zero => exact ⟨false, d, idx, rfl, h, rfl⟩
  | succ n ih =>
    rw [rehashLoop]
    by_cases hused : d.ht0.used = 0
    · exact ⟨false, d, idx, if_pos hused, h, rfl⟩
    · rw [if_neg hused]
      obtain ⟨a, h0⟩ := h.sized0
      -- an entry is left in a bucket that has not been visited
      obtain ⟨j, hj, hne⟩ := exists_chain_of_card_ne_zero (h.ht0.used_eq ▸ hused)
      rw [h0.size_eq] at hj
      have hij : idx ≤ j := Nat.le_of_not_lt fun hlt => hne (h.below j hlt)
      rw [if_neg (by rw [h0.size_eq]; omega)]
      obtain ⟨i, hempty, hlimit | ⟨hi, -, visits', hfound⟩⟩ := skipEmpty_spec h0 visits ⟨j, hij, hj, hne⟩
      · refine ⟨true, { d with rehashidx := some i }, i, ?_, ?_, rfl⟩
        · rw [hlimit, bind_some]
        · refine ⟨h.ht0, h.ht1, ⟨a, h0⟩, h.sized1, rfl, ?_⟩
          intro k hk
          rcases Nat.lt_or_ge k idx with hlt | hge
          · exact h.below k hlt
          · exact hempty k hge hk
      · obtain ⟨d', hmove, hmoving, hentries⟩ := h.move h0 hi hempty
        obtain ⟨limit, d'', idx', hloop, hmoving', hentries'⟩ := ih visits' hmoving
        refine ⟨limit, d'', idx', ?_, hmoving', hentries'.trans hentries⟩
        rw [hfound, bind_some]
        simp only
        rw [← hloop]
        rw [bind_eq_some_iff] at hmove
        obtain ⟨d₁, hd₁, hput⟩ := hmove
        obtain ⟨ht0, hht0, rfl⟩ := map_eq_some_iff.mp hput
        rw [hd₁, bind_some, hht0, bind_some]

theorem dictRehash_spec (h : d.Wf hash) (n : ℤ) :
    ∃ d' more, dictRehash hash d n = some (d', more) ∧ d'.Wf hash ∧ d'.entries = d.entries := by
  unfold dictRehash
  cases hidx : d.rehashidx with
  | none => exact ⟨d, false, rfl, h, rfl⟩
  | some idx =>
    obtain ⟨limit, d', idx', hloop, hmoving, hentries⟩ :=
      rehashLoop_spec (n % 2 ^ 32).toNat ((n * 10 - 1) % 2 ^ 32).toNat (h.moving_of_eq hidx)
    simp only [hloop, map_some]
    split_ifs with hlimit hused
    · exact ⟨d', true, rfl, hmoving.wf, hentries⟩
    · refine ⟨_, false, rfl, ⟨hmoving.ht1, .reset, fun _ => rfl, ?_⟩, ?_⟩
      · intro idx hidx
        exact absurd hidx (by simp)
      · rw [← hentries, Dict.entries, Dict.entries, hmoving.ht0.entries_eq_zero hused, zero_add]
        exact add_zero _
    · exact ⟨d', true, rfl, hmoving.wf, hentries⟩

theorem rehashStepIfRehashing_spec (h : d.Wf hash) :
    ∃ d', rehashStepIfRehashing hash d = some d' ∧ d'.Wf hash ∧ d'.entries = d.entries := by
  unfold rehashStepIfRehashing dictRehashStep
  split_ifs
  · obtain ⟨d', more, hrehash, hwf, hentries⟩ := dictRehash_spec h 1
    exact ⟨d', by rw [hrehash, map_some], hwf, hentries⟩
  · exact ⟨d, rfl, h, rfl⟩
  · exact ⟨d, rfl, h, rfl⟩

/-! ### Expanding -/

theorem nextPowerLoop_spec {fuel j size : ℕ} (h : size ≤ 2 ^ (j + fuel)) :
    ∃ k, nextPowerLoop fuel (2 ^ j) size = 2 ^ k ∧ j ≤ k ∧ size ≤ 2 ^ k ∧
      (j < k → 2 ^ (k - 1) < size) := by
  induction fuel generalizing j with
  | zero => exact ⟨j, rfl, le_rfl, h, fun hlt => absurd hlt (lt_irrefl j)⟩
  | succ fuel ih =>
    rw [nextPowerLoop]
    split_ifs with hge
    · exact ⟨j, rfl, le_rfl, hge, fun hlt => absurd hlt (lt_irrefl j)⟩
    · obtain ⟨k, hloop, hjk, hsize, hprev⟩ := ih (j := j + 1) (by rwa [Nat.add_assoc, Nat.add_comm 1])
      refine ⟨k, ?_, by omega, hsize, ?_⟩
      · rw [← pow_succ, hloop]
      · intro _
        rcases Nat.eq_or_lt_of_le hjk with rfl | hlt
        · simpa using hge
        · exact hprev hlt

theorem dictNextPower_spec (size : ℕ) :
    ∃ a, dictNextPower size = 2 ^ a ∧ 2 ≤ a ∧ a ≤ 63 ∧ (size ≤ 2 ^ 60 → a ≤ 60 ∧ size ≤ 2 ^ a) ∧
      (2 ^ 60 < size → 61 ≤ a) := by
  unfold dictNextPower LONG_MAX DICT_HT_INITIAL_SIZE
  split_ifs with hbig
  · exact ⟨63, by norm_num, by norm_num, le_rfl, fun h => by omega, fun _ => by norm_num⟩
  · obtain ⟨k, hloop, hk, hsize, hprev⟩ := @nextPowerLoop_spec 64 2 size (by omega)
    have hpow : 2 < k → k ≤ 63 ∧ (size ≤ 2 ^ 60 → k ≤ 60) := by
      intro hlt
      have h63 : 2 ^ (k - 1) < 2 ^ 63 := (hprev hlt).trans (by omega)
      have h1 := (Nat.pow_lt_pow_iff_right (by norm_num)).mp h63
      refine ⟨by omega, ?_⟩
      intro h60
      have h2 := (Nat.pow_lt_pow_iff_right (by norm_num)).mp ((hprev hlt).trans_le h60)
      omega
    refine ⟨k, hloop, hk, by omega, fun h60 => ⟨by omega, hsize⟩, ?_⟩
    intro h60
    have := (Nat.pow_lt_pow_iff_right (by norm_num)).mp (h60.trans_le hsize)
    omega

def newTable (realsize : ℕ) : Dictht K V := ⟨some (zcallocSlots realsize), realsize, realsize - 1, 0⟩

theorem entries_newTable (realsize : ℕ) : (newTable realsize : Dictht K V).entries = 0 := contents_nil _

theorem sized_newTable (h1 : 2 ≤ n) (h2 : n ≤ 60) : (newTable (2 ^ n) : Dictht K V).Sized n := by
  refine ⟨h1, h2, rfl, rfl, ?_⟩
  have hlt : 2 ^ n ≤ 2 ^ 60 := Nat.pow_le_pow_right (by norm_num) h2
  simp only [newTable, zcallocSlots, pointerSize, map_some, some.injEq]
  rw [Nat.mod_eq_of_lt (by omega), Nat.mul_div_cancel _ (by norm_num)]

theorem wf_newTable (h1 : 2 ≤ n) (h2 : n ≤ 60) : (newTable (2 ^ n) : Dictht K V).Wf hash where
  shape := .inr ⟨n, sized_newTable h1 h2⟩
  used_eq := by
    rw [entries_newTable]
    rfl
  placed := by
    intro i _ e he
    exact absurd he (by simp [newTable, Dictht.chain, zcallocSlots])

theorem dictExpand_cases (d : Dict K V) (size : ℕ) : dictExpand d size = (d, false) ∧
        (d.rehashidx.isSome ∨ size < d.ht0.used ∨ dictNextPower size = d.ht0.size) ∨ d.rehashidx = none ∧
        (d.ht0.table = none ∧ dictExpand d size = ({ d with ht0 := newTable (dictNextPower size) }, true) ∨
          d.ht0.table.isSome ∧
            dictExpand d size = ({ d with ht1 := newTable (dictNextPower size), rehashidx := some 0 }, true)) := by
  unfold dictExpand dictIsRehashing
  by_cases hrefused : d.rehashidx.isSome = true ∨ d.ht0.used > size
  · rw [if_pos hrefused]
    exact .inl ⟨rfl, hrefused.imp_right .inl⟩
  · rw [if_neg hrefused]
    by_cases hsame : dictNextPower size = d.ht0.size
    · exact .inl ⟨if_pos hsame, .inr (.inr hsame)⟩
    · have hnone : d.rehashidx = none := by
        rw [← not_isSome_iff_eq_none]
        exact fun h => hrefused (.inl h)
      refine .inr ⟨hnone, ?_⟩
      simp only [if_neg hsame]
      by_cases hnull : d.ht0.table = none
      · exact .inl ⟨hnull, by rw [hnull]; rfl⟩
      · have hsome := isSome_iff_ne_none.mpr hnull
        exact .inr ⟨hsome, if_neg (by simpa using hnull)⟩

theorem Dictht.Wf.eq_reset (h : t.Wf hash) (hnull : t.table = none) : t = dictReset := by
  rcases h.shape with heq | ⟨a, ha⟩
  · exact heq
  · exact absurd ha.table_isSome (by simp [hnull])

theorem dictExpand_spec (h : d.Wf hash) (hsize : size ≤ 2 ^ 60) :
    (dictExpand d size).1.Wf hash ∧ (dictExpand d size).1.entries = d.entries := by
  obtain ⟨n, hn, h1, -, h2, -⟩ := dictNextPower_spec size
  obtain ⟨heq, -⟩ | ⟨hnone, ⟨hnull, heq⟩ | ⟨hsome, heq⟩⟩ := dictExpand_cases d size
  · rw [heq]
    exact ⟨h, rfl⟩
  · rw [heq, hn]
    refine ⟨⟨wf_newTable h1 (h2 hsize).1, h.ht1, h.resting, ?_⟩, ?_⟩
    · intro idx hidx
      exact absurd (hnone.symm.trans hidx) (by simp)
    · have hzero : d.ht0.entries = 0 := by
        rw [h.ht0.eq_reset hnull]
        rfl
      rw [Dict.entries, Dict.entries, hzero, entries_newTable]
  · rw [heq, hn]
    refine ⟨⟨h.ht0, wf_newTable h1 (h2 hsize).1, ?_, ?_⟩, ?_⟩
    · intro hnone'
      exact absurd hnone' (by simp)
    · intro idx hidx
      rw [← some.inj hidx]
      refine ⟨hsome, rfl, ?_⟩
      intro i hi
      exact absurd hi (Nat.not_lt_zero i)
    · have hzero : d.ht1.entries = 0 := by
        rw [h.resting hnone]
        rfl
      rw [Dict.entries, Dict.entries, hzero, entries_newTable]

theorem dictResize_spec (h : d.Wf hash) (dict_can_resize : Bool) :
    (dictResize dict_can_resize d).1.Wf hash ∧ (dictResize dict_can_resize d).1.entries = d.entries := by
  unfold dictResize
  split_ifs
  · exact ⟨h, rfl⟩
  · have hrange := wrapInt_range d.ht0.used
    refine dictExpand_spec h ?_
    unfold DICT_HT_INITIAL_SIZE
    split_ifs <;> omega

theorem dictExpand_ok (hnone : d.rehashidx = none) (hused : d.ht0.used ≤ size)
    (hne : dictNextPower size ≠ d.ht0.size) : (dictExpand d size).2 = true := by
  obtain ⟨-, hre | hlt | hsame⟩ | ⟨-, ⟨-, heq⟩ | ⟨-, heq⟩⟩ := dictExpand_cases d size
  · exact absurd hre (by simp [hnone])
  · omega
  · exact absurd hsame hne
  · rw [heq]
  · rw [heq]

theorem dictExpand_ht0_sized (h : d.Wf hash) (hsize : size ≤ 2 ^ 60) (hok : (dictExpand d size).2 = true) :
    ∃ a, (dictExpand d size).1.ht0.Sized a := by
  obtain ⟨n, hn, h1, -, h2, -⟩ := dictNextPower_spec size
  obtain ⟨heq, -⟩ | ⟨-, ⟨-, heq⟩ | ⟨hsome, heq⟩⟩ := dictExpand_cases d size
  · exact absurd hok (by simp [heq])
  · rw [heq, hn]
    exact ⟨n, sized_newTable h1 (h2 hsize).1⟩
  · rw [heq]
    exact h.ht0.sized hsome

/-- The automatic expansion never fails, and leaves a table to search. -/
theorem dictExpandIfNeeded_spec (h : d.Wf hash) (hused : d.ht0.used ≤ 2 ^ 59) (dict_can_resize : Bool) :
    (dictExpandIfNeeded dict_can_resize d).2 = true ∧ (dictExpandIfNeeded dict_can_resize d).1.Wf hash ∧
      (dictExpandIfNeeded dict_can_resize d).1.entries = d.entries ∧
      ∃ a, (dictExpandIfNeeded dict_can_resize d).1.ht0.Sized a := by
  have hexpand : ∀ size, size ≤ 2 ^ 60 → (dictExpand d size).2 = true → (dictExpand d size).2 = true ∧
      (dictExpand d size).1.Wf hash ∧ (dictExpand d size).1.entries = d.entries ∧
      ∃ a, (dictExpand d size).1.ht0.Sized a :=
    fun size hsize hok =>
      ⟨hok, (dictExpand_spec h hsize).1, (dictExpand_spec h hsize).2, dictExpand_ht0_sized h hsize hok⟩
  unfold dictExpandIfNeeded dictIsRehashing
  split_ifs with hre hzero hload
  · obtain ⟨idx, hidx⟩ := isSome_iff_exists.mp hre
    exact ⟨rfl, h, rfl, h.ht0.sized (h.moving idx hidx).1⟩
  all_goals rw [Bool.not_eq_true, isSome_eq_false_iff, isNone_iff_eq_none] at hre
  · have hreset : d.ht0 = dictReset := by
      rcases h.ht0.shape with heq | ⟨a, ha⟩
      · exact heq
      · exact absurd (hzero.symm.trans ha.size_eq) (by positivity)
    refine hexpand _ (by decide) (dictExpand_ok hre ?_ ?_)
    · rw [hreset]
      exact Nat.zero_le _
    · rw [hreset]
      change dictNextPower DICT_HT_INITIAL_SIZE ≠ 0
      decide
  · refine hexpand _ (by omega) (dictExpand_ok hre (by omega) ?_)
    obtain ⟨n, hn, -, -, h2, -⟩ := dictNextPower_spec (d.ht0.used * 2)
    omega
  · rcases h.ht0.shape with heq | hs
    · exact absurd (by rw [heq]; rfl) hzero
    · exact ⟨rfl, h, rfl, hs⟩

/-! ### Keys -/

def Dict.target (d : Dict K V) : Dictht K V := if dictIsRehashing d then d.ht1 else d.ht0

theorem Dict.Wf.ht1_sized (h : d.Wf hash) (hre : dictIsRehashing d = true) : ∃ a, d.ht1.Sized a := by
  obtain ⟨idx, hidx⟩ := isSome_iff_exists.mp hre
  exact h.ht1.sized (h.moving idx hidx).2.1

theorem Dict.Wf.entries_of_resting (h : d.Wf hash) (hre : ¬ dictIsRehashing d = true) : d.entries = d.ht0.entries := by
  have hnone : d.rehashidx = none := not_isSome_iff_eq_none.mp hre
  rw [Dict.entries, h.resting hnone]
  exact add_zero _

theorem Dict.Wf.free (h : d.Wf hash) {key : K} (h0 : ∀ e ∈ d.ht0.entries, e.1 ≠ key)
    (h1 : dictIsRehashing d = true → ∀ e ∈ d.ht1.entries, e.1 ≠ key) : ∀ e ∈ d.entries, e.1 ≠ key := by
  intro e he
  by_cases hre : dictIsRehashing d = true
  · rcases mem_add.mp he with hmem | hmem
    · exact h0 e hmem
    · exact h1 hre e hmem
  · rw [h.entries_of_resting hre] at he
    exact h0 e he

theorem Dict.Wf.set_ht0 (h : d.Wf hash) (ht : t.Wf hash) (hs : t.Sized a)
    (hempty : dictIsRehashing d = true → ∀ i, d.ht0.chain i = [] → t.chain i = []) :
    Dict.Wf hash { d with ht0 := t } where
  ht0 := ht
  ht1 := h.ht1
  resting := h.resting
  moving idx hidx := by
    have hre : dictIsRehashing d = true := isSome_iff_exists.mpr ⟨idx, hidx⟩
    obtain ⟨-, hsome, hbelow⟩ := h.moving idx hidx
    exact ⟨hs.table_isSome, hsome, fun i hi => hempty hre i (hbelow i hi)⟩

theorem Dict.Wf.set_ht1 (h : d.Wf hash) (hre : dictIsRehashing d = true) (ht : t.Wf hash) (hs : t.Sized a) :
    Dict.Wf hash { d with ht1 := t } where
  ht0 := h.ht0
  ht1 := ht
  resting hnone := by
    rw [dictIsRehashing, hnone] at hre
    exact absurd hre (by simp)
  moving idx hidx := by
    obtain ⟨hsome, -, hbelow⟩ := h.moving idx hidx
    exact ⟨hsome, hs.table_isSome, hbelow⟩

theorem Dict.Wf.dictSize_eq_zero (h : d.Wf hash) : dictSize d = 0 ↔ d.entries = 0 := by
  rw [dictSize, h.ht0.used_eq, h.ht1.used_eq, ← card_add, card_eq_zero, Dict.entries]

theorem Dict.Wf.ht0_sized (h : d.Wf hash) (hne : d.entries ≠ 0) : ∃ a, d.ht0.Sized a := by
  by_cases hre : dictIsRehashing d = true
  · obtain ⟨idx, hidx⟩ := isSome_iff_exists.mp hre
    exact h.ht0.sized (h.moving idx hidx).1
  · rw [h.entries_of_resting hre] at hne
    rcases h.ht0.shape with heq | hs
    · rw [heq] at hne
      exact absurd rfl hne
    · exact hs

section Keys

variable [DecidableEq K] {key : K} {val : V} {m : Finmap fun _ : K => V}

/-- What the search for a key finds: no entry in either table, or one in the chain of its slot. -/
inductive Dict.Search (hash : K → BitVec 64) (d : Dict K V) (key : K) : KeyIndex → Prop
  | free : (∀ e ∈ d.entries, e.1 ≠ key) → (∃ a, d.target.Sized a) →
      Dict.Search hash d key (.free (slot hash d.target key))
  | first {a : ℕ} {e : K × V} {rest : List (K × V)} : d.ht0.Sized a →
      unlink key (d.ht0.chain (slot hash d.ht0 key)) = some (e, rest) →
      Dict.Search hash d key (.existing false (slot hash d.ht0 key))
  | second {a : ℕ} {e : K × V} {rest : List (K × V)} : dictIsRehashing d = true → d.ht1.Sized a →
      unlink key (d.ht1.chain (slot hash d.ht1 key)) = some (e, rest) →
      Dict.Search hash d key (.existing true (slot hash d.ht1 key))

theorem dictKeyIndex_spec (h : d.Wf hash) (hused : d.ht0.used ≤ 2 ^ 59) (dict_can_resize : Bool) (key : K) :
    ∃ d' r, dictKeyIndex hash dict_can_resize d key = some (d', r) ∧ d'.Wf hash ∧ d'.entries = d.entries ∧
      d'.Search hash key r := by
  obtain ⟨hok, hwf, hentries, a, hs⟩ := dictExpandIfNeeded_spec h hused dict_can_resize
  unfold dictKeyIndex
  generalize dictExpandIfNeeded dict_can_resize d = r at hok hwf hentries hs
  obtain ⟨d', ok⟩ := r
  simp only at hok hwf hentries hs
  subst hok
  simp only [hs.read (hs.slot_lt _), any_eq_unlink, bind_some, not_true_eq_false, if_false]
  cases h0 : unlink key (d'.ht0.chain (slot hash d'.ht0 key)) with
  | some r => exact ⟨d', _, rfl, hwf, hentries, .first hs h0⟩
  | none =>
    simp only [isSome_none, Bool.false_eq_true, if_false]
    by_cases hre : dictIsRehashing d' = true
    · obtain ⟨b, hs1⟩ := hwf.ht1_sized hre
      have htarget : d'.target = d'.ht1 := if_pos hre
      simp only [hre, not_true_eq_false, if_false, hs1.read (hs1.slot_lt _), map_some]
      cases h1 : unlink key (d'.ht1.chain (slot hash d'.ht1 key)) with
      | some r => exact ⟨d', _, rfl, hwf, hentries, .second hre hs1 h1⟩
      | none =>
        refine ⟨d', _, rfl, hwf, hentries, ?_⟩
        rw [← htarget]
        exact .free (hwf.free (hwf.ht0.unlink_none h0) fun _ => hwf.ht1.unlink_none h1) ⟨b, htarget ▸ hs1⟩
    · have htarget : d'.target = d'.ht0 := if_neg hre
      rw [if_pos hre]
      refine ⟨d', _, rfl, hwf, hentries, ?_⟩
      rw [← htarget]
      exact .free (hwf.free (hwf.ht0.unlink_none h0) fun hre' => absurd hre' hre) ⟨a, htarget ▸ hs⟩

theorem Dictht.Wf.exchange (h : t.Wf hash) (hs : t.Sized a) {c : List (K × V)}
    (hu : unlink key (t.chain (slot hash t key)) = some (e, rest)) {s : Multiset (K × V)}
    (hc : (c : Multiset (K × V)) = s + rest) (hnew : ∀ x ∈ s, x.1 = key) (hn : n + 1 = t.used + s.card)
    {t' : Dictht K V} (ht' : t' = { t.set (slot hash t key) c with used := n }) :
    t'.Wf hash ∧ t'.Sized a ∧ (∀ i, t.chain i = [] → t'.chain i = []) ∧
      ∃ others, t.entries = (key, e.2) ::ₘ others ∧ t'.entries = s + others := by
  obtain ⟨hkey, hchain⟩ := unlink_eq_some hu
  have hlt : slot hash t key < 2 ^ a := hs.slot_lt key
  subst ht'
  refine ⟨?_, hs.set _ _ _, ?_, ?_⟩
  · refine h.set hs hlt ?_ ?_
    · intro x hx
      rcases mem_add.mp (hc ▸ mem_coe.mpr hx) with hmem | hmem
      · rw [hnew x hmem]
      · refine h.placed _ (hs.size_eq ▸ hlt) x ?_
        rw [← mem_coe, hchain]
        exact mem_cons_of_mem hmem
    · have hcard := congrArg Multiset.card hc
      have hcard' := congrArg Multiset.card hchain
      simp only [coe_card, card_add, card_cons] at hcard hcard'
      omega
  · intro i hi
    change (t.set (slot hash t key) c).chain i = []
    rw [hs.chain_set, update_apply]
    split_ifs with heq
    · rw [← heq, hi] at hchain
      exact absurd (congrArg Multiset.card hchain) (by simp)
    · exact hi
  · have hold : (t.chain (slot hash t key) : Multiset (K × V)) = {(key, e.2)} + (rest : Multiset (K × V)) := by
      rw [hchain, singleton_add, ← hkey]
    obtain ⟨others, hothers, hothers'⟩ := hs.entries_set hlt hold hc
    exact ⟨others, by rw [hothers, singleton_add], hothers'⟩

/-- A key that is not there gets a new entry; otherwise its entry is found. -/
theorem dictAddRaw_spec (h : d.Wf hash) (hcard : d.entries.card ≤ 2 ^ 59) (dict_can_resize : Bool) (key : K)
    (val : V) : ∃ d' r, dictAddRaw hash dict_can_resize d key val = some (d', r) ∧ d'.Wf hash ∧
      ((∃ idx, r = .free idx) ∧ (∀ e ∈ d.entries, e.1 ≠ key) ∧ d'.entries = (key, val) ::ₘ d.entries ∨
        (∀ idx, r ≠ .free idx) ∧ d'.entries = d.entries ∧ d'.Search hash key r) := by
  obtain ⟨d₁, hstep, hwf₁, hentries₁⟩ := rehashStepIfRehashing_spec h
  have hused : d₁.ht0.used ≤ 2 ^ 59 := by
    rw [hwf₁.ht0.used_eq]
    refine le_trans ?_ (hentries₁ ▸ hcard)
    rw [Dict.entries, card_add]
    exact Nat.le_add_right _ _
  obtain ⟨d₂, r, hindex, hwf₂, hentries₂, hsearch⟩ := dictKeyIndex_spec hwf₁ hused dict_can_resize key
  have hentries : d₂.entries = d.entries := hentries₂.trans hentries₁
  rw [dictAddRaw, hstep, bind_some, hindex, bind_some]
  cases hsearch with
  | free hfree hs =>
    obtain ⟨a, hs⟩ := hs
    rw [hentries] at hfree
    by_cases hre : dictIsRehashing d₂ = true
    · have htarget : d₂.target = d₂.ht1 := if_pos hre
      rw [htarget] at hs ⊢
      simp only [if_pos hre]
      refine ⟨{ d₂ with ht1 := d₂.ht1.push hash (key, val) }, .free (slot hash d₂.ht1 key), ?_,
        hwf₂.set_ht1 hre (hwf₂.ht1.push hs _) (hs.push _),
        .inl ⟨⟨_, rfl⟩, hfree, ?_⟩⟩
      · rw [hs.insertTop (key, val), map_some]
      · rw [← hentries, Dict.entries, hs.entries_push, add_cons]
        rfl
    · have htarget : d₂.target = d₂.ht0 := if_neg hre
      rw [htarget] at hs ⊢
      simp only [if_neg hre]
      refine ⟨{ d₂ with ht0 := d₂.ht0.push hash (key, val) }, .free (slot hash d₂.ht0 key), ?_,
        hwf₂.set_ht0 (hwf₂.ht0.push hs _) (hs.push _) fun hre' => absurd hre' hre,
          .inl ⟨⟨_, rfl⟩, hfree, ?_⟩⟩
      · rw [hs.insertTop (key, val), map_some]
      · rw [← hentries, Dict.entries, hs.entries_push, cons_add]
        rfl
  | first hs hu => exact ⟨d₂, _, rfl, hwf₂, .inr ⟨by simp, hentries, .first hs hu⟩⟩
  | second hre hs hu => exact ⟨d₂, _, rfl, hwf₂, .inr ⟨by simp, hentries, .second hre hs hu⟩⟩

theorem Dictht.Sized.mem_entries (hs : t.Sized a) (hu : unlink key (t.chain (slot hash t key)) = some (e, rest)) :
    (key, e.2) ∈ t.entries := by
  obtain ⟨hkey, hchain⟩ := unlink_eq_some hu
  refine mem_contents.mpr ⟨slot hash t key, hs.size_eq ▸ hs.slot_lt key, ?_⟩
  rw [← mem_coe, hchain, ← hkey]
  exact mem_cons_self _ _

theorem Dict.Search.exists_entry {r : KeyIndex} (h : d.Search hash key r) (hr : ∀ idx, r ≠ .free idx) :
    ∃ v, (key, v) ∈ d.entries := by
  cases h with
  | free => exact absurd rfl (hr _)
  | first hs hu => exact ⟨_, mem_add.mpr (.inl (hs.mem_entries hu))⟩
  | second hre hs hu => exact ⟨_, mem_add.mpr (.inr (hs.mem_entries hu))⟩

theorem dictAdd_spec (h : d.Wf hash) (hm : Represents d.entries m) (hcard : d.entries.card ≤ 2 ^ 59)
    (dict_can_resize : Bool) (key : K) (val : V) :
    ∃ d', dictAdd hash dict_can_resize d key val = some (d', !(m.lookup key).isSome) ∧ d'.Wf hash ∧
      Represents d'.entries (if (m.lookup key).isSome then m else m.insert key val) := by
  obtain ⟨d', r, hraw, hwf, ⟨⟨idx, rfl⟩, hfree, hentries⟩ | ⟨hr, hentries, hsearch⟩⟩ :=
    dictAddRaw_spec h hcard dict_can_resize key val
  · refine ⟨d', ?_, hwf, ?_⟩
    · rw [dictAdd, hraw, hm.lookup_eq_none hfree]
      rfl
    · rw [hentries, hm.lookup_eq_none hfree]
      exact hm.insert hfree
  · obtain ⟨v, hv⟩ := hsearch.exists_entry hr
    rw [hentries] at hv
    have hlookup := (hm.lookup_iff key v).mpr hv
    refine ⟨d', ?_, hwf, ?_⟩
    · rw [dictAdd, hraw, hlookup, map_some]
      cases r with
      | free idx => exact absurd rfl (hr idx)
      | existing second idx => rfl
      | failed => rfl
    · rwa [hentries, hlookup, isSome_some, if_pos rfl]

theorem Dictht.Wf.setExisting (h : t.Wf hash) (hs : t.Sized a)
    (hu : unlink key (t.chain (slot hash t key)) = some (e, rest)) (val : V) :
    ∃ t', t.setExisting (slot hash t key) key val = some t' ∧ t'.Wf hash ∧ t'.Sized a ∧
      (∀ i, t.chain i = [] → t'.chain i = []) ∧
      ∃ others, t.entries = (key, e.2) ::ₘ others ∧ t'.entries = (key, val) ::ₘ others := by
  obtain ⟨hwf, hsized, hempty, others, hold, hnew⟩ :=
    h.exchange hs hu (c := setVal key val (t.chain (slot hash t key))) (s := {(key, val)})
      (by rw [setVal_eq hu, singleton_add]) (by simp) (n := t.used) (by simp) rfl
  refine ⟨_, ?_, hwf, hsized, hempty, others, hold, ?_⟩
  · rw [Dictht.setExisting, hs.read (hs.slot_lt _), bind_some, hs.write (hs.slot_lt _)]
    rfl
  · rw [hnew, singleton_add]

theorem dictReplace_spec (h : d.Wf hash) (hm : Represents d.entries m) (hcard : d.entries.card ≤ 2 ^ 59)
    (dict_can_resize : Bool) (key : K) (val : V) :
    ∃ d', dictReplace hash dict_can_resize d key val = some (d', (m.lookup key).isNone) ∧ d'.Wf hash ∧
      Represents d'.entries (m.insert key val) := by
  obtain ⟨d', r, hraw, hwf, ⟨⟨idx, rfl⟩, hfree, hentries⟩ | ⟨hr, hentries, hsearch⟩⟩ :=
    dictAddRaw_spec h hcard dict_can_resize key val
  · refine ⟨d', ?_, hwf, ?_⟩
    · rw [dictReplace, hraw, hm.lookup_eq_none hfree]
      rfl
    · rw [hentries]
      exact hm.insert hfree
  · rw [dictReplace, hraw, bind_some]
    rw [← hentries] at hm
    cases hsearch with
    | free => exact absurd rfl (hr _)
    | first hs hu =>
      obtain ⟨ht0, hset, hwf0, hs0, hempty, others, hold, hnew⟩ := hwf.ht0.setExisting hs hu val
      rw [Dict.entries, hold, cons_add] at hm
      refine ⟨{ d' with ht0 := ht0 }, ?_, hwf.set_ht0 hwf0 hs0 fun _ => hempty, ?_⟩
      · rw [hm.lookup_cons]
        simp [hset, map_some, isNone_some]
      · rw [Dict.entries, hnew, cons_add]
        exact hm.replace
    | second hre hs hu =>
      obtain ⟨ht1, hset, hwf1, hs1, -, others, hold, hnew⟩ := hwf.ht1.setExisting hs hu val
      rw [Dict.entries, hold, add_cons] at hm
      refine ⟨{ d' with ht1 := ht1 }, ?_, hwf.set_ht1 hre hwf1 hs1, ?_⟩
      · rw [hm.lookup_cons]
        simp [hset, map_some, isNone_some]
      · rw [Dict.entries, hnew, add_cons]
        exact hm.replace

/-! ### Deletion and search -/

theorem Dictht.Wf.unlinkKey (h : t.Wf hash) (hs : t.Sized a) (key : K) :
    t.unlinkKey hash key = some none ∧ (∀ e ∈ t.entries, e.1 ≠ key) ∨
      ∃ t' e, t.unlinkKey hash key = some (some (t', e)) ∧ t'.Wf hash ∧ t'.Sized a ∧
        (∀ i, t.chain i = [] → t'.chain i = []) ∧ t.entries = (key, e.2) ::ₘ t'.entries := by
  rw [Dictht.unlinkKey]
  simp only [hs.read (hs.slot_lt _), bind_some]
  cases hu : unlink key (t.chain (slot hash t key)) with
  | none => exact .inl ⟨rfl, h.unlink_none hu⟩
  | some r =>
    obtain ⟨e, rest⟩ := r
    have hpos : t.used ≠ 0 := by
      intro hzero
      have hmem := hs.mem_entries hu
      rw [h.entries_eq_zero hzero] at hmem
      exact absurd hmem (notMem_zero _)
    obtain ⟨hwf, hsized, hempty, others, hold, hnew⟩ :=
      h.exchange hs hu (s := 0) (zero_add _).symm (by simp) (n := t.used - 1)
        (by rw [card_zero]; omega) rfl
    refine .inr ⟨_, e, ?_, hwf, hsized, hempty, ?_⟩
    · simp only [hs.write (hs.slot_lt _), map_some]
      rfl
    · rw [hold, hnew, zero_add]

theorem dictGenericDelete_spec (h : d.Wf hash) (hm : Represents d.entries m) (key : K) :
    ∃ d' he, dictGenericDelete hash d key = some (d', he) ∧ he.map Prod.snd = m.lookup key ∧ d'.Wf hash ∧
      Represents d'.entries (m.erase key) := by
  unfold dictGenericDelete
  by_cases hempty : d.ht0.used = 0 ∧ d.ht1.used = 0
  · have hfree : ∀ e ∈ d.entries, e.1 ≠ key := by simp [h.dictSize_eq_zero.mp (Nat.add_eq_zero_iff.mpr hempty)]
    exact ⟨d, none, if_pos hempty, (hm.lookup_eq_none hfree).symm, h, hm.erase_of_forall_ne hfree⟩
  · rw [if_neg hempty]
    have hne : d.entries ≠ 0 := fun hzero => hempty (Nat.add_eq_zero_iff.mp (h.dictSize_eq_zero.mpr hzero))
    obtain ⟨d₁, hstep, hwf, hentries⟩ := rehashStepIfRehashing_spec h
    rw [hstep, bind_some]
    rw [← hentries] at hm hne
    obtain ⟨a, hs⟩ := hwf.ht0_sized hne
    obtain ⟨hkey, hfree⟩ | ⟨ht0, e, hkey, hwf0, hs0, hbelow, hold⟩ := hwf.ht0.unlinkKey hs key
    · rw [hkey, bind_some]
      by_cases hre : dictIsRehashing d₁ = true
      · simp only [hre, not_true_eq_false, if_false]
        obtain ⟨b, hs'⟩ := hwf.ht1_sized hre
        obtain ⟨hkey', hfree'⟩ | ⟨ht1, e, hkey', hwf1, hs1, -, hold⟩ := hwf.ht1.unlinkKey hs' key
        · have hall := hwf.free hfree fun _ => hfree'
          refine ⟨d₁, none, ?_, (hm.lookup_eq_none hall).symm, hwf, hm.erase_of_forall_ne hall⟩
          rw [hkey', map_some]
        · rw [Dict.entries, hold, add_cons] at hm
          refine ⟨{ d₁ with ht1 := ht1 }, some e, ?_, hm.lookup_cons.symm, hwf.set_ht1 hre hwf1 hs1, hm.erase⟩
          rw [hkey', map_some]
      · have hall := hwf.free hfree fun hre' => absurd hre' hre
        exact ⟨d₁, none, if_pos hre, (hm.lookup_eq_none hall).symm, hwf, hm.erase_of_forall_ne hall⟩
    · rw [Dict.entries, hold, cons_add] at hm
      refine ⟨{ d₁ with ht0 := ht0 }, some e, ?_, hm.lookup_cons.symm, hwf.set_ht0 hwf0 hs0 fun _ => hbelow,
        hm.erase⟩
      rw [hkey, bind_some]

theorem Dictht.Sized.findKey_eq (hs : t.Sized a) (key : K) :
    t.findKey hash key = (t.unlinkKey hash key).map (Option.map Prod.snd) := by
  simp only [Dictht.findKey, Dictht.unlinkKey, hs.read (hs.slot_lt _), map_some, bind_some, find_eq_unlink]
  cases unlink key (t.chain (slot hash t key)) with
  | none => rfl
  | some r => simp [hs.write (hs.slot_lt _)]

/-- A lookup finds what a deletion would take out. -/
theorem dictFind_eq (h : d.Wf hash) (key : K) : ∃ d', d'.Wf hash ∧ d'.entries = d.entries ∧
    dictFind hash d key = (dictGenericDelete hash d key).map fun r => (d', r.2) := by
  unfold dictFind dictGenericDelete
  by_cases hempty : dictSize d = 0
  · exact ⟨d, h, rfl, by rw [if_pos hempty, if_pos (Nat.add_eq_zero_iff.mp hempty)]; rfl⟩
  · obtain ⟨d₁, hstep, hwf, hentries⟩ := rehashStepIfRehashing_spec h
    obtain ⟨a, hs⟩ := hwf.ht0_sized (hentries ▸ mt h.dictSize_eq_zero.mpr hempty)
    refine ⟨d₁, hwf, hentries, ?_⟩
    rw [if_neg hempty, if_neg (mt Nat.add_eq_zero_iff.mpr hempty), hstep, bind_some, bind_some, hs.findKey_eq]
    rcases d₁.ht0.unlinkKey hash key with _ | _ | r
    · rfl
    · by_cases hre : dictIsRehashing d₁ = true
      · obtain ⟨b, hs'⟩ := hwf.ht1_sized hre
        simp only [hre, hs'.findKey_eq, map_some, bind_some, map_none, not_true_eq_false, if_false]
        rcases d₁.ht1.unlinkKey hash key with _ | _ | r <;> rfl
      · simp [hre]
    · rfl

theorem dictFind_spec (h : d.Wf hash) (hm : Represents d.entries m) (key : K) :
    ∃ d' he, dictFind hash d key = some (d', he) ∧ he.map Prod.snd = m.lookup key ∧ d'.Wf hash ∧
      Represents d'.entries m := by
  obtain ⟨d', hwf, hentries, hfind⟩ := dictFind_eq h key
  obtain ⟨_, he, hdelete, hlookup, -⟩ := dictGenericDelete_spec h hm key
  exact ⟨d', he, by rw [hfind, hdelete]; rfl, hlookup, hwf, hentries ▸ hm⟩

/-! ### Runs -/

/-- The size that `dictExpand` is asked for. -/
def DictOp.asked : DictOp K V → ℕ
  | .expand size => size
  | _ => 0

theorem exec_spec (h : d.Wf hash) (hm : Represents d.entries m) (call : DictCall K V)
    (hsmall : call.op.asked ≤ 2 ^ 60) (hcard : m.keys.card ≤ 2 ^ 59) :
    ∃ d', call.exec hash d = some (d', (call.apply m).2) ∧ d'.Wf hash ∧
      Represents d'.entries (call.apply m).1 := by
  rw [hm.card_keys] at hcard
  obtain ⟨dict_can_resize, op⟩ := call
  unfold DictCall.exec DictCall.apply
  cases op with
  | add key val =>
    obtain ⟨d', hadd, hwf, hm'⟩ := dictAdd_spec h hm hcard dict_can_resize key val
    refine ⟨d', ?_, hwf, ?_⟩
    · simp only [hadd, map_some]
      split_ifs with hsome
      · simp [hsome]
      · simp [hsome]
    · simp only
      split_ifs at hm' ⊢ <;> exact hm'
  | replace key val =>
    obtain ⟨d', hreplace, hwf, hm'⟩ := dictReplace_spec h hm hcard dict_can_resize key val
    exact ⟨d', by simp only [hreplace, map_some], hwf, hm'⟩
  | delete key =>
    obtain ⟨d', he, hdelete, hval, hwf, hm'⟩ := dictGenericDelete_spec h hm key
    refine ⟨d', ?_, hwf, hm'⟩
    simp [dictDelete, hdelete, map_some, ← hval, isSome_map]
  | unlink key =>
    obtain ⟨d', he, hdelete, hval, hwf, hm'⟩ := dictGenericDelete_spec h hm key
    refine ⟨d', ?_, hwf, hm'⟩
    simp [dictUnlink, hdelete, map_some, hval]
  | find key =>
    obtain ⟨d', he, hfind, hval, hwf, hm'⟩ := dictFind_spec h hm key
    refine ⟨d', ?_, hwf, hm'⟩
    simp [hfind, map_some, hval]
  | expand size =>
    obtain ⟨hwf, hentries⟩ := dictExpand_spec h hsmall
    exact ⟨_, rfl, hwf, hentries ▸ hm⟩
  | resize =>
    obtain ⟨hwf, hentries⟩ := dictResize_spec h dict_can_resize
    exact ⟨_, rfl, hwf, hentries ▸ hm⟩
  | rehash n =>
    obtain ⟨d', more, hrehash, hwf, hentries⟩ := dictRehash_spec h n
    exact ⟨d', by simp only [hrehash, map_some], hwf, hentries ▸ hm⟩

/-- The calls of a run ask for small sizes, and the map that they are made on is small. -/
def SmallRun (calls : List (DictCall K V)) (m : Finmap fun _ : K => V) : Prop :=
  Along DictCall.apply (fun m call => call.op.asked ≤ 2 ^ 60 ∧ m.keys.card ≤ 2 ^ 59) calls m

instance (calls : List (DictCall K V)) (m : Finmap fun _ : K => V) : Decidable (SmallRun calls m) :=
  decidableAlong calls m

theorem dictRun_spec (h : d.Wf hash) (hm : Represents d.entries m) {calls : List (DictCall K V)}
    (hsmall : SmallRun calls m) :
    ∃ d', dictRun hash calls d = some (d', (run DictCall.apply calls m).2) ∧ d'.Wf hash ∧
      Represents d'.entries (run DictCall.apply calls m).1 := by
  induction calls generalizing d m with
  | nil => exact ⟨d, rfl, h, hm⟩
  | cons call calls ih =>
    obtain ⟨d₁, hexec, hwf, hm₁⟩ := exec_spec h hm call hsmall.1.1 hsmall.1.2
    obtain ⟨d₂, hrun, hwf₂, hm₂⟩ := ih hwf hm₁ hsmall.2
    refine ⟨d₂, ?_, hwf₂, hm₂⟩
    rw [dictRun, hexec, bind_some, hrun]
    rfl

end Keys

theorem read_newTable_large (h1 : 61 ≤ n) (h2 : n ≤ 63) (i : ℕ) :
    (newTable (2 ^ n) : Dictht K V).read i = none := by
  have hzero : 2 ^ n * 8 % 2 ^ 64 / 8 = 0 := by
    interval_cases n <;> norm_num
  simp only [newTable, Dictht.read, zcallocSlots, pointerSize, bind_some, hzero, Nat.not_lt_zero, if_false]

theorem dictExpand_large (hsize : 2 ^ 60 < size) (hok : (dictExpand d size).2 = true) :
    2 ^ 61 ≤ (dictExpand d size).1.target.size ∧ ∀ i, (dictExpand d size).1.target.read i = none := by
  obtain ⟨n, hn, -, h2, -, h1⟩ := dictNextPower_spec size
  have hlarge :
    2 ^ 61 ≤ (newTable (2 ^ n) : Dictht K V).size ∧ ∀ i, (newTable (2 ^ n) : Dictht K V).read i = none :=
    ⟨Nat.pow_le_pow_right (by norm_num) (h1 hsize), read_newTable_large (h1 hsize) h2⟩
  obtain ⟨heq, -⟩ | ⟨hnone, ⟨-, heq⟩ | ⟨-, heq⟩⟩ := dictExpand_cases d size
  · exact absurd hok (by simp [heq])
  · have htarget : (dictExpand d size).1.target = newTable (2 ^ n) := by
      rw [heq, hn, Dict.target, dictIsRehashing, hnone]
      rfl
    rwa [htarget]
  · have htarget : (dictExpand d size).1.target = newTable (2 ^ n) := by
      rw [heq, hn]
      rfl
    rwa [htarget]

/-- From `dictCreate`, every sequence of calls has the results of a finite map, and leaves
tables that hold its entries, each in the bucket of its hash and counted, with no key twice and
none behind `rehashidx`; as long as no expansion beyond 2^60 buckets is asked for and the map
has at most 2^59 keys. A larger expansion that succeeds makes a table that cannot be accessed. -/
theorem dict_refines_map [DecidableEq K] (hash : K → BitVec 64) :
    (∀ calls : List (DictCall K V), SmallRun calls ∅ →
        ∃ d, dictRun hash calls dictCreate = some (d, (run DictCall.apply calls ∅).2) ∧ d.Wf hash ∧
          Represents d.entries (run DictCall.apply calls ∅).1) ∧
      ∀ (d : Dict K V) (size : ℕ), 2 ^ 60 < size → (dictExpand d size).2 = true →
        2 ^ 61 ≤ (dictExpand d size).1.target.size ∧ ∀ i, (dictExpand d size).1.target.read i = none := by
  refine ⟨?_, ?_⟩
  · intro calls hsmall
    exact dictRun_spec .create .empty hsmall
  · intro d size hsize hok
    exact dictExpand_large hsize hok

/-- Keys whose hashes collide in a table that grows and moves between the calls. -/
def growingCalls : List (DictCall ℕ ℕ) :=
  [⟨true, .add 4 40⟩, ⟨true, .add 8 80⟩, ⟨false, .add 4 41⟩, ⟨true, .replace 8 81⟩,
    ⟨true, .expand 16⟩,
    ⟨true, .find 8⟩, ⟨true, .rehash 2⟩, ⟨true, .unlink 4⟩, ⟨true, .resize⟩, ⟨true, .delete 4⟩]

theorem dict_refines_growingCalls : ∃ d, dictRun (BitVec.ofNat 64) growingCalls dictCreate =
        some (d, [.status true, .status true, .status false, .status false, .entry (some 81), .entry (some 40),
          .status false]) ∧ d.Wf (BitVec.ofNat 64) ∧ Represents d.entries (Finmap.singleton 8 81) :=
  (dict_refines_map (BitVec.ofNat 64)).1 growingCalls (by decide)

/-- The first key after an expansion to 2^61 buckets is looked for outside of the table. -/
theorem dict_expand_overflows :
    dictRun (BitVec.ofNat 64) [⟨true, .expand (2 ^ 61)⟩,
      ⟨true, .add 1 10⟩] (dictCreate : Dict ℕ ℕ) = none :=
  isNone_iff_eq_none.mp (by decide)

end RedisIR
