import RedisIR.Proofs.Bitops
import RedisIR.Proofs.Util

/-! Counters that are exact or refuse, and the limit on the length of a string. -/

namespace RedisIR

open CLib List Option

variable {k : Bytes}
variable {value p q : Bytes} {n : ℕ} {a : BitfieldArgs} {args : List Bytes}

/-! ### Counters -/

/-- The exact result is stored and replied, or the command refuses because it leaves 64 bits. -/
def ExactOrRefused (k : Bytes) (db : Db) (result : ℤ) (e : CommandEffect) : Prop :=
  if LLONG_MIN ≤ result ∧ result ≤ LLONG_MAX then e = ⟨setKey db k (decimal result), [.int result], 1⟩
  else e = .error db "increment or decrement would overflow"

theorem incrDecrCommand_exact {db : Db} {v : ℤ} (hdb : getLongLongFromObject (db k) = some v)
    (h1 : LLONG_MIN ≤ v) (h2 : v ≤ LLONG_MAX) {incr : ℤ} (h3 : LLONG_MIN ≤ incr)
    (h4 : incr ≤ LLONG_MAX) (c : Cmd) :
    ExactOrRefused k db (v + incr) (incrDecrCommand k incr c db).toEffect := by
  have hiff : ((incr < 0 ∧ v < 0 ∧ incr < LLONG_MIN - v) ∨ (incr > 0 ∧ v > 0 ∧ incr > LLONG_MAX - v)) ↔
      ¬ (LLONG_MIN ≤ v + incr ∧ v + incr ≤ LLONG_MAX) := by
    omega
  simp only [ExactOrRefused, incrDecrCommand, hdb, hiff]
  by_cases hfits : LLONG_MIN ≤ v + incr ∧ v + incr ≤ LLONG_MAX
  · rw [if_pos hfits, if_neg (not_not.mpr hfits)]
    rfl
  · rw [if_neg hfits, if_pos hfits]
    rfl

/-- For every counter in range and every argument that is read: `INCRBY` is exact or refuses,
and so is `DECRBY` unless its argument is the smallest number, whose negation is itself. -/
theorem counter_exact_iff {k arg : Bytes} {db : Db} {v n : ℤ} (h1 : LLONG_MIN ≤ v) (h2 : v ≤ LLONG_MAX)
    (hdb : db k = some (decimal v) ∨ db k = none ∧ v = 0) (harg : string2ll arg = some n) :
    ExactOrRefused k db (v + n) (incrbyCommand k arg db) ∧
      (ExactOrRefused k db (v - n) (decrbyCommand k arg db) ↔ n ≠ LLONG_MIN) := by
  have hold : getLongLongFromObject (db k) = some v := by
    rcases hdb with hdb | ⟨hdb, rfl⟩
    · rw [hdb, getLongLongFromObject, string2ll_decimal h1 h2]
    · rw [hdb, getLongLongFromObject]
  obtain ⟨h3, h4, -⟩ := (string2ll_eq_some_iff arg n).mp harg
  refine ⟨?_, ?_⟩
  · rw [incrbyCommand, harg]
    exact incrDecrCommand_exact hold h1 h2 h3 h4 _
  · rw [decrbyCommand, harg]
    by_cases hn : n = LLONG_MIN
    · subst hn
      have hwrap : wrapLongLong (-LLONG_MIN) = LLONG_MIN := by decide
      have hexact := incrDecrCommand_exact hold h1 h2 (le_refl LLONG_MIN) (by decide) (.incr k)
      refine iff_of_false ?_ (not_not.mpr rfl)
      intro hsub
      simp only [hwrap] at hsub
      unfold ExactOrRefused at hexact hsub
      -- exactly one of the sum and the difference is in range
      rcases lt_or_ge v 0 with hneg | hpos
      · rw [if_neg (by unfold LLONG_MIN LLONG_MAX at *; omega)] at hexact
        rw [if_pos (by unfold LLONG_MIN LLONG_MAX at *; omega), hexact] at hsub
        exact absurd (congrArg CommandEffect.dirty hsub) zero_ne_one
      · rw [if_pos (by unfold LLONG_MIN LLONG_MAX at *; omega)] at hexact
        rw [if_neg (by unfold LLONG_MIN LLONG_MAX at *; omega), hexact] at hsub
        exact absurd (congrArg CommandEffect.dirty hsub) one_ne_zero
    · refine iff_of_true ?_ hn
      have hneg : wrapLongLong (-n) = -n := by
        unfold LLONG_MIN LLONG_MAX at *
        exact wrapLongLong_of_range (by omega) (by omega)
      simp only [hneg, sub_eq_add_neg]
      exact incrDecrCommand_exact hold h1 h2 (by unfold LLONG_MIN LLONG_MAX at *; omega)
        (by unfold LLONG_MIN LLONG_MAX at *; omega) _

def counterDb : Db := setKey emptyDb [107] (ascii ['4', '1'])

theorem counter_exact_fortyOne :
    ExactOrRefused [107] counterDb 39 (incrbyCommand [107] (ascii ['-', '2']) counterDb) ∧
      ExactOrRefused [107] counterDb 43 (decrbyCommand [107] (ascii ['-', '2']) counterDb) := by
  have h := @counter_exact_iff [107] (ascii ['-', '2']) counterDb 41 (-2) (by decide) (by decide)
    (.inl (by decide)) (by decide)
  exact ⟨h.1, h.2.mpr (by decide)⟩

/-- `DECRBY k -9223372036854775808` on an absent key: the result is 2^63, and -2^63 is stored. -/
theorem decrby_min_stored : ((decrbyCommand [107] (decimal LLONG_MIN) emptyDb).db [107] = some (decimal LLONG_MIN)) ∧
      (decrbyCommand [107] (decimal LLONG_MIN) emptyDb).replies = [.int LLONG_MIN] ∧
        (0 : ℤ) - LLONG_MIN > LLONG_MAX := by
  decide +kernel

/-! ### The length of strings -/

theorem sdsgrowzero_length (s : Bytes) (len : ℕ) : (sdsgrowzero s len).length = max s.length len := by
  rw [sdsgrowzero, length_append, length_replicate]
  omega

theorem overwrite_length {s : Bytes} {offset : ℕ} (h : offset + value.length ≤ s.length) :
    (overwrite s offset value).length = s.length := by
  rw [overwrite, length_append, length_append, length_take, length_drop]
  omega

theorem checkStringLength_wrap (h : n < 2 ^ 64) :
    checkStringLength (wrapLongLong n) = true ↔ n ≤ 512 * 1024 * 1024 ∨ 2 ^ 63 ≤ n := by
  have hcases := @wrapLongLong_cases n (by omega) (by omega)
  rw [checkStringLength, decide_eq_true_iff]
  omega

/-- An error that leaves the key alone, or a string of at most 512 MB. -/
def Bounded (k : Bytes) (db : Db) (e : CommandEffect) : Prop :=
  (∃ msg, e = .error db msg) ∨ ∀ s, e.db k = some s → s.length ≤ 512 * 1024 * 1024

/-- A change is within the limit exactly if the string that it stores is. -/
theorem bounded_setKey {db : Db} (s : Bytes) (rs : List Reply) {dirty : ℕ} (hd : dirty ≠ 0) :
    Bounded k db ⟨setKey db k s, rs, dirty⟩ ↔ s.length ≤ 512 * 1024 * 1024 := by
  have hself : setKey db k s k = some s := Function.update_self ..
  refine ⟨?_, ?_⟩
  · intro hb
    rcases hb with ⟨msg, herr⟩ | hlen
    · exact absurd (congrArg CommandEffect.dirty herr) hd
    · exact hlen s hself
  · intro hlen
    refine .inr fun s' hs' => ?_
    obtain rfl := some.inj (hself.symm.trans hs')
    exact hlen

theorem bounded_error (k : Bytes) (db : Db) (msg : String) : Bounded k db (.error db msg) := .inl ⟨msg, rfl⟩

theorem getBitOffsetFromArgument_lt {o : Bytes} {hash : Bool} {bits offset : ℕ}
    (h : getBitOffsetFromArgument o hash bits = .ok offset) : offset / 8 < 512 * 1024 * 1024 := by
  unfold getBitOffsetFromArgument at h
  simp only at h
  split at h
  · cases h
  · split_ifs at h <;> cases h <;> omega

/-! ### The operations of `BITFIELD` -/

theorem setUnsignedBitfieldLoop_length {value : BitVec 64} {o : ℕ}
    (h : setUnsignedBitfieldLoop value n o p = some q) : q.length = p.length := by
  induction n generalizing o p with
  | zero =>
    cases h
    rfl
  | succ n ih =>
    rw [setUnsignedBitfieldLoop, bind_eq_some_iff] at h
    obtain ⟨mask, -, h⟩ := h
    simp only at h
    split at h
    · cases h
    · rw [ih h, length_set]

theorem written_length {c : Prop} [Decidable c] {r r' : Reply} {value : BitVec 64} {o : ℕ}
    (h : (if c then some (p, .nullBulk) else (setUnsignedBitfieldLoop value n o p).map fun p => (p, r')) =
      some (q, r)) :
    q.length = p.length := by
  split at h
  · cases h
    rfl
  · obtain ⟨q', hq, hr⟩ := map_eq_some_iff.mp h
    cases hr
    exact setUnsignedBitfieldLoop_length hq

theorem BitfieldOp.exec_length {op : BitfieldOp} {r : Reply} (h : op.exec p = some (q, r)) : q.length = p.length := by
  unfold BitfieldOp.exec at h
  split at h
  · obtain ⟨r', -, hr⟩ := map_eq_some_iff.mp h
    cases hr
    rfl
  · split at h
    all_goals
      obtain ⟨oldval, -, h⟩ := bind_eq_some_iff.mp h
      obtain ⟨overflow, -, h⟩ := bind_eq_some_iff.mp h
      exact written_length h

theorem bitfieldExec_length {ops : List BitfieldOp} {rs : List Reply} (h : bitfieldExec ops p = some (q, rs)) :
    q.length = p.length := by
  induction ops generalizing p rs with
  | nil =>
    cases h
    rfl
  | cons op ops ih =>
    obtain ⟨r, hr, h⟩ := bind_eq_some_iff.mp h
    obtain ⟨rs', hrs, heq⟩ := map_eq_some_iff.mp h
    cases heq
    rw [ih hrs, BitfieldOp.exec_length hr]

/-- The farthest bit that is written belongs to an operation, and none goes farther. -/
structure BitfieldArgs.Consistent (a : BitfieldArgs) : Prop where
  reads : a.readonly = true → a.highestWriteOffset = 0 ∧ ∀ op ∈ a.ops, op.opcode = .get
  covers : ∀ op ∈ a.ops, op.opcode ≠ .get → op.offset + op.type.bits ≤ a.highestWriteOffset + 1
  writes : a.readonly = false → ∃ op ∈ a.ops, op.opcode ≠ .get ∧
    op.offset + op.type.bits = a.highestWriteOffset + 1

theorem BitfieldArgs.Consistent.add (h : a.Consistent) (op : BitfieldOp) : (a.add op).Consistent := by
  have hpos := op.type.bits_pos
  unfold BitfieldArgs.add
  split_ifs with hget
  · refine ⟨?_, ?_, ?_⟩
    · intro hr
      refine ⟨(h.reads hr).1, ?_⟩
      intro op' hop'
      rcases mem_append.mp hop' with hold | hnew
      · exact (h.reads hr).2 op' hold
      · rw [mem_singleton.mp hnew, hget]
    · intro op' hop' hne
      rcases mem_append.mp hop' with hold | hnew
      · exact h.covers op' hold hne
      · exact absurd (mem_singleton.mp hnew ▸ hget) hne
    · intro hw
      obtain ⟨op', hop', hne, heq⟩ := h.writes hw
      exact ⟨op', mem_append_left _ hop', hne, heq⟩
  · refine ⟨nofun, ?_, ?_⟩
    · intro op' hop' hne
      rcases mem_append.mp hop' with hold | hnew
      · have hle := h.covers op' hold hne
        simp only
        omega
      · rw [mem_singleton.mp hnew]
        simp only
        omega
    · intro _
      by_cases hle : op.offset + op.type.bits - 1 ≤ a.highestWriteOffset
      · cases hr : a.readonly with
        | true =>
          have hzero := (h.reads hr).1
          exact ⟨op, mem_append_right _ (mem_singleton_self op), hget, by simp only; omega⟩
        | false =>
          obtain ⟨op', hop', hne, heq⟩ := h.writes hr
          exact ⟨op', mem_append_left _ hop', hne, by simp only; omega⟩
      · exact ⟨op, mem_append_right _ (mem_singleton_self op), hget, by simp only; omega⟩

theorem bitfieldLoop_consistent {fuel : ℕ} {owtype : OwType} {acc : BitfieldArgs} (h : acc.Consistent)
    (hparse : bitfieldLoop fuel args owtype acc = .ok a) : a.Consistent := by
  induction fuel generalizing args owtype acc with
  | zero =>
    cases hparse
    exact h
  | succ fuel ih =>
    cases args with
    | nil =>
      cases hparse
      exact h
    | cons subcmd args =>
      rw [bitfieldLoop] at hparse
      split at hparse
      · split at hparse
        · cases hparse
        · exact ih (h.add _) hparse
      · split at hparse
        · split at hparse
          · cases hparse
          · exact ih h hparse
        · cases hparse

theorem bitfieldParse_consistent (h : bitfieldParse args = .ok a) : a.Consistent :=
  bitfieldLoop_consistent ⟨fun _ => ⟨rfl, by simp⟩, by simp, fun hw => absurd hw (by simp)⟩ h

section Limit

variable {db : Db} (h : ∀ s, db k = some s → s.length ≤ 512 * 1024 * 1024)

include h

theorem getD_length_le : ((db k).getD []).length ≤ 512 * 1024 * 1024 := by
  cases hk : db k with
  | none => exact Nat.zero_le _
  | some s => exact h s hk

theorem setrangeCommand_bounded_iff (hvalue : value.length < 2 ^ 63) (off : Bytes) :
    Bounded k db (setrangeCommand k off value db) ↔
      ¬ ∃ offset, string2ll off = some offset ∧ 0 ≤ offset ∧ value ≠ [] ∧
        2 ^ 63 ≤ offset + value.length := by
  unfold setrangeCommand
  cases hoff : string2ll off with
  | none => exact iff_of_true (bounded_error k db _) (by simp)
  | some offset =>
    obtain ⟨-, hmax, -⟩ := (string2ll_eq_some_iff off offset).mp hoff
    simp only [some.injEq, exists_eq_left']
    by_cases hneg : offset < 0
    · rw [if_pos hneg]
      exact iff_of_true (bounded_error k db _) (by omega)
    rw [if_neg hneg]
    by_cases hempty : value.length = 0
    · rw [if_pos hempty]
      refine iff_of_true (.inr h) ?_
      rw [length_eq_zero_iff.mp hempty]
      simp
    have hlt : offset.toNat + value.length < 2 ^ 64 := by
      unfold LLONG_MAX at hmax
      omega
    have hne : value ≠ [] := fun hnil => hempty (by rw [hnil]; rfl)
    rw [if_neg hempty, Nat.mod_eq_of_lt hlt]
    split_ifs with hcheck
    · rw [bounded_setKey _ _ one_ne_zero, overwrite_length (by rw [sdsgrowzero_length]; omega),
        sdsgrowzero_length]
      have hs := getD_length_le h
      rw [checkStringLength_wrap hlt] at hcheck
      simp only [hne, ne_eq, not_false_eq_true, true_and]
      omega
    · rw [checkStringLength_wrap hlt] at hcheck
      exact iff_of_true (bounded_error k db _) (by omega)

theorem appendCommand_bounded_iff (hvalue : value.length < 2 ^ 63) : Bounded k db (appendCommand k value db) ↔
      (db k = none → value.length ≤ 512 * 1024 * 1024) ∧ ∀ s, db k = some s →
        s.length + value.length < 2 ^ 63 := by
  unfold appendCommand
  cases hk : db k with
  | none =>
    simp only [forall_const, reduceCtorEq, false_implies, and_true]
    exact bounded_setKey _ _ one_ne_zero
  | some s =>
    have hs := h s hk
    have hlt : s.length + value.length < 2 ^ 64 := by omega
    simp only [reduceCtorEq, false_implies, true_and, some.injEq, forall_eq']
    rw [Nat.mod_eq_of_lt hlt]
    split_ifs with hcheck
    · rw [bounded_setKey _ _ one_ne_zero, length_append]
      rw [checkStringLength_wrap hlt] at hcheck
      omega
    · rw [checkStringLength_wrap hlt] at hcheck
      exact iff_of_true (bounded_error k db _) (by omega)

theorem setbitCommand_bounded (off bit : Bytes) : ∃ e, setbitCommand k off bit db = some e ∧ Bounded k db e := by
  unfold setbitCommand
  simp only
  cases hoff : getBitOffsetFromArgument off false 0 with
  | error msg => exact ⟨_, rfl, bounded_error k db msg⟩
  | ok bitoffset =>
    cases string2ll bit with
    | none => exact ⟨_, rfl, bounded_error k db _⟩
    | some on =>
      simp only
      split
      · exact ⟨_, rfl, bounded_error k db _⟩
      · have hlt := getBitOffsetFromArgument_lt hoff
        have hs := getD_length_le h
        have hlen :
          (lookupStringForBitCommand k bitoffset db).length = max ((db k).getD []).length (bitoffset / 8 + 1) :=
          sdsgrowzero_length _ _
        rw [List.getElem?_eq_getElem (by omega), map_some]
        refine ⟨_, rfl, (bounded_setKey _ _ one_ne_zero).mpr ?_⟩
        rw [length_set]
        omega

/-- What `sdsgrowzero` is asked for lies within the limit exactly if every field does. -/
theorem lookupStringForBitCommand_length_le_iff (ha : a.Consistent) (hw : a.readonly = false) :
    (lookupStringForBitCommand k a.highestWriteOffset db).length ≤ 512 * 1024 * 1024 ↔
      ∀ op ∈ a.ops, op.opcode ≠ .get → op.offset + op.type.bits ≤ 2 ^ 32 := by
  have hs := getD_length_le h
  rw [lookupStringForBitCommand, sdsgrowzero_length]
  refine ⟨?_, ?_⟩
  · intro hle op hop hne
    have hcover := ha.covers op hop hne
    omega
  · intro hall
    obtain ⟨op, hop, hne, heq⟩ := ha.writes hw
    have hle := hall op hop hne
    omega

theorem bitfieldCommand_bounded_iff {e : CommandEffect} (hparse : bitfieldParse args = .ok a)
    (he : bitfieldCommand k args db = some e) :
    Bounded k db e ↔ ∀ op ∈ a.ops, op.opcode ≠ .get → op.offset + op.type.bits ≤ 2 ^ 32 := by
  have ha := bitfieldParse_consistent hparse
  simp only [bitfieldCommand, hparse] at he
  cases hr : a.readonly with
  | true =>
    rw [if_pos hr] at he
    obtain ⟨r, -, rfl⟩ := map_eq_some_iff.mp he
    exact iff_of_true (.inr h) fun op hop hne => absurd ((ha.reads hr).2 op hop) hne
  | false =>
    rw [hr, if_neg Bool.false_ne_true] at he
    obtain ⟨r, hexec, rfl⟩ := map_eq_some_iff.mp he
    have hdirty : a.ops.countP (·.opcode ≠ .get) ≠ 0 := by
      obtain ⟨op, hop, hne, -⟩ := ha.writes hr
      rw [← Nat.pos_iff_ne_zero, countP_pos_iff]
      exact ⟨op, hop, decide_eq_true hne⟩
    rw [bounded_setKey _ _ hdirty, bitfieldExec_length hexec]
    exact lookupStringForBitCommand_length_le_iff h ha hr

end Limit

/-- For every string of at most 512 MB, or none: `SETBIT` always keeps to the limit; `SETRANGE`
unless its sum is 2^63 or more; `APPEND` unless there is nothing to append to and the argument
is too long (or the sum is 2^63 or more); `BITFIELD` unless a field ends behind bit 2^32, and it
is the string it works on that is too long then. -/
theorem string_limit_iff {k : Bytes} {db : Db} (h : ∀ s, db k = some s → s.length ≤ 512 * 1024 * 1024) :
    (∀ off bit, ∃ e, setbitCommand k off bit db = some e ∧ Bounded k db e) ∧
        (∀ off value, value.length < 2 ^ 63 → (Bounded k db (setrangeCommand k off value db) ↔
          ¬ ∃ offset, string2ll off = some offset ∧ 0 ≤ offset ∧ value ≠ [] ∧ 2 ^ 63 ≤
      offset + value.length)) ∧ (∀ value, value.length < 2 ^ 63 → (Bounded k db (appendCommand k value db) ↔
          (db k = none → value.length ≤ 512 * 1024 * 1024) ∧ ∀ s, db k = some s →
            s.length + value.length < 2 ^ 63)) ∧
      ∀ args, (∀ msg, bitfieldParse args = .error msg → ∃ e, bitfieldCommand k args db = some e ∧
          Bounded k db e) ∧ ∀ a, bitfieldParse args = .ok a → (∀ e, bitfieldCommand k args db = some e →
              (Bounded k db e ↔ ∀ op ∈ a.ops, op.opcode ≠ .get → op.offset + op.type.bits ≤ 2 ^ 32)) ∧
            (a.readonly = false →
              ((lookupStringForBitCommand k a.highestWriteOffset db).length ≤ 512 * 1024 * 1024 ↔
                ∀ op ∈ a.ops, op.opcode ≠ .get → op.offset + op.type.bits ≤ 2 ^ 32)) := by
  refine ⟨setbitCommand_bounded h, fun off _ hv => setrangeCommand_bounded_iff h hv off,
    fun _ hv => appendCommand_bounded_iff h hv, ?_⟩
  intro args
  refine ⟨?_, ?_⟩
  · intro msg hmsg
    exact ⟨.error db msg, by rw [bitfieldCommand, hmsg], bounded_error k db msg⟩
  · intro a ha
    exact ⟨fun e he => bitfieldCommand_bounded_iff h ha he,
      lookupStringForBitCommand_length_le_iff h (bitfieldParse_consistent ha)⟩

/-- Two bytes after the ones that are there. -/
theorem string_limit_setrange : Bounded [107] counterDb (setrangeCommand [107] (ascii ['2']) [120, 121] counterDb) := by
  have h : ∀ s, counterDb [107] = some s → s.length ≤ 512 * 1024 * 1024 := by
    intro s hs
    obtain rfl : ascii ['4', '1'] = s := some.inj hs
    decide
  refine ((string_limit_iff h).2.1 (ascii ['2']) [120, 121] (by decide)).mpr ?_
  intro hbad
  obtain ⟨offset, hoff, -, -, hge⟩ := hbad
  obtain rfl : 2 = offset := some.inj hoff
  exact absurd hge (by decide)

/-- `BITFIELD k SET u8 4294967295 1` -/
def lastBitArgs : List Bytes :=
  [SET_WORD, ascii ['u', '8'], ascii ['4', '2', '9', '4', '9', '6', '7', '2', '9', '5'], ascii ['1']]

/-- The sum of the greatest offset and one byte passes for a negative number, and a field that
starts at the last bit asks for a byte too many. -/
theorem limit_passed : ¬ Bounded [107] emptyDb (setrangeCommand [107] (decimal LLONG_MAX) [120] emptyDb) ∧
      bitfieldParse lastBitArgs = .ok ⟨[⟨.set, unsigned8, 2 ^ 32 - 1, 1, .wrap⟩], false, 2 ^ 32 + 6⟩ ∧
      (lookupStringForBitCommand [107] (2 ^ 32 + 6) emptyDb).length = 512 * 1024 * 1024 + 1 := by
  refine ⟨?_, by rfl, ?_⟩
  · rw [setrangeCommand_bounded_iff (by simp [emptyDb]) (by decide), not_not]
    exact ⟨LLONG_MAX, string2ll_decimal (by decide) (by decide), by decide, by decide, by decide⟩
  · rw [lookupStringForBitCommand, sdsgrowzero_length, emptyDb]
    rfl

end RedisIR
