import RedisIR.Proofs.Equivalence

/-! What the end of a log says about one key. A `SET` or a `DEL` makes the key forget what
was before; increments pile up on it. Indexing commands a second time therefore changes
exactly the keys that they only increment. -/

namespace RedisIR

open CLib Option

variable {c : LogCmd} {k : CStr}

/-- The command fixes the value of `k`. -/
def LogCmd.overwrites (c : LogCmd) (k : CStr) : Bool :=
  match c.op with
  | .set b _ => cstr b = k
  | .del b => cstr b = k
  | _ => false

def LogCmd.increments (c : LogCmd) (k : CStr) : Bool :=
  match c.op with
  | .incr b => cstr b = k
  | _ => false

/-- Some command of the log fixes the value of `k`. -/
def Overwritten (k : CStr) (L : List LogCmd) : Prop := ∃ c ∈ L, c.overwrites k = true

/-- How often the log increments `k`. -/
def incrCount (k : CStr) (L : List LogCmd) : ℕ := L.countP fun c => c.increments k

instance (k : CStr) (L : List LogCmd) : Decidable (Overwritten k L) :=
  inferInstanceAs (Decidable (∃ c ∈ L, _))

theorem overwrites_sem (h : c.overwrites k = true) : recordSem.Overwrites k c := by
  obtain ⟨o, w, hw, hfits⟩ := c
  cases o with
  | set b v => exact ⟨congrArg some (of_decide_eq_true h), fun _ _ => rfl⟩
  | del b => exact ⟨congrArg some (of_decide_eq_true h), fun _ _ => rfl⟩
  | _ => cases h

theorem touch_increments (h : c.increments k = true) (x : Option Bytes) :
    recordSem.touch k x c = some (incrText x) := by
  obtain ⟨o, w, hw, hfits⟩ := c
  cases o with
  | incr b =>
    have hkey : recordSem.key ⟨.incr b, w, hw, hfits⟩ = some k := congrArg some (of_decide_eq_true h)
    exact recordSem.touch_of_key_eq hkey x
  | _ => cases h

theorem touch_other (h1 : c.overwrites k = false) (h2 : c.increments k = false) (x : Option Bytes) :
    recordSem.touch k x c = x := by
  obtain ⟨o, w, hw, hfits⟩ := c
  apply recordSem.touch_of_key_ne
  intro hkey
  cases o with
  | set b v => exact absurd (some.inj hkey) (of_decide_eq_false h1)
  | incr b => exact absurd (some.inj hkey) (of_decide_eq_false h2)
  | del b => exact absurd (some.inj hkey) (of_decide_eq_false h1)
  | _ => cases hkey

theorem fold_overwritten {L : List LogCmd} (h : Overwritten k L) (x y : Option Bytes) :
    recordSem.fold k x L = recordSem.fold k y L := by
  obtain ⟨c, hc, hover⟩ := h
  exact recordSem.fold_eq_of_overwrites ⟨c, hc, overwrites_sem hover⟩ x y

/-- The `int` that the text of a value is read as, zero without a value. -/
def counter (x : Option Bytes) : ℤ := atoi (x.getD zeroText)

theorem counter_none : counter none = 0 := by decide +kernel

theorem counter_incrText (x : Option Bytes) : counter (some (incrText x)) = wrapInt (counter x + 1) :=
  atoi_decimal_wrapInt _

theorem incrText_eq (x : Option Bytes) : incrText x = decimal (wrapInt (counter x + 1)) := rfl

/-- Without an overwriting command a log adds the number of its increments. -/
theorem fold_increments {L : List LogCmd} (h : ¬ Overwritten k L) (x : Option Bytes) : recordSem.fold k x L =
      if incrCount k L = 0 then x else some (decimal (wrapInt (counter x + incrCount k L))) := by
  induction L generalizing x with
  | nil => rfl
  | cons c L ih =>
    have hover : c.overwrites k = false := by
      by_contra hc
      exact h ⟨c, by simp, by simpa using hc⟩
    have hL : ¬ Overwritten k L := fun ⟨c', hc', ho⟩ => h ⟨c', by simp [hc'], ho⟩
    rw [recordSem.fold_cons]
    cases hinc : c.increments k with
    | false =>
      have hcount : incrCount k (c :: L) = incrCount k L := by simp [incrCount, hinc]
      rw [touch_other hover hinc, hcount]
      exact ih hL x
    | true =>
      have hcount : incrCount k (c :: L) = incrCount k L + 1 := by simp [incrCount, hinc]
      rw [touch_increments hinc, ih hL, hcount, if_neg (Nat.succ_ne_zero _), counter_incrText]
      split_ifs with h0
      · rw [h0, incrText_eq]
        norm_num
      · rw [wrapInt_add]
        push_cast
        ring_nf

/-- The texts of two `int`s that wrap are equal when the numbers differ by a multiple of
`2 ^ 32`. -/
theorem decimal_wrapInt_inj (i j : ℤ) : decimal (wrapInt i) = decimal (wrapInt j) ↔ (2 : ℤ) ^ 32 ∣ i - j := by
  have hi := wrapInt_range i
  have hj := wrapInt_range j
  rw [← wrapInt_eq_iff]
  exact ⟨decimal_injective_int hi.1 hi.2 hj.1 hj.2, congrArg decimal⟩

/-- When the starting value of a key shows after the log: the log does not overwrite the
key, and it either leaves the key alone or counts on from it. -/
theorem fold_eq_iff (k : CStr) (x y : Option Bytes) (B : List LogCmd) : recordSem.fold k x B = recordSem.fold k y B ↔
      Overwritten k B ∨ x = y ∨ (0 < incrCount k B ∧ counter x = counter y) := by
  by_cases hover : Overwritten k B
  · exact iff_of_true (fold_overwritten hover _ _) (.inl hover)
  · rw [fold_increments hover, fold_increments hover, or_iff_right hover]
    by_cases h0 : incrCount k B = 0
    · simp [h0]
    · have hx : -2 ^ 31 ≤ counter x ∧ counter x < 2 ^ 31 := wrapInt_range _
      have hy : -2 ^ 31 ≤ counter y ∧ counter y < 2 ^ 31 := wrapInt_range _
      have hsame :
        (2 : ℤ) ^ 32 ∣ counter x + incrCount k B - (counter y + incrCount k B) ↔ counter x = counter y := by
        omega
      simp only [if_neg h0, some.injEq, Nat.pos_of_ne_zero h0, true_and, decimal_wrapInt_inj, hsame]
      refine ⟨.inr, ?_⟩
      rintro (h | h)
      · rw [h]
      · exact h

/-! ### Indexing twice -/

/-- Folding the commands `B` once more changes the value of `k` unless they overwrite it
or increment it a multiple of `2 ^ 32` times. -/
theorem fold_twice_iff (k : CStr) (x : Option Bytes) (B : List LogCmd) :
    recordSem.fold k (recordSem.fold k x B) B = recordSem.fold k x B ↔
      Overwritten k B ∨ 2 ^ 32 ∣ incrCount k B := by
  by_cases hover : Overwritten k B
  · exact iff_of_true (fold_overwritten hover _ _) (.inl hover)
  · rw [fold_increments hover, fold_increments hover, or_iff_right hover]
    by_cases h0 : incrCount k B = 0
    · simp [h0]
    · have hcounter : counter (some (decimal (wrapInt (counter x + incrCount k B)))) =
          wrapInt (counter x + incrCount k B) := atoi_decimal_wrapInt _
      simp only [if_neg h0, some.injEq]
      rw [hcounter, wrapInt_add, decimal_wrapInt_inj, add_sub_cancel_left]
      exact_mod_cast Iff.rfl

/-- The indexed log holds every record of `A ++ B`, and `FINAL_LOG_SEEK` is still at the
end of `A`: a restart leaves every folded value as it is exactly when `B` overwrites each
key that it increments, multiples of `2 ^ 32` apart. -/
theorem reindex_harmless_iff (A B : List LogCmd) {idx : IndexedLog}
    (hidx : ∀ k, view idx k = view (indexRecords Multimap.empty (A ++ B)) k) {files : Files} (replicated : Bool)
    (haof : files.aof = aofBytes (A ++ B)) (hseek : files.finalLogSeek = some ((aofBytes A).length : ℤ))
    (hlog : files.indexedLog = .ok idx) :
    ∃ r idx', initialIndexesSequentialLogToIndexedLog files replicated = .returned r ∧
      r.result.files.indexedLog = .ok idx' ∧
      ((∀ k, view idx' k = view idx k) ↔ ∀ k, Overwritten k B ∨ 2 ^ 32 ∣ incrCount k B) := by
  have hstart := chooseStart_ok files replicated hseek hlog
  have hpos : (chooseStart files replicated).seek = (aofBytes A).length := by rw [hstart]
  have hopen : (chooseStart files replicated).files.indexedLog.openW = some idx := by
    rw [hstart, hlog]
    rfl
  obtain ⟨r, hrun, hres, -⟩ := initialIndexes_boundary haof hpos hopen
  refine ⟨r, _, hrun, hres, forall_congr' fun k => ?_⟩
  rw [view_indexRecords_apply, hidx k, view_indexRecords_apply, recordSem.fold_append]
  exact fold_twice_iff k _ B

/-- The files after a crash that has left all of `L` in the indexed log `idx` and the
position at its beginning. -/
def staleFiles (L : List LogCmd) (idx : IndexedLog) : Files := { freshFiles L with indexedLog := .ok idx }

theorem reindex_harmless_counterLog : ∃ r idx', initialIndexesSequentialLogToIndexedLog
        (staleFiles counterLog (indexRecords Multimap.empty counterLog)) false = .returned r ∧
      r.result.files.indexedLog = .ok idx' ∧
        ((∀ k, view idx' k = view (indexRecords Multimap.empty counterLog) k) ↔
        ∀ k, Overwritten k counterLog ∨ 2 ^ 32 ∣ incrCount k counterLog) :=
  reindex_harmless_iff [] counterLog (fun _ => rfl) false rfl rfl rfl

def incrLog : List LogCmd := [incrCounter]

/-- Indexed twice, one increment counts twice. -/
theorem reindex_doubles : ∃ r idx', initialIndexesSequentialLogToIndexedLog
        (staleFiles incrLog (indexRecords Multimap.empty incrLog)) false = .returned r ∧
      r.result.files.indexedLog = .ok idx' ∧
      view (indexRecords Multimap.empty incrLog) (cstr (ascii ['n'])) = some (ascii ['1']) ∧
      view idx' (cstr (ascii ['n'])) = some (ascii ['2']) := by
  obtain ⟨r, hrun, hres, -⟩ := initialIndexes_boundary (A := []) (B := incrLog)
    (show (staleFiles incrLog (indexRecords Multimap.empty incrLog)).aof = _ from rfl)
    (show (chooseStart (staleFiles incrLog (indexRecords Multimap.empty incrLog)) false).seek = _ from rfl)
    (show _ = some (indexRecords Multimap.empty incrLog) from rfl)
  exact ⟨r, _, hrun, hres, by decide +kernel, by decide +kernel⟩

end RedisIR
