import RedisIR.Spec.Restarts

/-! How often the server restarts. A mechanism that is alone leaves in its counter file the
number of restarts to come. -/

namespace RedisIR.Restarts

open CLib Endian Function Machine List

variable {dir : Dir} {file : String} {a above : Bytes} {c times : ℤ}

theorem readFile_none (h : dir file = none) : readFile dir file = -1 := by
  rw [readFile, h]

theorem readFile_writeFile (h0 : 0 ≤ c) (h : c < 2 ^ 31) : readFile (writeFile a dir file c) file = c := by
  have hfits : Fits 4 c := by
    unfold Fits
    omega
  simp [readFile, writeFile, intVal_intBytes hfits]

theorem removeFile_writeFile (h : dir file = none) : removeFile (writeFile a dir file c) file = dir := by
  rw [removeFile, writeFile, update_idem, ← h, update_eq_self]

theorem countRestart_first (htimes : times ≠ 0) (h : dir file = none) :
    countRestart file times above dir = (writeFile above dir file (times - 1), true) := by
  simp [countRestart, readFile_none h, htimes]

theorem countRestart_next (htimes : times ≠ 0) (h0 : 0 < c) (h : c < 2 ^ 31) :
    countRestart file times above (writeFile a dir file c) = (writeFile above dir file (c - 1), true) := by
  simp only [countRestart, readFile_writeFile h0.le h]
  rw [if_neg htimes, if_neg (by omega), if_neg (by omega), if_pos h0, writeFile, writeFile, update_idem]
  rfl

theorem countRestart_last (htimes : times ≠ 0) (h : dir file = none) :
    countRestart file times above (writeFile a dir file 0) = (dir, false) := by
  simp [countRestart, readFile_writeFile le_rfl (show (0 : ℤ) < 2 ^ 31 by norm_num), removeFile_writeFile h, htimes]

/-- On the files that it leaves itself, the preloading counts as the others do. -/
theorem preloadDatabaseAndRestart_eq {preload : ℤ} (hon : preload ≠ 0) (htimes : 0 < times)
    (h : -1 ≤ readFile dir DATABASE_PRELOAD_FILE) :
    preloadDatabaseAndRestart preload times above dir = countRestart DATABASE_PRELOAD_FILE times above dir := by
  simp only [preloadDatabaseAndRestart, countRestart, if_neg hon, if_neg htimes.ne', if_pos htimes]
  split_ifs with h0 h1 h2
  · rfl
  · rfl
  · rw [writeFile, removeFile, update_idem]
    rfl
  · omega

section Runs

variable {A O : Type} {again : O → Bool} {step : A → Dir → Dir × O} {dir' : Dir} {o : O} {above : A}
    (aboves : List A)

theorem run_stopped : run (restarted again step) aboves (dir, false) = ((dir, false), []) := by
  induction aboves with
  | nil => rfl
  | cons above aboves ih => simp [run, restarted, ih]

theorem run_restarted (h : step above dir = (dir', o)) (ho : again o = true) :
    run (restarted again step) (above :: aboves) (dir, true) =
      ((run (restarted again step) aboves (dir', true)).1,
        o :: (run (restarted again step) aboves (dir', true)).2) := by
  simp [run, restarted, h, ho]

theorem run_last (h : step above dir = (dir', o)) (ho : again o = false) :
    run (restarted again step) (above :: aboves) (dir, true) = ((dir', false), [o]) := by
  simp [run, restarted, h, ho, run_stopped]

end Runs

/-- The step of a mechanism that is on, and its counter file. -/
inductive Mechanism (N : ℕ) : (Bytes → Dir → Dir × Bool) → String → Prop
  | benchmarking : Mechanism N (restartAfterBechmarking N) RESTART_COUNTER
  | afterTime : Mechanism N (restartSystem N) RESTART_COUNTER2
  | preloading {preload : ℤ} :
      preload ≠ 0 → Mechanism N (preloadDatabaseAndRestart preload N) DATABASE_PRELOAD_FILE

variable {N : ℕ} {step : Bytes → Dir → Dir × Bool}

theorem Mechanism.eq (h : Mechanism N step file) (hN : 1 ≤ N) (hread : -1 ≤ readFile dir file) :
    step above dir = countRestart file N above dir := by
  cases h with
  | benchmarking => rfl
  | afterTime => rfl
  | preloading hon => exact preloadDatabaseAndRestart_eq hon (by omega) hread

-- Induction on the start-ups; the file holds how many of them restart.
theorem Mechanism.run_counted (hm : Mechanism N step file) (hN : 1 ≤ N) (h : dir file = none) {c : ℕ}
    (hc : c < 2 ^ 31) (aboves : List Bytes) (hlen : c < aboves.length) (a : Bytes) :
    run (restarted id step) aboves (writeFile a dir file c, true) =
      ((dir, false), replicate c true ++ [false]) := by
  induction aboves generalizing c a with
  | nil => exact absurd hlen (Nat.not_lt_zero c)
  | cons above aboves ih =>
    have hread := @readFile_writeFile dir file a c (by omega) (by omega)
    have hstep := @Mechanism.eq _ _ above N step hm hN (by rw [hread]; omega)
    cases c with
    | zero =>
      rw [Nat.cast_zero, countRestart_last (by omega) h] at hstep
      exact run_last aboves hstep rfl
    | succ c =>
      rw [countRestart_next (by omega) (by omega) (by omega), Nat.cast_succ, add_sub_cancel_right] at hstep
      rw [Nat.cast_succ, run_restarted aboves hstep rfl, ih (by omega) (Nat.lt_of_succ_lt_succ hlen)]
      rfl

/-- A mechanism whose counter file is not there restarts the server in the first `N` start-ups;
the next one is the last, and leaves the files as they were. -/
theorem restarts_counted (hm : Mechanism N step file) (hN : 1 ≤ N) (hmax : N < 2 ^ 31) (h : dir file = none)
    (aboves : List Bytes) (hlen : N < aboves.length) : run (restarted id step) aboves (dir, true) =
      ((dir, false), replicate N true ++ [false]) := by
  obtain ⟨M, rfl⟩ := Nat.exists_eq_add_of_le' hN
  cases aboves with
  | nil => exact absurd hlen (Nat.not_lt_zero _)
  | cons above aboves =>
    have hstep := @Mechanism.eq dir file above _ step hm hN (readFile_none h).ge
    rw [countRestart_first (by omega) h, Nat.cast_succ, add_sub_cancel_right] at hstep
    rw [run_restarted aboves hstep rfl, hm.run_counted hN h (by omega) aboves (Nat.lt_of_succ_lt_succ hlen)]
    rfl

theorem restarts_counted_twice : run (restarted id (restartSystem 2))
    (replicate 5 [0, 0, 0, 0]) (fun _ => none, true) = ((fun _ => none, false), [true, true, false]) :=
  restarts_counted (N := 2) .afterTime (by norm_num) (by norm_num) rfl _ (by simp)

/-! ### Timed restarts and a corrupted log -/

variable {corruption : ℤ}

def either (o : Bool × Bool) : Bool := o.1 || o.2

/-- `RESTART_COUNTER2` and `RESTART_COUNTER3` are one file: `corruptIndexedLog` takes the counter of
`restartSystem` for its own and removes it. -/
theorem startUp_disturbed (hcorrupt : 0 < corruption) (h0 : 1 ≤ times) (hmax : times < 2 ^ 31)
    (h : dir RESTART_COUNTER2 = none) (above : Bytes × Bytes) :
    startUp times corruption above dir = (dir, true, false) := by
  have hcount : restartSystem times above.1 dir = (writeFile above.1 dir RESTART_COUNTER3 (times - 1), true) :=
    countRestart_first (by omega) h
  have hread := @readFile_writeFile dir RESTART_COUNTER3 above.1 (times - 1) (by omega) (by omega)
  have hremove := @removeFile_writeFile dir RESTART_COUNTER3 above.1 (times - 1) h
  simp only [startUp, hcount, corruptIndexedLog, hcorrupt.ne', if_false, Bool.false_eq_true, hread, hremove,
    if_neg (show times - 1 ≠ -1 by omega)]

/-- From any files without the counter, every start-up restarts after a time and none because of the
corruption: neither mechanism ever counts to its end. -/
theorem start_ups_disturbed (hcorrupt : 0 < corruption) (h0 : 1 ≤ times) (hmax : times < 2 ^ 31)
    (h : dir RESTART_COUNTER2 = none) (aboves : List (Bytes × Bytes)) :
    run (restarted either (startUp times corruption)) aboves (dir, true) =
      ((dir, true), replicate aboves.length (true, false)) := by
  induction aboves with
  | nil => rfl
  | cons above aboves ih =>
    rw [run_restarted aboves (startUp_disturbed hcorrupt h0 hmax h above) rfl, ih]
    rfl

theorem start_ups_disturbed_twice : run (restarted either (startUp 2 30))
    (replicate 4 ([0, 0, 0, 0], [0, 0, 0, 0])) (fun _ => none, true) =
      ((fun _ => none, true), replicate 4 (true, false)) :=
  start_ups_disturbed (by norm_num) (by norm_num) (by norm_num) rfl _

/-- `N = 1`: three start-ups schedule three timed restarts, and none for the corruption. -/
theorem timed_restarts_never_end : run (restarted either (startUp 1 30))
    (replicate 3 ([0, 0, 0, 0], [0, 0, 0, 0])) (fun _ => none, true) =
      ((fun _ => none, true), [(true, false), (true, false), (true, false)]) := by
  have hstart := fun above => @startUp_disturbed (fun _ => none) 1 30 (by norm_num) le_rfl (by norm_num) rfl above
  simp [run, restarted, hstart, either, replicate]

end RedisIR.Restarts
