import RedisIR.Proofs.Equivalence
import RedisIR.Proofs.Torn

/-! Start-up after a crash that has cut the sequential log. The start-up indexer returns
exactly when the cut is between two commands: inside a command its reads fail, and every
failed read ends the process. -/

namespace RedisIR

open CLib List

variable {p : Bytes}

/-! ### A torn command -/

theorem initialArgs_torn (args : List Bytes) (h : ∀ a ∈ args, a.length < 2 ^ 63) (j : ℕ)
    (hp : Torn p (args.flatMap catBulk)) (q : Parse) : initialArgs args.length j p q = .error (.readerr true) := by
  induction args generalizing j p q with
  | nil => exact absurd hp.length_lt (by simp)
  | cons a args ih =>
    rw [flatMap_cons] at hp
    rw [length_cons]
    rcases torn_append_cases hp with ha | ⟨p, rfl, hq⟩
    · simp [initialArgs, readBulk_torn (h a (by simp)) ha]
    · rw [initialArgs_catBulk (h a (by simp))]
      exact ih (forall_mem_cons.mp h).2 (j + 1) hq _

theorem initialLoop_torn (e : Entry) (hp : Torn p e.bytes) (hne : p ≠ []) (fuel : ℕ) (q : Parse)
    (recs : List (Option IndexOp)) : initialLoop (fuel + 1) p q recs = .exited := by
  rw [e.bytes_eq] at hp
  rcases torn_append_cases hp with hline | ⟨p, rfl, hargs⟩
  · rcases readHeader_torn e.argc_pos e.argc_int hline hne with herr | ⟨buf, argc, hok⟩
    · simp [initialLoop, if_neg hne, herr]
    · simp [initialLoop, if_neg hne, hok, initialArgs, readBulk, readArg_nil]
  · simp only [initialLoop, if_neg hne, readHeader_countLine e.argc_pos e.argc_int,
      initialArgs_torn e.argv e.fits 0 hargs]

theorem initialIndexes_torn {files : Files} {replicated : Bool} {B : List Entry} (hB : ∀ e ∈ B, e.Keyed)
    {dbp : IndexedLog} {e : Entry} (hp : Torn p e.bytes) (hne : p ≠ [])
    (hread : fseek files.aof (chooseStart files replicated).seek = entryBytes B ++ p)
    (hopen : (chooseStart files replicated).files.indexedLog.openW = some dbp) :
    initialIndexesSequentialLogToIndexedLog files replicated = .exited := by
  have hlen : (entryBytes B ++ p).length ≤ files.aof.length := by
    rw [← hread, fseek, length_drop]
    omega
  have hpos := length_pos_of_ne_nil hne
  rw [length_append] at hlen
  have haof : files.aof ≠ [] := ne_nil_of_length_pos (by omega)
  obtain ⟨fuel, hfuel⟩ : ∃ fuel, files.aof.length + 1 = B.length + (fuel + 1) := by
    have := length_le_entryBytes B
    exact ⟨files.aof.length - B.length, by omega⟩
  obtain ⟨q, -, hloop⟩ := initialLoop_entries B hB (fuel + 1) p
    ⟨(chooseStart files replicated).seek, [], [], cstr []⟩ []
  rw [initialLoop_torn e hp hne] at hloop
  simp [initialIndexesSequentialLogToIndexedLog, hopen, if_neg haof, hread, hfuel, hloop]

/-! ### The whole commands of a cut log -/

/-- `n` is the end of a command of the log, or its beginning. -/
def AtEnd (E : List Entry) (n : ℕ) : Prop := ∃ m, n = (entryBytes (E.take m)).length

theorem completeIn_length_eq_iff (n : ℕ) (E : List Entry) :
    (entryBytes (completeIn n E)).length = n ↔ AtEnd E n := by
  refine ⟨?_, ?_⟩
  · intro h
    exact ⟨(completeIn n E).length, by rw [← prefix_iff_eq_take.mp (completeIn_initial n E), h]⟩
  · rintro ⟨m, rfl⟩
    have h := completeIn_append (le_refl (entryBytes (E.take m)).length) (E.drop m)
    rw [take_append_drop, Nat.sub_self, completeIn_zero, append_nil] at h
    rw [h]

/-! ### Start-up -/

/-- The process does not exit, and it leaves the indexed log and the position of the
commands that are whole in the first `n` bytes of the log. -/
def RestartsWhole (E : List Entry) (n : ℕ) (out : Outcome InitialRun) : Prop :=
  ∃ r idx, out = .returned r ∧ r.result.files.indexedLog = .ok idx ∧
    (∀ k, view idx k = view (indexEntries Multimap.empty (completeIn n E)) k) ∧
    r.result.files.finalLogSeek = some ((entryBytes (completeIn n E)).length : ℤ)

section

variable {A B : List Entry} {n : ℕ} {files : Files} {replicated : Bool} {dbp : IndexedLog}
  (hkeyed : ∀ e ∈ A ++ B, e.Keyed) (hn : n ≤ (entryBytes (A ++ B)).length)
  (haof : files.aof = (entryBytes (A ++ B)).take n)
  (hseek : (chooseStart files replicated).seek = (entryBytes A).length)
  (hopen : (chooseStart files replicated).files.indexedLog.openW = some dbp)
  (hdbp : ∀ k, view dbp k = view (indexEntries Multimap.empty A) k)

include hkeyed hn haof hseek hopen hdbp

theorem restart_of_le (hle : (entryBytes A).length ≤ n) :
    RestartsWhole (A ++ B) n (initialIndexesSequentialLogToIndexedLog files replicated) ↔ AtEnd (A ++ B) n := by
  have hread :
    fseek files.aof (chooseStart files replicated).seek = (entryBytes B).take (n - (entryBytes A).length) := by
    rw [haof, hseek, fseek, Int.toNat_natCast, entryBytes_append, take_append, take_of_length_le hle,
      drop_left]
  obtain ⟨p, htake, hp⟩ := take_entryBytes (n - (entryBytes A).length) B
  rw [htake] at hread
  have hB : ∀ e ∈ completeIn (n - (entryBytes A).length) B, e.Keyed := fun e he =>
    hkeyed e (mem_append_right A ((completeIn_initial _ B).subset he))
  have hlen : n = (entryBytes A).length + ((entryBytes (completeIn (n - (entryBytes A).length) B)).length +
    p.length) := by
    have h := congrArg List.length htake
    rw [length_take, length_append] at h
    rw [entryBytes_append, length_append] at hn
    omega
  have hwhole := completeIn_append hle B
  by_cases hnil : p = []
  · subst hnil
    rw [append_nil] at hread
    obtain ⟨r, hrun, hidx, hpos⟩ := initialIndexes_result hB hread hopen
    refine iff_of_true ⟨r, _, hrun, hidx, fun k => ?_, ?_⟩ ?_
    · rw [hwhole, indexEntries, indexEntries, map_append, foldl_append]
      exact view_foldl_congr hdbp _ k
    · rw [hpos, hwhole, entryBytes_append, length_append, hseek, Nat.cast_add]
      split_ifs with hempty
      · have hlen0 : n = 0 := by
          have h := congrArg List.length (haof.symm.trans hempty)
          rw [length_take] at h
          simp only [length_nil] at h
          omega
        exact congrArg some (by omega)
      · rfl
    · rw [← completeIn_length_eq_iff, hwhole, entryBytes_append, length_append]
      simp only [length_nil] at hlen
      omega
  · obtain ⟨e, -, -, htorn⟩ := hp.resolve_left hnil
    have hexit := initialIndexes_torn hB htorn hnil hread hopen
    refine iff_of_false ?_ ?_
    · rintro ⟨r, idx, hrun, -⟩
      rw [hexit] at hrun
      cases hrun
    · rw [← completeIn_length_eq_iff, hwhole, entryBytes_append, length_append]
      have := length_pos_of_ne_nil hnil
      omega

omit hkeyed hn in
/-- The log is cut before that position. Only the removal of the whole log is noticed. -/
theorem restart_of_lt (hlt : n < (entryBytes A).length) :
    RestartsWhole (A ++ B) n (initialIndexesSequentialLogToIndexedLog files replicated) ↔
      n = 0 ∧ ∀ k, view (indexEntries Multimap.empty A) k = none := by
  have hlen : files.aof.length = n := by
    rw [haof, length_take, entryBytes_append, length_append]
    omega
  have hread : fseek files.aof (chooseStart files replicated).seek = entryBytes [] := by
    rw [hseek, fseek, Int.toNat_natCast]
    exact drop_eq_nil_of_le (by omega)
  obtain ⟨r, hrun, hidx, hpos⟩ := initialIndexes_result (by simp) hread hopen
  rw [hrun]
  by_cases h0 : n = 0
  · subst h0
    have hempty : files.aof = [] := eq_nil_of_length_eq_zero hlen
    rw [if_pos hempty] at hpos
    rw [RestartsWhole, completeIn_zero]
    refine ⟨?_, ?_⟩
    · intro h
      obtain ⟨r', idx, hr, hidx', hview, _⟩ := h
      obtain rfl := Outcome.returned.inj hr
      obtain rfl := DbFile.ok.inj (hidx.symm.trans hidx')
      exact ⟨rfl, fun k => (hdbp k).symm.trans (hview k)⟩
    · intro h
      exact ⟨r, _, rfl, hidx, fun k => (hdbp k).trans (h.2 k), hpos⟩
  · refine iff_of_false ?_ fun h => h0 h.1
    intro h
    obtain ⟨r', idx, hr, _, _, hpos'⟩ := h
    obtain rfl := Outcome.returned.inj hr
    have hne : files.aof ≠ [] := ne_nil_of_length_pos (by omega)
    have hle := completeIn_length_le n (A ++ B)
    rw [hpos, if_neg hne, hseek] at hpos'
    have := Option.some.inj hpos'
    simp only [entryBytes, flatMap_nil, length_nil] at this hle hlt
    omega

/-- A start-up on the first `n` bytes of a log returns with the commands that are whole in
them exactly when the cut is at the end of a command, and not before the commands that had
been indexed earlier; a log of which nothing is left needs that these left no key. -/
theorem torn_restart_iff :
    RestartsWhole (A ++ B) n (initialIndexesSequentialLogToIndexedLog files replicated) ↔
      ((entryBytes A).length ≤ n ∧ AtEnd (A ++ B) n) ∨
        (n < (entryBytes A).length ∧ n = 0 ∧ ∀ k, view (indexEntries Multimap.empty A) k = none) := by
  by_cases hle : (entryBytes A).length ≤ n
  · rw [restart_of_le hkeyed hn haof hseek hopen hdbp hle]
    simp [hle]
  · rw [restart_of_lt haof hseek hopen hdbp (by omega)]
    simp [hle, not_le.mp hle]

end

/-- The log of a first start, of which the first `n` bytes are left. -/
def cutFiles (n : ℕ) : Files := { freshFiles counterLog with aof := (aofBytes counterLog).take n }

theorem torn_restart_after_set : RestartsWhole ([] ++ counterLog.map LogCmd.entry) 27
      (initialIndexesSequentialLogToIndexedLog (cutFiles 27) false) :=
  (torn_restart_iff (keyed_entries counterLog) (by decide +kernel) (by rw [nil_append, ← aofBytes_entry]; rfl)
    rfl rfl fun _ => rfl).mpr (.inl ⟨by decide, 1, by decide +kernel⟩)

/-- A log that ends inside its first command: the process exits. -/
theorem torn_restart_exits : initialIndexesSequentialLogToIndexedLog (cutFiles 26) false = .exited ∧
      ¬ RestartsWhole (counterLog.map LogCmd.entry) 26
        (initialIndexesSequentialLogToIndexedLog (cutFiles 26) false) := by
  have htorn : Torn ((aofBytes counterLog).take 26) setCounter.entry.bytes := by
    have htake : (aofBytes counterLog).take 26 = setCounter.entry.bytes.take 26 := by decide +kernel
    rw [htake]
    exact ⟨List.take_prefix _ _, by decide +kernel⟩
  have hexit : initialIndexesSequentialLogToIndexedLog (cutFiles 26) false = .exited :=
    initialIndexes_torn (B := []) (by simp) htorn (by decide +kernel) rfl rfl
  refine ⟨hexit, ?_⟩
  rintro ⟨r, idx, hrun, -⟩
  rw [hexit] at hrun
  cases hrun

end RedisIR
