import RedisIR.Proofs.Agreement
import RedisIR.Proofs.Propagation
import RedisIR.Spec.Synchronous

/-! Synchronous indexing leaves the position alone, so the next start-up indexes the same
commands once more. It has applied `SET`s only, and each of their keys is overwritten when
the commands are indexed again. -/

namespace RedisIR

open CLib List

/-- The lines of a bulk string, without their line feeds. -/
def bulkLines (a : Bytes) : List Bytes := [36 :: natDecimal a.length ++ [CR], a ++ [CR]]

def Entry.lines (e : Entry) : List Bytes :=
  (42 :: natDecimal e.argv.length ++ [CR]) :: e.argv.flatMap bulkLines

def Entry.IsSet (e : Entry) : Prop := sdstoupper (e.argv.getD 0 []) = SET_COMMAND

instance (e : Entry) : Decidable e.IsSet := inferInstanceAs (Decidable (_ = _))

/-- The keys and values of the `SET`s of a buffer, in order. -/
def setPairs (E : List Entry) : List (CStr × CStr) :=
  (E.filter fun e => e.IsSet).map fun e => (cstr (e.argv.getD 1 []), cstr (e.argv.getD 2 []))

def notePair (ps : List (CStr × CStr)) (key value : CStr) : List (CStr × CStr) := ps ++ [(key, value)]

/-- The keys and values that the scan of a buffer indexes, in order. -/
def synchronousPairs (buf : Bytes) : Outcome (List (CStr × CStr)) :=
  let lines := sdssplitlen (cstr buf).val
  syncLoop notePair lines (lines.length + 1) 0 []

/-- The scan finds a line for the key of a command that `E` follow, and what it copies fits its
arrays. The key line of a command without a key is one of the next command. -/
def Entry.FitsScan (e : Entry) (E : List Entry) : Prop :=
  (if e.argv.length = 1 then E ≠ [] else (e.argv.getD 1 []).length + 1 < 50) ∧
    (e.IsSet → (e.argv.getD 2 []).length + 1 < 50)

instance (e : Entry) (E : List Entry) : Decidable (e.FitsScan E) := inferInstanceAs (Decidable (_ ∧ _))

/-- Every command fits the scan, which stops at an empty command word: no `SET` follows that. -/
def Scannable : List Entry → Prop
  | [] => True
  | e :: E => (e.argv.getD 0 []).length + 1 < 50 ∧
      if e.argv.getD 0 [] = [] then setPairs E = [] else e.FitsScan E ∧ Scannable E

instance decidableScannable : (E : List Entry) → Decidable (Scannable E)
  | [] => isTrue trivial
  | _ :: E =>
    have := decidableScannable E
    inferInstanceAs (Decidable (_ ∧ _))

def LogCmd.syncOp (c : LogCmd) : Option IndexOp :=
  match c.op with
  | .set k v => some (.replace (cstr k) (syncText (cstr k) (cstr v)))
  | _ => none

/-! ### The lines of a buffer -/

theorem splitOn_catBulks (args : List Bytes) (h : ∀ a ∈ args, a.length < 2 ^ 63) (hlf : ∀ a ∈ args, LF ∉ a)
    (rest : Bytes) : (args.flatMap catBulk ++ rest).splitOn LF = args.flatMap bulkLines ++ rest.splitOn LF := by
  induction args with
  | nil => rfl
  | cons a args ih =>
    have hline : LF ∉ a ++ [CR] := by simpa using ⟨hlf a (by simp), by decide⟩
    have htext : (a :: args).flatMap catBulk ++ rest =
        (36 :: natDecimal a.length ++ [CR]) ++ LF :: ((a ++ [CR]) ++ LF :: (args.flatMap catBulk ++ rest)) := by
      rw [flatMap_cons, catBulk_eq (h a (by simp))]
      simp [lenLine]
    rw [htext, splitOn_append_cons_self_of_not_mem (lf_not_mem_number (by decide) _),
      splitOn_append_cons_self_of_not_mem hline, ih (forall_mem_cons.mp h).2 (forall_mem_cons.mp hlf).2]
    rfl

variable (bufs : List (List LogCmd)) (c : LogCmd) (L : List LogCmd) (e : Entry) (E : List Entry)

theorem splitOn_entryBytes (hE : ∀ e ∈ E, ∀ a ∈ e.argv, Plain a) :
    (entryBytes E).splitOn LF = E.flatMap Entry.lines ++ [[]] := by
  induction E with
  | nil => rfl
  | cons e E ih =>
    have htext : entryBytes (e :: E) =
        (42 :: natDecimal e.argv.length ++ [CR]) ++ LF :: (e.argv.flatMap catBulk ++ entryBytes E) := by
      rw [entryBytes_cons, e.bytes_eq]
      simp [countLine]
    rw [htext, splitOn_append_cons_self_of_not_mem (lf_not_mem_number (by decide) _),
      splitOn_catBulks e.argv e.fits fun a ha => (hE e (by simp) a ha).1, ih (forall_mem_cons.mp hE).2]
    simp [Entry.lines]

/-! ### One command of a buffer -/

theorem chop_line (a : Bytes) : chop (a ++ [CR]) = if a.length + 1 < 50 then some a else none := by
  simp [chop]

theorem Entry.lines_length : e.lines.length = 2 * e.argv.length + 1 := by
  simp [Entry.lines, bulkLines, mul_comm]

theorem bulkLines_arg {args : List Bytes} {i : ℕ} {a : Bytes} (h : args[i]? = some a) :
    (args.flatMap bulkLines)[2 * i + 1]? = some (a ++ [CR]) := by
  induction args generalizing i with
  | nil => simp at h
  | cons b args ih =>
    cases i with
    | zero =>
      obtain rfl : b = a := by simpa using h
      rfl
    | succ i => exact ih h

theorem LogCmd.word_ne_nil : c.word ≠ [] := by
  intro hnil
  have hname : sdstoupper c.word = c.op.name := c.spelled
  rw [hnil] at hname
  have hne : c.op.name ≠ [] := by cases c.op <;> simp [Op.name] <;> decide +kernel
  exact hne hname.symm

/-- The line after the first of some commands. -/
theorem chop_second_ne_none_iff : (E.flatMap Entry.lines ++ [[]])[1]?.bind chop ≠ none ↔ E ≠ [] := by
  cases E with
  | nil => simp
  | cons e E =>
    obtain ⟨w, args, hargv⟩ := exists_cons_of_length_pos e.argc_pos
    have hw := e.fits w (by rw [hargv]; simp)
    have hdigits := natDecimal_length_le (n := w.length) (k := 19) (by omega) (by omega)
    have hline :
      (((e :: E).flatMap Entry.lines ++ [[]])[1]?).bind chop = chop ((36 :: natDecimal w.length) ++ [CR]) := by
      rw [flatMap_cons, Entry.lines, hargv]
      rfl
    rw [hline, chop_line, if_pos (by simp; omega)]
    simp

section Loop

variable {σ : Type} (index : σ → CStr → CStr → σ)

def Entry.scan (e : Entry) (s : σ) : σ :=
  if e.IsSet then index s (cstr (e.argv.getD 1 [])) (cstr (e.argv.getD 2 [])) else s

/-- One round of the loop, at a command that `E` follow. -/
theorem syncLoop_entry (hset : e.IsSet → 3 ≤ e.argv.length) (pre : List Bytes) (fuel : ℕ) (s : σ) :
    syncLoop index (pre ++ (e.lines ++ (E.flatMap Entry.lines ++ [[]]))) (fuel + 1) pre.length s =
      if 50 ≤ (e.argv.getD 0 []).length + 1 then .overflowed
      else if e.argv.getD 0 [] = [] then .returned s
      else if e.FitsScan E then
        syncLoop index (pre ++ (e.lines ++ (E.flatMap Entry.lines ++ [[]]))) fuel (pre ++ e.lines).length
          (e.scan index s)
      else .overflowed := by
  have hnextLine := chop_second_ne_none_iff E
  generalize E.flatMap Entry.lines ++ [[]] = post at hnextLine ⊢
  have hpos := e.argc_pos
  have hint := e.argc_int
  have hat : ∀ i, (pre ++ (e.lines ++ post))[pre.length + i]? = (e.lines ++ post)[i]? := by
    intro i
    rw [List.getElem?_append_right (by omega), Nat.add_sub_cancel_left]
  have harg : ∀ i, i < e.argv.length → (pre ++ (e.lines ++ post))[pre.length + (2 * i + 2)]?.bind chop =
      if (e.argv.getD i []).length + 1 < 50 then some (e.argv.getD i []) else none := by
    intro i hi
    have hline : e.lines[2 * i + 2]? = some (e.argv.getD i [] ++ [CR]) := bulkLines_arg (by simp [hi])
    rw [hat, List.getElem?_append_left (by rw [e.lines_length]; omega), hline]
    exact chop_line _
  obtain ⟨strAux, h0, hne, hlen, hargc⟩ : ∃ strAux, (pre ++ (e.lines ++ post))[pre.length]? = some strAux ∧
      strAux ≠ [] ∧ ¬ 50 ≤ strAux.length ∧ atoi strAux.tail = e.argv.length := by
    refine ⟨42 :: (natDecimal e.argv.length ++ [CR]), hat 0, by simp, ?_, ?_⟩
    · have := natDecimal_length_le (n := e.argv.length) (k := 10) (by omega) (by omega)
      simp
      omega
    · have hstop : Stops [CR] := by simp [Stops, CR, isdigit]
      rw [tail_cons, atoi, strtol_natDecimal (by omega) hstop, wrapInt_eq (by omega) (by omega)]
  have hnext : (pre ++ e.lines).length = pre.length + 2 * e.argv.length + 1 := by
    rw [length_append, e.lines_length, add_assoc]
  have hnn : ¬ (e.argv.length : ℤ) < 0 := by omega
  rw [hnext]
  simp only [syncLoop, h0, if_neg hne, if_neg hlen, harg 0 hpos, hargc]
  by_cases hword : (e.argv.getD 0 []).length + 1 < 50
  swap
  · rw [if_neg hword, if_pos (not_lt.mp hword)]
  rw [if_pos hword, if_neg (not_le.mpr hword)]
  by_cases hnil : e.argv.getD 0 [] = []
  · simp only [if_pos hnil]
  simp only [if_neg hnil]
  by_cases h1 : e.argv.length = 1
  · -- the scan reads on into the next command
    have hother : ¬ e.IsSet := fun h => by have := hset h; omega
    have hread : (pre ++ (e.lines ++ post))[pre.length + 4]?.bind chop = post[1]?.bind chop := by
      rw [hat, List.getElem?_append_right (by rw [e.lines_length]; omega), e.lines_length, h1]
    have hfits : e.FitsScan E ↔ E ≠ [] := by simp [Entry.FitsScan, h1, hother]
    rw [hread]
    cases hline : post[1]?.bind chop with
    | none => rw [if_neg fun h => hnextLine.mpr (hfits.mp h) hline]
    | some key =>
      rw [if_pos (hfits.mpr (hnextLine.mp (by simp [hline]))), Entry.scan, if_neg hother]
      simp only [if_neg hnn, if_neg (show ¬ sdstoupper (e.argv.getD 0 []) = SET_COMMAND from hother),
        Int.toNat_natCast]
  · have hfits : e.FitsScan E ↔ (e.argv.getD 1 []).length + 1 < 50 ∧
        (e.IsSet → (e.argv.getD 2 []).length + 1 < 50) := by rw [Entry.FitsScan, if_neg h1]
    rw [harg 1 (by omega)]
    by_cases hkey : (e.argv.getD 1 []).length + 1 < 50
    swap
    · rw [if_neg hkey, if_neg fun h => hkey (hfits.mp h).1]
    rw [if_pos hkey]
    simp only [if_neg hnn, Int.toNat_natCast]
    by_cases hcmd : e.IsSet
    · rw [if_pos (show sdstoupper (e.argv.getD 0 []) = SET_COMMAND from hcmd), harg 2 (hset hcmd), Entry.scan,
        if_pos hcmd]
      by_cases hvalue : (e.argv.getD 2 []).length + 1 < 50
      · rw [if_pos hvalue, if_pos (hfits.mpr ⟨hkey, fun _ => hvalue⟩)]
      · rw [if_neg hvalue, if_neg fun h => hvalue ((hfits.mp h).2 hcmd)]
    · rw [if_neg (show ¬ sdstoupper (e.argv.getD 0 []) = SET_COMMAND from hcmd),
        if_pos (hfits.mpr ⟨hkey, fun h => absurd h hcmd⟩), Entry.scan, if_neg hcmd]

/-- The loop indexes in order what it finds, whatever the index is. -/
theorem syncLoop_pairs (lines : List Bytes) (fuel k : ℕ) (ps : List (CStr × CStr)) (s : σ) :
    syncLoop index lines fuel k (ps.foldl (fun s p => index s p.1 p.2) s) =
      (syncLoop notePair lines fuel k ps).bind fun ps =>
        .returned (ps.foldl (fun s p => index s p.1 p.2) s) := by
  induction fuel generalizing k ps with
  | zero => rfl
  | succ fuel ih =>
    simp only [syncLoop]
    cases lines[k]? with
    | none => rfl
    | some strAux =>
      simp only
      split
      · rfl
      split
      · rfl
      cases lines[k + 2]?.bind chop with
      | none => rfl
      | some command =>
        simp only
        split
        · rfl
        cases lines[k + 4]?.bind chop with
        | none => rfl
        | some key =>
          simp only
          split
          · rfl
          split
          · cases lines[k + 6]?.bind chop with
            | none => rfl
            | some value =>
              simp only
              rw [← ih, notePair, foldl_append]
              rfl
          · exact ih _ _

end Loop

theorem setPairs_cons : setPairs (e :: E) = e.scan notePair [] ++ setPairs E := by
  rw [setPairs, filter_cons, Entry.scan]
  split_ifs with h h' h' <;> simp_all [setPairs, notePair]

theorem scan_append (ps : List (CStr × CStr)) :
    e.scan notePair ps =
      ps ++ e.scan notePair [] := by
  rw [Entry.scan, Entry.scan]
  split_ifs <;> simp [notePair]

theorem syncLoop_scannable_iff (hset : ∀ e ∈ E, e.IsSet → 3 ≤ e.argv.length) (pre : List Bytes) (fuel : ℕ)
    (hfuel : E.length < fuel) (ps : List (CStr × CStr)) :
    syncLoop notePair (pre ++ (E.flatMap Entry.lines ++ [[]])) fuel pre.length ps =
      .returned (ps ++ setPairs E) ↔ Scannable E := by
  induction E generalizing pre fuel ps with
  | nil =>
    obtain ⟨f, rfl⟩ : ∃ f, fuel = f + 1 := ⟨fuel - 1, by omega⟩
    simp [syncLoop, setPairs, Scannable]
  | cons e E ih =>
    obtain ⟨f, rfl⟩ : ∃ f, fuel = f + 1 := ⟨fuel - 1, by omega⟩
    have hstep := syncLoop_entry e E notePair (hset e (by simp)) pre f ps
    have hrest := ih (forall_mem_cons.mp hset).2 (pre ++ e.lines) f (by simpa using hfuel) (e.scan notePair ps)
    rw [append_assoc] at hrest
    rw [flatMap_cons, append_assoc, hstep, setPairs_cons, Scannable]
    by_cases hword : (e.argv.getD 0 []).length + 1 < 50
    swap
    · rw [if_pos (not_lt.mp hword)]
      exact iff_of_false nofun fun h => hword h.1
    rw [if_neg (not_le.mpr hword)]
    simp only [hword, true_and]
    by_cases hnil : e.argv.getD 0 [] = []
    · have hother : ¬ e.IsSet := fun h => absurd h (by rw [Entry.IsSet, hnil]; decide)
      rw [if_pos hnil, if_pos hnil, Entry.scan, if_neg hother, nil_append]
      simp
    · rw [if_neg hnil, if_neg hnil]
      by_cases hfits : e.FitsScan E
      · rw [scan_append, append_assoc] at hrest
        rw [if_pos hfits, scan_append, hrest]
        exact (and_iff_right hfits).symm
      · rw [if_neg hfits]
        exact iff_of_false nofun fun h => hfits h.1

/-! ### Buffers -/

theorem entryBytes_nul_free (hE : ∀ e ∈ E, ∀ a ∈ e.argv, Plain a) : (0 : UInt8) ∉ entryBytes E := by
  intro h
  obtain ⟨e, he, h⟩ := mem_flatMap.mp h
  rw [e.bytes_eq, mem_append] at h
  rcases h with h | h
  · exact nul_not_mem_countLine _ h
  · obtain ⟨a, ha, h⟩ := mem_flatMap.mp h
    rw [catBulk_eq (e.fits a ha)] at h
    exact nul_free_append (nul_free_append (nul_not_mem_lenLine _) (hE e he a ha).2) (by decide) h

theorem length_le_lines : E.length ≤ (E.flatMap Entry.lines).length := by
  induction E with
  | nil => simp
  | cons e E ih =>
    rw [flatMap_cons, length_append, length_cons, e.lines_length]
    omega

theorem synchronousPairs_iff (hE : ∀ e ∈ E, ∀ a ∈ e.argv, Plain a) (hset : ∀ e ∈ E, e.IsSet →
    3 ≤ e.argv.length) : synchronousPairs (entryBytes E) = .returned (setPairs E) ↔ Scannable E := by
  rw [synchronousPairs, cstr_val_of_nul_free (entryBytes_nul_free E hE), sdssplitlen]
  by_cases hnil : entryBytes E = []
  · obtain rfl := entryBytes_eq_nil hnil
    exact iff_of_true rfl trivial
  · have hlen : E.length < (E.flatMap Entry.lines ++ [[]]).length + 1 := by
      have := length_le_lines E
      rw [length_append]
      omega
    have hloop := syncLoop_scannable_iff E hset [] _ hlen []
    simp only [if_neg hnil, splitOn_entryBytes E hE]
    exact hloop

theorem synchronousIndexing_pairs (m : IndexedLog) (buf : Bytes) : synchronousIndexing (.ok m) buf =
    (synchronousPairs buf).bind fun ps => .returned (.ok (ps.foldl (fun m p => indexSet m p.1 p.2) m)) := by
  have hloop := syncLoop_pairs indexSet (sdssplitlen (cstr buf).val) ((sdssplitlen (cstr buf).val).length + 1) 0 [] m
  rw [foldl_nil] at hloop
  simp only [synchronousIndexing, DbFile.openW, hloop, synchronousPairs]
  cases syncLoop notePair (sdssplitlen (cstr buf).val)
    ((sdssplitlen (cstr buf).val).length + 1) 0 [] <;> rfl

/-- The scan of a buffer whose arguments have no line feed and no zero byte indexes exactly its `SET`s,
in order, if and only if the commands are `Scannable`; and the records then hold the keys and values of
the commands. -/
theorem synchronousIndexing_sets_iff (hE : ∀ e ∈ E, ∀ a ∈ e.argv, Plain a)
    (hset : ∀ e ∈ E, e.IsSet → 3 ≤ e.argv.length) :
    (synchronousPairs ((E.map Entry.argv).foldl catAppendOnlyGenericCommand []) = .returned (setPairs E) ↔
        Scannable E) ∧
      (Scannable E → ∀ m, synchronousIndexing (.ok m) ((E.map Entry.argv).foldl catAppendOnlyGenericCommand []) =
        .returned (.ok ((setPairs E).foldl (fun m p => indexSet m p.1 p.2) m))) ∧
      ∀ e ∈ E, e.IsSet → (cstr (e.argv.getD 1 [])).val = e.argv.getD 1 [] ∧ ∀ x,
        replayRecord x (syncText (cstr (e.argv.getD 1 [])) (cstr (e.argv.getD 2 []))) = e.argv.getD 2 [] := by
  have htext : (E.map Entry.argv).foldl catAppendOnlyGenericCommand [] = entryBytes E := by
    rw [foldl_catAppendOnly, nil_append, commandBytes, flatMap_map]
    rfl
  have hiff := synchronousPairs_iff E hE hset
  rw [htext]
  refine ⟨hiff, fun h m => by rw [synchronousIndexing_pairs, hiff.mpr h]; rfl, fun e he hcmd => ?_⟩
  have hplain : ∀ i < 3, Plain (e.argv.getD i []) := by
    intro i hi
    have := hset e he hcmd
    rw [getD_eq_getElem _ _ (by omega)]
    exact hE e he _ (getElem_mem _)
  obtain ⟨⟨hk, hk0⟩, hv, hv0⟩ := And.intro (hplain 1 (by omega)) (hplain 2 (by omega))
  have hkey := cstr_val_of_nul_free hk0
  have hval := cstr_val_of_nul_free hv0
  exact ⟨hkey, fun x => (replayRecord_setText (by rwa [hkey]) _ _ x).trans
    ((firstLine_eq (by rwa [hval])).trans hval)⟩


def flushallEntry : Entry := entryOf [ascii ['F', 'L', 'U', 'S', 'H', 'A', 'L', 'L']] (by decide)

/-- A `FLUSHALL` before the `SET` of a counter. -/
theorem synchronousIndexing_sets_flushall :
    synchronousPairs (([flushallEntry, setCounter.entry].map Entry.argv).foldl catAppendOnlyGenericCommand []) =
      .returned [(cstr (ascii ['n']), cstr (ascii ['9']))] := by
  have hE : ∀ e ∈ [flushallEntry, setCounter.entry], ∀ a ∈ e.argv, Plain a := by decide
  have hset : ∀ e ∈ [flushallEntry, setCounter.entry], e.IsSet → 3 ≤ e.argv.length := by decide
  exact (synchronousIndexing_sets_iff _ hE hset).1.mpr (by decide)

/-- At the end of a buffer, the scan looks for the key of `FLUSHALL` behind the last line. -/
theorem synchronousIndexing_flushall_overflows :
    synchronousIndexing (.ok Multimap.empty) (([flushallEntry].map Entry.argv).foldl catAppendOnlyGenericCommand []) =
      .overflowed := rfl

/-! ### Commands of the log -/

theorem LogCmd.plain_entry (hc : ∀ a ∈ c.op.args, FitsSync a) : ∀ a ∈ c.entry.argv, Plain a := by
  intro a ha
  rcases mem_cons.mp ha with rfl | ha
  · exact ⟨c.word_lf_free, c.word_nul_free⟩
  · exact (hc a ha).1

theorem LogCmd.isSet_entry : c.entry.IsSet ↔ ∃ k v, c.op = .set k v := by
  have hcmd : sdstoupper (c.entry.argv.getD 0 []) = c.op.name := c.spelled
  rw [Entry.IsSet, hcmd]
  cases hop : c.op <;> simp [Op.name] <;> decide

theorem LogCmd.three_le_argc (h : c.entry.IsSet) : 3 ≤ c.entry.argv.length := by
  obtain ⟨k, v, hop⟩ := c.isSet_entry.mp h
  simp [LogCmd.entry_argv, LogCmd.argv, hop, Op.args]

theorem scannable_entries (hL : ∀ c ∈ L, ∀ a ∈ c.op.args, FitsSync a) : Scannable (L.map LogCmd.entry) := by
  induction L with
  | nil => trivial
  | cons c L ih =>
    have hkeyed : 2 ≤ c.entry.argv.length := c.keyed
    have hfits : ∀ i, 0 < i → i < c.entry.argv.length → (c.entry.argv.getD i []).length + 1 < 50 := by
      intro i hpos hi
      obtain ⟨i, rfl⟩ : ∃ j, i = j + 1 := ⟨i - 1, by omega⟩
      have harg : c.entry.argv.getD (i + 1) [] ∈ c.op.args := by
        rw [getD_eq_getElem _ _ hi]
        exact getElem_mem (l := c.op.args) (by simpa [LogCmd.entry_argv, LogCmd.argv] using hi)
      exact (hL c (by simp) _ harg).2
    refine ⟨?_, ?_⟩
    · have := c.word_length
      change c.word.length + 1 < 50
      omega
    · rw [if_neg (show c.entry.argv.getD 0 [] ≠ [] from c.word_ne_nil)]
      refine ⟨?_, ih (forall_mem_cons.mp hL).2⟩
      rw [Entry.FitsScan, if_neg (by omega)]
      exact ⟨hfits 1 Nat.one_pos (by omega), fun h => hfits 2 (by omega) (c.three_le_argc h)⟩

theorem synchronousPairs_aofBytes (hL : ∀ c ∈ L, ∀ a ∈ c.op.args, FitsSync a) :
    synchronousPairs (aofBytes L) = .returned (setPairs (L.map LogCmd.entry)) := by
  rw [aofBytes_entry]
  refine (synchronousPairs_iff _ ?_ ?_).mpr (scannable_entries L hL)
  · intro e he
    obtain ⟨c, hc, rfl⟩ := mem_map.mp he
    exact c.plain_entry (hL c hc)
  · intro e he
    obtain ⟨c, -, rfl⟩ := mem_map.mp he
    exact c.three_le_argc

theorem foldl_setPairs (m : IndexedLog) : (setPairs (L.map LogCmd.entry)).foldl (fun m p => indexSet m p.1 p.2) m =
    (L.map LogCmd.syncOp).foldl applyRecord m := by
  induction L generalizing m with
  | nil => rfl
  | cons c L ih =>
    have hhead : (c.entry.scan notePair []).foldl (fun m p => indexSet m p.1 p.2) m = applyRecord m c.syncOp := by
      by_cases h : c.entry.IsSet
      · obtain ⟨k, v, hop⟩ := c.isSet_entry.mp h
        simp [Entry.scan, h, notePair, LogCmd.syncOp, hop, LogCmd.entry_argv, LogCmd.argv, Op.args, indexSet,
          applyRecord]
      · have hop : c.syncOp = none := by
          rw [LogCmd.syncOp]
          split
          · next k v hop => exact absurd (c.isSet_entry.mpr ⟨k, v, hop⟩) h
          · rfl
        rw [Entry.scan, if_neg h, hop]
        rfl
    rw [map_cons, setPairs_cons, foldl_append, hhead, ih]
    rfl

theorem synchronousIndexing_aofBytes (hL : ∀ c ∈ L, ∀ a ∈ c.op.args, FitsSync a) (m : IndexedLog) :
    synchronousIndexing (.ok m) (aofBytes L) = .returned (.ok ((L.map LogCmd.syncOp).foldl applyRecord m)) := by
  rw [synchronousIndexing_pairs, synchronousPairs_aofBytes L hL, Outcome.bind_returned, foldl_setPairs]

theorem synchronousRun_aofBytes (hL : ∀ c ∈ bufs.flatten, ∀ a ∈ c.op.args, FitsSync a)
    (m : IndexedLog) : synchronousRun (bufs.map aofBytes) (.ok m) =
      .returned (.ok ((bufs.flatten.map LogCmd.syncOp).foldl applyRecord m)) := by
  induction bufs generalizing m with
  | nil => rfl
  | cons L bufs ih =>
    rw [flatten_cons] at hL
    rw [map_cons, synchronousRun, synchronousIndexing_aofBytes L fun c hc => hL c (by simp [hc])]
    simp only [flatten_cons, map_append, foldl_append]
    exact ih (fun c hc => hL c (by simp [hc])) _

/-! ### Indexing the same commands again -/

/-- The command sets `k`. -/
def LogCmd.Sets (c : LogCmd) (k : CStr) : Prop := ∃ b v, c.op = .set b v ∧ cstr b = k

theorem get_applyRecord_of_not_sets {c : LogCmd} {k : CStr} (h : ¬ c.Sets k) (m : IndexedLog) :
    (applyRecord m c.syncOp).get k = m.get k := by
  unfold LogCmd.syncOp
  split
  · next b v hop => exact (get_replace m _ _ k).trans (if_neg fun hb => h ⟨b, v, hop, hb⟩)
  · rfl

theorem get_syncOps {k : CStr} (hk : ∀ c ∈ L, ¬ c.Sets k) (m : IndexedLog) :
    ((L.map LogCmd.syncOp).foldl applyRecord m).get k = m.get k := by
  induction L generalizing m with
  | nil => rfl
  | cons c L ih =>
    rw [map_cons, foldl_cons, ih (forall_mem_cons.mp hk).2, get_applyRecord_of_not_sets (hk c (by simp))]

/-- The two passes together give every key the value of the start-up pass alone. -/
theorem synchronous_then_startup (hB : ∀ c ∈ bufs.flatten, ∀ a ∈ c.op.args, FitsSync a)
    {A : List LogCmd} {files : Files} (haof : files.aof = aofBytes (A ++ bufs.flatten))
    (hseek : files.finalLogSeek = some ((aofBytes A).length : ℤ)) {I : IndexedLog} (hI : files.indexedLog = .ok I)
    (replicated : Bool) :
    ∃ J r₁ r₂ idx₁ idx₂, synchronousRun (bufs.map aofBytes) (.ok I) = .returned (.ok J) ∧
      initialIndexesSequentialLogToIndexedLog { files with indexedLog := .ok J } replicated = .returned r₁ ∧
      r₁.result.files.indexedLog = .ok idx₁ ∧ initialIndexesSequentialLogToIndexedLog files replicated =
        .returned r₂ ∧
      r₂.result.files.indexedLog = .ok idx₂ ∧ ∀ k, view idx₁ k = view idx₂ k := by
  have hstart : ∀ m, chooseStart { files with indexedLog := .ok m } replicated =
      ⟨(aofBytes A).length, { files with indexedLog := .ok m }, replicated⟩ := fun m =>
    chooseStart_ok _ replicated hseek rfl
  have hrun : ∀ m, ∃ r, initialIndexesSequentialLogToIndexedLog { files with indexedLog := .ok m }
      replicated = .returned r ∧
      r.result.files.indexedLog = .ok (indexRecords m bufs.flatten) := by
    intro m
    have hpos : (chooseStart { files with indexedLog := .ok m } replicated).seek = (aofBytes A).length := by rw [hstart]
    have hopen : (chooseStart { files with indexedLog := .ok m } replicated).files.indexedLog.openW = some m := by
      rw [hstart]
      rfl
    have haof' : { files with indexedLog := .ok m }.aof = aofBytes (A ++ bufs.flatten) := haof
    obtain ⟨r, hr, hidx, -⟩ := initialIndexes_boundary haof' hpos hopen
    exact ⟨r, hr, hidx⟩
  obtain ⟨r₁, hr₁, hidx₁⟩ := hrun ((bufs.flatten.map LogCmd.syncOp).foldl applyRecord I)
  obtain ⟨r₂, hr₂, hidx₂⟩ := hrun I
  have hfiles : { files with indexedLog := .ok I } = files := by rw [← hI]
  rw [hfiles] at hr₂
  refine ⟨_, r₁, r₂, _, _, synchronousRun_aofBytes bufs hB I, hr₁, hidx₁, hr₂, hidx₂, fun k => ?_⟩
  rw [view_indexRecords_apply, view_indexRecords_apply]
  by_cases hset : ∃ c ∈ bufs.flatten, c.Sets k
  · -- a `SET` of the key forgets what was there
    obtain ⟨c, hc, b, v, hop, hb⟩ := hset
    refine recordSem.fold_eq_of_overwrites ⟨c, hc, ?_, fun x y => ?_⟩ _ _
    · simp [recordSem, hop, hb]
    · simp [recordSem, hop]
  · rw [view, get_syncOps _ fun c hc hk => hset ⟨c, hc, hk⟩, view]

/-- The two commands of a counter, written in two buffers. -/
theorem synchronous_then_startup_counter : ∃ J r₁ r₂ idx₁ idx₂,
      synchronousRun ([[setCounter], [incrCounter]].map aofBytes) (.ok Multimap.empty) = .returned (.ok J) ∧
      initialIndexesSequentialLogToIndexedLog { freshFiles [setCounter, incrCounter] with indexedLog := .ok J } false =
        .returned r₁ ∧ r₁.result.files.indexedLog = .ok idx₁ ∧
      initialIndexesSequentialLogToIndexedLog (freshFiles [setCounter, incrCounter]) false = .returned r₂ ∧
      r₂.result.files.indexedLog = .ok idx₂ ∧ ∀ k, view idx₁ k = view idx₂ k := by
  have haof : (freshFiles [setCounter, incrCounter]).aof = aofBytes ([] ++ [[setCounter], [incrCounter]].flatten) := rfl
  exact synchronous_then_startup [[setCounter], [incrCounter]] (by decide) haof rfl rfl false

end RedisIR
