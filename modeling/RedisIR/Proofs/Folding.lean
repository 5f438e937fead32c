import RedisIR.Proofs.IndexedLog

/-! The indexed log refines a keyed log: adding a record to the store is, on the values
the loaders fold from it, one operation on one key. -/

namespace RedisIR

open CLib List

variable {k v : Bytes}

theorem foldedValue_concat (records : List CStr) (data : CStr) :
    foldedValue (records ++ [data]) = some (replayRecord ((foldedValue records).getD zeroText) data) := by
  unfold foldedValue
  by_cases h : records = []
  · subst h
    simp
  · simp [h]

/-- What the text of a command's record means to the loaders, in the key's C string. -/
def recordSem : KeyedLog.Sem CStr Bytes LogCmd where
  key c :=
    match c.op with
    | .set k _ => some (cstr k)
    | .incr k => some (cstr k)
    | .del k => some (cstr k)
    | _ => none
  act c x :=
    match c.op with
    | .set _ _ => some ((sdssplitlen c.record.val).getD 6 [])
    | .incr _ => some (incrText x)
    | .del _ => none
    | _ => x

/-! ### The lines of a record -/

theorem sdssplitlen_line {l : Bytes} (h : LF ∉ l) (rest : Bytes) :
    sdssplitlen (l ++ LF :: rest) = l :: rest.splitOn LF := by
  rw [sdssplitlen, if_neg (by simp), splitOn_append_cons_self_of_not_mem h]

theorem record_lines {w : Bytes} (hnul : (0 : UInt8) ∉ w) (hlf : LF ∉ w) {args : List Bytes} (hargs : args ≠ [])
    (n : ℕ) : sdssplitlen (cstr (countLine n ++ joinArgs (w :: args))).val =
      (42 :: natDecimal n ++ [CR]) :: (36 :: natDecimal w.length ++ [CR]) :: w ::
        (cstr (joinArgs args)).val.splitOn LF := by
  have hfree : (0 : UInt8) ∉ countLine n ++ (lenLine w.length ++ w ++ [LF]) := by
    refine nul_free_append (nul_not_mem_countLine _) ?_
    exact nul_free_append (nul_free_append (nul_not_mem_lenLine _) hnul) (by decide)
  have htext : (cstr (countLine n ++ joinArgs (w :: args))).val =
      (42 :: natDecimal n ++ [CR]) ++ LF :: ((36 :: natDecimal w.length ++ [CR]) ++
        LF :: (w ++ LF :: (cstr (joinArgs args)).val)) := by
    rw [joinArgs_cons, if_neg (by simpa using hargs), ← append_assoc, cstr_append_val hfree]
    simp [countLine, lenLine]
  rw [htext, sdssplitlen_line (lf_not_mem_number (by decide) _),
    splitOn_append_cons_self_of_not_mem (lf_not_mem_number (by decide) _),
    splitOn_append_cons_self_of_not_mem hlf]

variable (m : IndexedLog) (c : LogCmd) (L : List LogCmd)

theorem LogCmd.record_lines : sdssplitlen c.record.val =
      (42 :: natDecimal c.argv.length ++ [CR]) :: (36 :: natDecimal c.word.length ++ [CR]) :: c.word ::
        (cstr (joinArgs c.op.args)).val.splitOn LF :=
  RedisIR.record_lines c.word_nul_free c.word_lf_free (by rw [c.op.args_eq]; simp) c.argv.length

theorem recordCommand_record : recordCommand c.record = c.op.name := by
  rw [recordCommand, c.record_lines]
  exact c.spelled

/-- The line that the loaders take for the value of a `SET` of a key without zero bytes:
the lines of the key come first, then the length line and the lines of the value. -/
def valueLine (key value : Bytes) : Bytes :=
  (key.splitOn LF ++ (36 :: natDecimal value.length ++ [CR]) :: (cstr value).val.splitOn LF).getD 2 []

theorem LogCmd.record_valueLine (hop : c.op = .set k v) (hk : (0 : UInt8) ∉ k) :
    (sdssplitlen c.record.val).getD 6 [] = valueLine k v := by
  have hfree : (0 : UInt8) ∉ lenLine k.length ++ k ++ [LF] ++ lenLine v.length :=
    nul_free_append (nul_free_append (nul_free_append (nul_not_mem_lenLine _) hk) (by decide)) (nul_not_mem_lenLine _)
  have htext : joinArgs [k, v] = (lenLine k.length ++ k ++ [LF] ++ lenLine v.length) ++ v := by
    simp [joinArgs, intercalate]
  have hlines : lenLine k.length ++ k ++ [LF] ++ lenLine v.length ++ (cstr v).val =
      (36 :: natDecimal k.length ++ [CR]) ++ LF :: (k ++ LF :: ((36 :: natDecimal v.length ++ [CR]) ++
        LF :: (cstr v).val)) := by
    simp [lenLine]
  rw [c.record_lines, hop, Op.args, htext, cstr_append_val hfree, hlines,
    splitOn_append_cons_self_of_not_mem (lf_not_mem_number (by decide) _), splitOn_append_cons_self,
    splitOn_append_cons_self_of_not_mem (lf_not_mem_number (by decide) _)]
  rfl

theorem valueLine_plain (hk : LF ∉ k) (hv : Plain v) : valueLine k v = v := by
  rw [valueLine, cstr_val_of_nul_free hv.2, splitOn_eq_singleton hk, splitOn_eq_singleton hv.1]
  rfl

/-- A `SET` record without line feeds and zero bytes gives its value back. -/
theorem LogCmd.record_value (hop : c.op = .set k v) (hk : Plain k) (hv : Plain v) :
    (sdssplitlen c.record.val).getD 6 [] = v := by
  rw [c.record_valueLine hop hk.2, valueLine_plain hk.1 hv]

/-! ### The refinement -/

theorem replayRecord_set (hop : c.op = .set k v) (x : Bytes) :
    replayRecord x c.record = (sdssplitlen c.record.val).getD 6 [] := by
  have hname : c.op.name = SET_COMMAND := by rw [hop]; rfl
  rw [replayRecord, recordCommand_record, if_pos hname]

theorem replayRecord_incr (hop : c.op = .incr k) (x : Bytes) : replayRecord x c.record = incrText (some x) := by
  have hname : c.op.name = INCR_COMMAND := by rw [hop]; rfl
  rw [replayRecord, recordCommand_record, hname, if_neg (by decide), if_pos rfl]

theorem incrText_getD (x : Option Bytes) : incrText (some (x.getD zeroText)) = incrText x := rfl

/-! The three operations on the store, seen through the value of a key. -/

theorem view_add (key data k : CStr) : view (IndexOp.apply m (.add key data)) k =
      if key = k then some (replayRecord ((view m k).getD zeroText) data) else view m k := by
  simp only [IndexOp.apply, addRecordIndexedLog, view, Multimap.get_put]
  split_ifs with h
  · rw [foldedValue_concat]
  · rfl

theorem view_remove (key k : CStr) : view (IndexOp.apply m (.remove key)) k = if key = k then none else view m k := by
  simp only [IndexOp.apply, delRecordIndexdLog, view, Multimap.get_del]
  split_ifs <;> rfl

theorem view_replace (key data k : CStr) : view (IndexOp.apply m (.replace key data)) k =
      if key = k then some (replayRecord zeroText data) else view m k := by
  have hremove := view_remove m key k
  have hadd := view_add (IndexOp.apply m (.remove key)) key data k
  rw [hremove] at hadd
  rw [show IndexOp.apply m (.replace key data) = IndexOp.apply (IndexOp.apply m (.remove key)) (.add key data) from rfl,
    hadd]
  split_ifs <;> rfl

theorem view_applyRecord_congr {m m' : IndexedLog} (h : ∀ k, view m k = view m' k) (o : Option IndexOp) (k : CStr) :
    view (applyRecord m o) k = view (applyRecord m' o) k := by
  cases o with
  | none => exact h k
  | some o =>
    cases o with
    | replace key data => exact (view_replace m key data k).trans (h k ▸ (view_replace m' key data k).symm)
    | add key data => exact (view_add m key data k).trans (h k ▸ (view_add m' key data k).symm)
    | remove key => exact (view_remove m key k).trans (h k ▸ (view_remove m' key k).symm)

theorem view_foldl_congr {m m' : IndexedLog} (h : ∀ k, view m k = view m' k) (os : List (Option IndexOp)) (k : CStr) :
    view (os.foldl applyRecord m) k = view (os.foldl applyRecord m') k := by
  induction os generalizing m m' with
  | nil => exact h k
  | cons o os ih => exact ih (view_applyRecord_congr h o)

/-- One command through the start-up indexer, seen through the values of all keys. -/
theorem view_applyRecord : view (applyRecord m c.indexOp) = recordSem.step (view m) c := by
  funext k
  obtain ⟨o, w, hw, hfits⟩ := c
  cases o with
  | set k' v =>
    refine (view_replace m _ _ k).trans ?_
    rw [replayRecord_set ⟨.set k' v, w, hw, hfits⟩ rfl]
    exact if_congr Option.some_inj.symm rfl rfl
  | incr k' =>
    refine (view_add m _ _ k).trans ?_
    rw [replayRecord_incr ⟨.incr k', w, hw, hfits⟩ rfl, incrText_getD]
    exact if_congr Option.some_inj.symm rfl rfl
  | del k' => exact (view_remove m _ k).trans (if_congr Option.some_inj.symm rfl rfl)
  | setCheckpoint k' v => rfl
  | checkpointEnd id arg => rfl
  | select => rfl

theorem indexRecords_cons : indexRecords m (c :: L) = indexRecords (applyRecord m c.indexOp) L := rfl

/-- The values folded from the store follow the records that went into it. -/
theorem view_indexRecords : view (indexRecords m L) = recordSem.replay (view m) L := by
  induction L generalizing m with
  | nil => rfl
  | cons c L ih =>
    rw [indexRecords_cons, ih, view_applyRecord]
    rfl

theorem view_indexRecords_apply (k : CStr) : view (indexRecords m L) k = recordSem.fold k (view m k) L := by
  rw [view_indexRecords, recordSem.replay_apply]

theorem view_empty (k : CStr) : view Multimap.empty k = none := rfl

/-! ### Plain commands -/

/-- The meaning of a log to the loaders: counters are `int`s, checkpoints nothing. -/
def intSem : KeyedLog.Sem Bytes Bytes Op where
  key
    | .set k _ => some k
    | .incr k => some k
    | .del k => some k
    | _ => none
  act o x :=
    match o with
    | .set _ v => some v
    | .incr _ => some (incrText x)
    | .del _ => none
    | _ => x

theorem touch_int (k : CStr) (c : LogCmd) (hplain : c.op.Plain) (x : Option Bytes) :
    recordSem.touch k x c = intSem.touch k.val x c.op := by
  obtain ⟨o, w, hw, hfits⟩ := c
  have hkey : ∀ b : Bytes, Plain b → (some (cstr b) = some k ↔ some b = some k.val) := by
    intro b hb
    rw [Option.some.injEq, Option.some.injEq, cstr_eq_iff hb.2]
  cases o with
  | set k' v =>
    have hval := LogCmd.record_value ⟨.set k' v, w, hw, hfits⟩ rfl hplain.1 hplain.2
    exact if_congr (hkey k' hplain.1) (congrArg some hval) rfl
  | incr k' => exact if_congr (hkey k' hplain) rfl rfl
  | del k' => exact if_congr (hkey k' hplain) rfl rfl
  | _ => rfl

end RedisIR
