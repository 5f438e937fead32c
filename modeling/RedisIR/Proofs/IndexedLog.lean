import RedisIR.Proofs.Aof
import RedisIR.Spec.IndexedLog

/-! The start-up indexer on a well-formed log, from the bytes it parses to the value that
the loaders later fold from the records of each key. -/

namespace RedisIR

open CLib List

variable {files : Files} {replicated : Bool} {B : List Entry} {dbp : IndexedLog}

/-! ### Parsing -/

variable (o : Op) (a : Bytes) (n : ℕ) (L : List LogCmd) (c : LogCmd)

theorem nul_not_mem_lenLine : (0 : UInt8) ∉ lenLine n := by
  simp [lenLine, not_mem_natDecimal (c := 0) rfl]
  decide

theorem nul_not_mem_countLine : (0 : UInt8) ∉ countLine n := by
  simp [countLine, not_mem_natDecimal (c := 0) rfl]
  decide

def joinArgs (args : List Bytes) : Bytes :=
  intercalate [LF] (args.map fun a => lenLine a.length ++ a)

theorem length_catBulk {a : Bytes} (ha : a.length < 2 ^ 63) :
    ((catBulk a).length : ℤ) = strlen (lenLine a.length) + a.length + 2 := by
  rw [catBulk_eq ha, strlen_of_nul_free (nul_not_mem_lenLine _)]
  simp [add_assoc]

theorem initialArgs_catBulk {a : Bytes} (ha : a.length < 2 ^ 63) (n j : ℕ) (rest : Bytes) (p : Parse) :
    initialArgs (n + 1) j (catBulk a ++ rest) p =
      initialArgs n (j + 1) rest
        { seek := p.seek + (catBulk a).length
          logRecord := p.logRecord ++ (lenLine a.length ++ a) ++ if n = 0 then [] else [LF]
          command := if j = 0 then (cstr a).val else p.command
          key := if j = 1 then cstr a else p.key } := by
  rw [initialArgs, readBulk_catBulk ha]
  simp [length_catBulk ha, cstr_val_of_nul_free (nul_not_mem_lenLine _), append_assoc, add_assoc]

theorem intercalate_tail (args : List Bytes) :
    intercalate [LF] (a :: args) = a ++ (if args.length = 0 then [] else [LF]) ++
      intercalate [LF] args := by
  cases args with
  | nil => simp [intercalate]
  | cons b args => rw [intercalate_cons_cons]; simp

theorem joinArgs_cons (args : List Bytes) :
    joinArgs (a :: args) = (lenLine a.length ++ a) ++ (if args.length = 0 then [] else [LF]) ++
      joinArgs args := by
  rw [joinArgs, map_cons, intercalate_tail, length_map]
  rfl

theorem initialArgs_tail (args : List Bytes) (h : ∀ a ∈ args, a.length < 2 ^ 63) (j : ℕ) (hj : 2 ≤ j)
    (rest : Bytes) (p : Parse) :
    initialArgs args.length j (args.flatMap catBulk ++ rest) p =
      .ok ({ p with
        seek := p.seek + (args.flatMap catBulk).length
        logRecord := p.logRecord ++ joinArgs args }, rest) := by
  induction args generalizing j p with
  | nil => simp [initialArgs, joinArgs, intercalate]
  | cons a args ih =>
    rw [flatMap_cons, append_assoc, length_cons, initialArgs_catBulk (h a (by simp)),
      ih (forall_mem_cons.mp h).2 (j + 1) (by omega), joinArgs_cons, if_neg (by omega : ¬ j = 0),
      if_neg (by omega : ¬ j = 1)]
    simp [add_assoc]

theorem initialArgs_argv (w k : Bytes) (args : List Bytes) (h : ∀ a ∈ w :: k :: args, a.length < 2 ^ 63)
    (rest : Bytes) (p : Parse) :
    initialArgs (args.length + 2) 0 ((w :: k :: args).flatMap catBulk ++ rest) p =
      .ok ({ seek := p.seek + ((w :: k :: args).flatMap catBulk).length
             logRecord := p.logRecord ++ joinArgs (w :: k :: args)
             command := (cstr w).val
             key := cstr k }, rest) := by
  rw [flatMap_cons, flatMap_cons, append_assoc, append_assoc,
    initialArgs_catBulk (h w (by simp)), initialArgs_catBulk (h k (by simp)),
    initialArgs_tail args (fun b hb => h b (by simp [hb])) _ (by norm_num), joinArgs_cons, joinArgs_cons]
  simp [add_assoc]

def Entry.Keyed (e : Entry) : Prop := 2 ≤ e.argv.length

/-- What the start-up indexer does with a command that has a key. -/
def Entry.indexOp (e : Entry) : Option IndexOp :=
  initialRecord ⟨0, countLine e.argv.length ++ joinArgs e.argv, (cstr (e.argv.getD 0 [])).val,
    cstr (e.argv.getD 1 [])⟩

/-- Reading commands, whatever the parse variables held before and whatever follows. -/
theorem initialLoop_entries (E : List Entry) (hE : ∀ e ∈ E, e.Keyed) (fuel : ℕ) (rest : Bytes) (p : Parse)
    (recs : List (Option IndexOp)) :
    ∃ q : Parse, q.seek = p.seek + (entryBytes E).length ∧
      initialLoop (E.length + fuel) (entryBytes E ++ rest) p recs =
        initialLoop fuel rest q (recs ++ E.map Entry.indexOp) := by
  induction E generalizing p recs with
  | nil => exact ⟨p, by simp [entryBytes], by simp [entryBytes]⟩
  | cons e E ih =>
    obtain ⟨w, k, args, hargv⟩ : ∃ w k args, e.argv = w :: k :: args := by
      have hkeyed : 2 ≤ e.argv.length := hE e (by simp)
      rcases hlist : e.argv with _ | ⟨w, _ | ⟨k, args⟩⟩
      · simp [hlist] at hkeyed
      · simp [hlist] at hkeyed
      · exact ⟨w, k, args, rfl⟩
    have hparse : ∀ q rest', initialArgs e.argv.length 0 (e.argv.flatMap catBulk ++ rest') q =
        .ok (⟨q.seek + (e.argv.flatMap catBulk).length, q.logRecord ++ joinArgs e.argv, (cstr w).val, cstr k⟩,
          rest') := by
      intro q rest'
      rw [hargv, length_cons, length_cons, initialArgs_argv _ _ _ (hargv ▸ e.fits)]
    have hop : ∀ seek, initialRecord ⟨seek, countLine e.argv.length ++ joinArgs e.argv, (cstr w).val, cstr k⟩ =
        e.indexOp := by
      intro seek
      simp only [Entry.indexOp, hargv]
      rfl
    obtain ⟨q, hseek, hloop⟩ := ih (fun e' he' => hE e' (by simp [he']))
      ⟨p.seek + (countLine e.argv.length).length + (e.argv.flatMap catBulk).length,
        countLine e.argv.length ++ joinArgs e.argv, (cstr w).val, cstr k⟩ (recs ++ [e.indexOp])
    refine ⟨q, ?_, ?_⟩
    · rw [hseek, entryBytes_cons, e.bytes_eq]
      simp [add_assoc]
    · have hne : entryBytes (e :: E) ++ rest ≠ [] := by simp [entryBytes_cons, e.bytes_ne_nil]
      rw [length_cons, Nat.succ_add_eq_add_succ, Nat.add_succ, initialLoop, if_neg hne, entryBytes_cons,
        append_assoc, e.readHeader_bytes]
      simp only [hparse, cstr_val_of_nul_free (nul_not_mem_countLine _), hop,
        strlen_of_nul_free (nul_not_mem_countLine _)]
      rw [hloop]
      simp

/-! ### Logged operations -/

/-- The text of a command's indexed record, cut at its first zero byte by `strlen`. -/
def LogCmd.record (c : LogCmd) : CStr := cstr (countLine c.argv.length ++ joinArgs c.argv)

def LogCmd.indexOp (c : LogCmd) : Option IndexOp :=
  match c.op with
  | .set k _ => some (.replace (cstr k) c.record)
  | .incr k => some (.add (cstr k) c.record)
  | .del k => some (.remove (cstr k))
  | _ => none

theorem Op.name_letters : ∀ b ∈ o.name, 65 ≤ b := by
  cases o <;> simp only [Op.name] <;> decide +kernel

theorem LogCmd.not_mem_word {b : UInt8} (hb : ¬ 65 ≤ toupper b) : b ∉ c.word := by
  intro h
  have hmem : toupper b ∈ sdstoupper c.word := mem_map.mpr ⟨b, h, rfl⟩
  rw [c.spelled] at hmem
  exact hb (c.op.name_letters _ hmem)

theorem LogCmd.word_nul_free : (0 : UInt8) ∉ c.word := c.not_mem_word (by decide)

theorem LogCmd.word_lf_free : LF ∉ c.word := c.not_mem_word (by decide)

/-- The first argument of every logged operation, its key if it has one. -/
def Op.arg1 (o : Op) : Bytes := o.args.headD []

theorem Op.args_eq : o.args = o.arg1 :: o.args.tail := by cases o <;> rfl

theorem LogCmd.keyed : c.entry.Keyed := c.argv_length.1

theorem LogCmd.indexOp_entry : c.entry.indexOp = c.indexOp := by
  have hargv : c.argv = c.word :: c.op.arg1 :: c.op.args.tail := by rw [LogCmd.argv, ← c.op.args_eq]
  have hword : c.argv.getD 0 [] = c.word := by rw [hargv]; rfl
  have hkey : c.argv.getD 1 [] = c.op.arg1 := by rw [hargv]; rfl
  rw [Entry.indexOp, LogCmd.entry_argv, hword, hkey, cstr_val_of_nul_free c.word_nul_free]
  simp only [initialRecord, c.spelled, LogCmd.indexOp, LogCmd.record]
  cases c.op <;> rfl

/-! ### Whole runs -/

/-- The store after the start-up indexer has handled the commands `L`. -/
def indexRecords (dbp : IndexedLog) (L : List LogCmd) : IndexedLog :=
  (L.map LogCmd.indexOp).foldl applyRecord dbp

/-- The store after the start-up indexer has handled any commands `E`. -/
def indexEntries (dbp : IndexedLog) (E : List Entry) : IndexedLog := (E.map Entry.indexOp).foldl applyRecord dbp

theorem exec_records (s : Indexing) (os : List (Option IndexOp)) :
    ((os.map Effect.record).foldl Effect.exec s).dbp = os.foldl applyRecord s.dbp ∧
      ((os.map Effect.record).foldl Effect.exec s).files = s.files := by
  induction os generalizing s with
  | nil => exact ⟨rfl, rfl⟩
  | cons o os ih => exact ih (Effect.exec s (.record o))

def Files.primary (f : Files) : Bytes × Option ℤ × Option ℤ × DbFile :=
  (f.aof, f.finalLogSeek, f.checkpointLogSeek, f.indexedLog)

/-- The effects that concern only the replica. -/
def Effect.OnReplica : Effect → Prop
  | .writeFinalLogSeekReplica _ => True
  | .closeReplica => True
  | _ => False

theorem exec_onReplica {rest : List Effect} (h : ∀ e ∈ rest, e.OnReplica) (s : Indexing) :
    (rest.foldl Effect.exec s).files.primary = s.files.primary ∧ (rest.foldl Effect.exec s).dbp = s.dbp := by
  induction rest generalizing s with
  | nil => exact ⟨rfl, rfl⟩
  | cons e rest ih =>
    obtain ⟨h1, h2⟩ := ih (fun e' he' => h e' (by simp [he'])) (Effect.exec s e)
    rw [foldl_cons, h1, h2]
    have he := h e (by simp)
    cases e with
    | writeFinalLogSeekReplica seek => exact ⟨rfl, rfl⟩
    | closeReplica => exact ⟨rfl, rfl⟩
    | _ => exact he.elim

/-- The effects of a start-up run for the records `os`, with `rest` on the replica. -/
def startupEffects (os : List (Option IndexOp)) (seek : ℤ) (rest : List Effect) : List Effect :=
  os.map Effect.record ++ .writeFinalLogSeek seek :: .close :: rest

theorem exec_startupEffects (os : List (Option IndexOp)) (seek : ℤ) {rest : List Effect}
    (hrest : ∀ e ∈ rest, e.OnReplica) (s : Indexing) :
    ((startupEffects os seek rest).foldl Effect.exec s).files.primary =
      (s.files.aof, some seek, s.files.checkpointLogSeek, .ok (os.foldl applyRecord s.dbp)) := by
  have hrecs := exec_records s os
  rw [startupEffects, foldl_append, foldl_cons, foldl_cons, (exec_onReplica hrest _).1]
  simp [Effect.exec, Files.primary, hrecs.1, hrecs.2]

/-- With the indexed log in place, start-up goes on at the saved position. -/
theorem chooseStart_ok (files : Files) (replicated : Bool) {seek : ℕ} {idx : IndexedLog}
    (hseek : files.finalLogSeek = some (seek : ℤ)) (hlog : files.indexedLog = .ok idx) :
    chooseStart files replicated = ⟨seek, files, replicated⟩ := by
  have hne : (seek : ℤ) ≠ -1 := by omega
  simp [chooseStart, hseek, hlog, readFinalLogSeek, DbFile.openR, hne]

theorem entryBytes_eq_nil {E : List Entry} (h : entryBytes E = []) : E = [] := by
  have := length_le_entryBytes E
  rw [h] at this
  exact eq_nil_of_length_eq_zero (by simpa using this)

theorem aofBytes_eq_nil {L : List LogCmd} (h : aofBytes L = []) : L = [] := by
  rw [aofBytes_entry] at h
  exact map_eq_nil_iff.mp (entryBytes_eq_nil h)

/-- The stores that a start-up run opens, the indexed log with the contents `dbp`. -/
def Start.opened (s : Start) (dbp : IndexedLog) : Indexing :=
  let dbpReplica := if s.replicated then s.files.replica.openW else none
  ⟨{ s.files with indexedLog := .ok dbp, replica := dbpReplica.elim s.files.replica .ok }, dbp, dbpReplica⟩

section

variable (hB : ∀ e ∈ B, e.Keyed) (hread : fseek files.aof (chooseStart files replicated).seek = entryBytes B)
  (hopen : (chooseStart files replicated).files.indexedLog.openW = some dbp)
include hB hread hopen

/-- A start-up run that finds the log at a command boundary handles the commands after it. -/
theorem initialIndexes_entries (hne : files.aof ≠ []) :
    initialIndexesSequentialLogToIndexedLog files replicated =
      .returned ⟨(chooseStart files replicated).opened dbp,
        (B.map Entry.indexOp).map Effect.record ++
          initialFinish ((chooseStart files replicated).seek + (entryBytes B).length)
            (chooseStart files replicated).replicated,
        (chooseStart files replicated).replicated, B.length⟩ := by
  obtain ⟨fuel, hfuel⟩ : ∃ fuel, files.aof.length + 1 = B.length + (fuel + 1) := by
    have h1 := length_le_entryBytes B
    have h2 : (entryBytes B).length ≤ files.aof.length := by
      rw [← hread, fseek, length_drop]
      omega
    exact ⟨files.aof.length - B.length, by omega⟩
  obtain ⟨q, hseek, hloop⟩ := initialLoop_entries B hB (fuel + 1) []
    ⟨(chooseStart files replicated).seek, [], [], cstr []⟩ []
  have hdone : initialLoop (fuel + 1) [] q ([] ++ B.map Entry.indexOp) = .returned (q.seek, B.map Entry.indexOp) := rfl
  rw [append_nil, hdone] at hloop
  simp only [initialIndexesSequentialLogToIndexedLog, hopen, if_neg hne, hread, hfuel, hloop, hseek, length_map]
  rfl

theorem initialIndexes_effects :
    ∃ r rest, initialIndexesSequentialLogToIndexedLog files replicated = .returned r ∧
      r.effects = startupEffects (B.map Entry.indexOp)
        (if files.aof = [] then 0 else (chooseStart files replicated).seek + (entryBytes B).length) rest ∧
      (∀ e ∈ rest, e.OnReplica) ∧ r.start.dbp = dbp ∧
      r.start.files.primary = { (chooseStart files replicated).files with indexedLog := .ok dbp }.primary := by
  by_cases hne : files.aof = []
  · obtain rfl : B = [] := entryBytes_eq_nil (by rw [← hread, hne, fseek, drop_nil])
    simp only [initialIndexesSequentialLogToIndexedLog, hopen, if_pos hne]
    exact ⟨_, [], rfl, rfl, by simp, rfl, rfl⟩
  rw [initialIndexes_entries hB hread hopen hne, if_neg hne]
  refine ⟨_, _, rfl, rfl, ?_, rfl, rfl⟩
  intro e he
  split_ifs at he
  · rcases mem_cons.mp he with rfl | he
    · trivial
    · rw [mem_singleton.mp he]
      trivial
  · cases he

/-- Start-up indexing adds the commands it reads to the store it finds. -/
theorem initialIndexes_result :
    ∃ r, initialIndexesSequentialLogToIndexedLog files replicated = .returned r ∧
      r.result.files.indexedLog = .ok (indexEntries dbp B) ∧
      r.result.files.finalLogSeek =
        some (if files.aof = [] then 0 else (chooseStart files replicated).seek + (entryBytes B).length) := by
  obtain ⟨r, rest, hrun, heffects, hrest, hdbp, -⟩ := initialIndexes_effects hB hread hopen
  have hfiles := exec_startupEffects (B.map Entry.indexOp)
    (if files.aof = [] then 0 else (chooseStart files replicated).seek + (entryBytes B).length) hrest r.start
  rw [← heffects, hdbp] at hfiles
  exact ⟨r, hrun, congrArg (fun p => p.2.2.2) hfiles, congrArg (fun p => p.2.1) hfiles⟩

end

/-! The same for logged operations. -/

theorem keyed_entries : ∀ e ∈ L.map LogCmd.entry, e.Keyed := by
  intro e he
  obtain ⟨c, -, rfl⟩ := mem_map.mp he
  exact c.keyed

theorem indexOp_entries : (L.map LogCmd.entry).map Entry.indexOp = L.map LogCmd.indexOp := by
  rw [map_map]
  exact map_congr_left fun c _ => c.indexOp_entry

theorem indexEntries_entries (dbp : IndexedLog) (L : List LogCmd) :
    indexEntries dbp (L.map LogCmd.entry) = indexRecords dbp L := by
  rw [indexEntries, indexOp_entries]
  rfl

section

variable {B : List LogCmd} (hread : fseek files.aof (chooseStart files replicated).seek = aofBytes B)
  (hopen : (chooseStart files replicated).files.indexedLog.openW = some dbp)
include hread hopen

theorem initialIndexes_reads :
    ∃ r rest, initialIndexesSequentialLogToIndexedLog files replicated = .returned r ∧
      r.effects = startupEffects (B.map LogCmd.indexOp)
        (if files.aof = [] then 0 else (chooseStart files replicated).seek + (aofBytes B).length) rest ∧
      (∀ e ∈ rest, e.OnReplica) ∧ r.start.dbp = dbp ∧
      r.start.files.primary = { (chooseStart files replicated).files with indexedLog := .ok dbp }.primary := by
  rw [aofBytes_entry] at hread ⊢
  rw [← indexOp_entries]
  exact initialIndexes_effects (keyed_entries B) hread hopen

theorem initialIndexes_index :
    ∃ r, initialIndexesSequentialLogToIndexedLog files replicated = .returned r ∧
      r.result.files.indexedLog = .ok (indexRecords dbp B) ∧
      r.result.files.finalLogSeek =
        some (if files.aof = [] then 0 else (chooseStart files replicated).seek + (aofBytes B).length) := by
  rw [aofBytes_entry] at hread ⊢
  rw [← indexEntries_entries]
  exact initialIndexes_result (keyed_entries B) hread hopen

end

theorem fseek_aofBytes (A B : List LogCmd) : fseek (aofBytes (A ++ B)) (aofBytes A).length = aofBytes B := by
  rw [fseek, aofBytes_append, Int.toNat_natCast, drop_left]

/-- The same from the end of `A`, with the position that is left in `FINAL_LOG_SEEK`. -/
theorem initialIndexes_boundary {files : Files} {replicated : Bool} {A B : List LogCmd} {dbp : IndexedLog}
    (haof : files.aof = aofBytes (A ++ B))
    (hseek : (chooseStart files replicated).seek = (aofBytes A).length)
    (hopen : (chooseStart files replicated).files.indexedLog.openW = some dbp) :
    ∃ r, initialIndexesSequentialLogToIndexedLog files replicated = .returned r ∧
      r.result.files.indexedLog = .ok (indexRecords dbp B) ∧
      r.result.files.finalLogSeek = some ((aofBytes (A ++ B)).length : ℤ) := by
  have hread : fseek files.aof (chooseStart files replicated).seek = aofBytes B := by
    rw [haof, hseek, fseek_aofBytes]
  obtain ⟨r, hrun, hres, hpos⟩ := initialIndexes_index hread hopen
  refine ⟨r, hrun, hres, ?_⟩
  rw [hpos, hseek]
  split_ifs with hne
  · rw [← haof, hne]
    rfl
  · rw [aofBytes_append, length_append, Nat.cast_add]

/-- Start-ups of the server, each after the log has grown by some commands. -/
def startups (replicated : Bool) : List LogCmd → List (List LogCmd) → Files → Option Files
  | _, [], files => files
  | A, B :: Bs, files =>
    match initialIndexesSequentialLogToIndexedLog { files with aof := aofBytes (A ++ B) } replicated with
    | .returned r => startups replicated (A ++ B) Bs r.result.files
    | _ => none

/-- However often the server starts while its log grows, each command is indexed once. -/
theorem startups_index_once (A : List LogCmd) (Bs : List (List LogCmd)) (files : Files) (idx : IndexedLog) :
    ∃ files', startups replicated A Bs
        { files with finalLogSeek := some (aofBytes A).length, indexedLog := .ok idx } = some files' ∧
      files'.indexedLog = .ok (indexRecords idx Bs.flatten) ∧
      files'.finalLogSeek = some (aofBytes (A ++ Bs.flatten)).length := by
  induction Bs generalizing A files idx with
  | nil => exact ⟨_, rfl, rfl, by simp⟩
  | cons B Bs ih =>
    set grown : Files := ⟨aofBytes (A ++ B), some (aofBytes A).length, files.finalLogSeekReplica,
      files.checkpointLogSeek, .ok idx, files.replica⟩
    have hstart := chooseStart_ok grown replicated rfl rfl
    obtain ⟨r, hr, hidx, hpos⟩ := @initialIndexes_boundary grown replicated A B idx rfl (by rw [hstart])
      (by rw [hstart]; rfl)
    obtain ⟨files', hrun, hidx', hpos'⟩ := ih (A ++ B) r.result.files (indexRecords idx B)
    rw [← hidx, ← hpos] at hrun
    refine ⟨files', ?_, by simpa [indexRecords] using hidx', by simpa using hpos'⟩
    rw [startups, hr]
    exact hrun

end RedisIR
