import RedisIR.Proofs.Transactions
import RedisIR.Proofs.Reindex
import RedisIR.Spec.Databases

/-! Several databases in one log. Replaying the log follows its `SELECT` records; the
indexers skip them, so every record counts as one of database 0. -/

namespace RedisIR

open CLib List Option Function Outcome

variable {b : Bytes} {s : Loading Dbs} {dbnum : ℕ} {w : DbWrite} {T : List DbWrite}

/-! ### A `SET` without an expire time is logged without its options -/

variable (k : Bytes) (selected : ℤ) (options : List Bytes) (idx : IndexedLog) (ws : List DbWrite)

theorem setOptions_timeless (f : SetFlags) {g : SetFlags} (h : setOptions options f = some g)
    (hg : g.expire = none) : f.expire = none ∧ ∀ a ∈ options, isWord a EX = false ∧ isWord a PX = false := by
  fun_induction setOptions options f with
  | case1 f =>
    obtain rfl := some.inj h
    exact ⟨hg, by simp⟩
  | case2 a args f hnx ih =>
    have hword : isWord a NX = true := by simpa using (Bool.and_eq_true_iff.mp hnx).1
    obtain ⟨hf, hargs⟩ := ih h
    exact ⟨hf, forall_mem_cons.mpr ⟨⟨isWord_ne hword (by decide), isWord_ne hword (by decide)⟩, hargs⟩⟩
  | case3 a args f _ hxx ih =>
    have hword : isWord a XX = true := by simpa using (Bool.and_eq_true_iff.mp hxx).1
    obtain ⟨hf, hargs⟩ := ih h
    exact ⟨hf, forall_mem_cons.mpr ⟨⟨isWord_ne hword (by decide), isWord_ne hword (by decide)⟩, hargs⟩⟩
  | case4 | case7 => cases h
  | case5 a f next args _ _ _ ih => cases (ih h).1
  | case6 a f next args _ _ _ _ ih => cases (ih h).1

def DbWrite.logCmd (w : DbWrite) : LogCmd where
  op := w.op.op
  word := w.word
  spelled := by
    rw [w.spelled]
    cases w.op <;> rfl
  fits := by
    intro a ha
    refine w.fits a ?_
    revert ha
    cases w.op <;> simp [WriteOp.op, WriteOp.clientOp, Op.args, ClientOp.args]
    tauto

theorem DbWrite.logCmd_del (w : DbWrite) (h : w.op = .del b) : w.logCmd.op = .del b := by
  change w.op.op = _
  rw [h]
  rfl

/-- A `SET` that fails changes nothing; one that succeeds had only `NX` and `XX` among its
options, which the log drops. -/
theorem setCommandOptions_cases {k v : Bytes} {options : List Bytes} (h : (WriteOp.set k v options).Timeless)
    (db : Db) : (setCommandOptions k v options db).dirty = 0 ∧ (setCommandOptions k v options db).db = db ∨
      0 < (setCommandOptions k v options db).dirty ∧
        (setCommandOptions k v options db).db = redisSem.step db (.set k v) ∧
        ∀ now word, translate now .set (word :: k :: v :: options) = .returned [[word, k, v]] := by
  unfold setCommandOptions
  cases hopt : setOptions options OBJ_SET_NO_FLAGS with
  | none => exact .inl ⟨rfl, rfl⟩
  | some f =>
    have hexpire : f.expire = none := h f (by simp [hopt])
    have hargs := expireArgs_none options (setOptions_timeless options _ hopt hexpire).2 none none
    simp only [setGenericCommandFlags, hexpire, setGenericCommand]
    split_ifs with hcond
    · exact .inl ⟨rfl, rfl⟩
    · refine .inr ⟨Nat.one_pos, (step_eq_update db (o := .set k v) rfl).symm, fun now word => ?_⟩
      unfold translate
      dsimp only
      split_ifs with hlen
      · simp [hargs]
      · obtain rfl : options = [] := length_eq_zero_iff.mp (by simpa using hlen)
        rfl

theorem incrCommand_cases (db : Db) : (incrCommand k db).dirty = 0 ∧ (incrCommand k db).db = db ∨
      0 < (incrCommand k db).dirty ∧ (incrCommand k db).db = redisSem.step db (.incr k) := by
  have hdb : (incrCommand k db).db = redisSem.step db (.incr k) := proc_cmd_db (.incr k) db
  by_cases hdirty : 0 < (incrCommand k db).dirty
  · exact .inr ⟨hdirty, hdb⟩
  · refine .inl ⟨by omega, ?_⟩
    revert hdirty
    unfold incrCommand incrDecrCommand
    cases getLongLongFromObject (db k) with
    | none => simp
    | some n =>
      dsimp only
      split_ifs <;> simp

theorem delCommand_cases (db : Db) : (delCommand [k] db).dirty = 0 ∧ (delCommand [k] db).db = db ∨
      0 < (delCommand [k] db).dirty ∧ (delCommand [k] db).db = redisSem.step db (.del k) := by
  cases hk : db k with
  | none => exact .inl (by simp [delCommand, delLoop, hk])
  | some v => exact .inr ⟨by simp [delCommand, delLoop, hk], proc_cmd_db (.del k) db⟩

/-- A write that changes nothing is not counted, one that counts does what its logged form
means and is logged in that form. -/
theorem DbWrite.proc_cases (w : DbWrite) (db : Db) :
    (w.op.clientOp.proc db).dirty = 0 ∧ (w.op.clientOp.proc db).db = db ∨
      0 < (w.op.clientOp.proc db).dirty ∧ (w.op.clientOp.proc db).db = redisSem.step db w.op.op ∧
        translate w.now w.op.clientOp.aofProc w.call.cmd.argv = .returned [w.logCmd.argv] := by
  obtain ⟨now, d, hd, op, word, hword, hargc, hfits, htimeless⟩ := w
  cases op with
  | set k v options =>
    refine (setCommandOptions_cases htimeless db).imp_right ?_
    intro ⟨hdirty, hdb, htranslate⟩
    exact ⟨hdirty, hdb, htranslate now word⟩
  | incr k => exact (incrCommand_cases k db).imp_right fun ⟨hdirty, hdb⟩ => ⟨hdirty, hdb, rfl⟩
  | del k => exact (delCommand_cases k db).imp_right fun ⟨hdirty, hdb⟩ => ⟨hdirty, hdb, rfl⟩

/-! ### The log of a run -/

theorem ClientOp.aofProc_cases (o : ClientOp) : o.aofProc = .other ∨ o.aofProc = .set := by
  cases o <;> simp [ClientOp.aofProc]

theorem Redis.dbs_setDb (s : Redis) (db : Db) (d : ℕ) : (s.setDb db d).dbs = update s.dbs d db := by
  funext i
  cases d with
  | zero => cases i <;> simp [Redis.setDb, Redis.dbs]
  | succ d =>
    cases i with
    | zero => simp [Redis.setDb, Redis.dbs]
    | succ i =>
      by_cases h : i = d
      · simp [Redis.setDb, Redis.dbs, h]
      · simp [Redis.setDb, Redis.dbs, h]

@[simp] theorem Redis.setDb_aof (s : Redis) (db : Db) (d : ℕ) : (s.setDb db d).aof = s.aof := by
  cases d <;> rfl

theorem Redis.execute_on {n : ℕ} {c : ClientCall} {s : Redis} (hon : s.aof.state = .on) : s.execute n c =
      if 0 < n + (c.cmd.op.proc (s.dbs c.db)).dirty then
        (translate c.now c.cmd.op.aofProc c.cmd.argv).bind fun cmds => .returned
          ⟨{ s.setDb (c.cmd.op.proc (s.dbs c.db)).db c.db with aof := { s.aof with
                buf := s.aof.buf ++ commandBytes (selectCommands c.db s.aof.selectedDb ++ cmds)
                selectedDb := c.db } }, (c.cmd.op.proc (s.dbs c.db)).reply⟩
      else .returned ⟨s.setDb (c.cmd.op.proc (s.dbs c.db)).db c.db, (c.cmd.op.proc (s.dbs c.db)).reply⟩ := by
  have hproc : c.cmd.op.aofProc ≠ .setIR := by
    rcases c.cmd.op.aofProc_cases with h | h <;> rw [h] <;> decide
  simp only [Redis.execute, Redis.setDb_aof, propagate_on c.now hproc c.db_int c.cmd.argv hon]
  cases translate c.now c.cmd.op.aofProc c.cmd.argv <;> rfl

theorem dbsSem_touch (d : ℕ) (b : Bytes) (x : Option Bytes) (w : DbWrite) :
    dbsSem.touch (d, b) x w = if w.db = d then redisSem.touch b x w.op.op else x := by
  unfold KeyedLog.Sem.touch
  have hkey : dbsSem.key w = some (d, b) ↔ w.db = d ∧ redisSem.key w.op.op = some b := by
    cases hk : redisSem.key w.op.op with
    | none => simp [dbsSem, hk]
    | some k => simp [dbsSem, hk]
  simp only [hkey]
  by_cases hd : w.db = d
  · simp [hd, dbsSem]
  · simp [hd]

theorem update_step (dbs : Dbs) (w : DbWrite) :
    update dbs w.db (redisSem.step (dbs w.db) w.op.op) = fun d b => dbsSem.touch (d, b) (dbs d b) w := by
  funext d b
  rw [dbsSem_touch]
  by_cases hd : w.db = d
  · subst hd
    simp [KeyedLog.Sem.step]
  · rw [update_of_ne (Ne.symm hd), if_neg hd]

theorem selectDb_natDecimal {d : ℕ} (hd : d < 2 ^ 31) (hdb : d < dbnum) (x : ℕ) :
    selectDb dbnum (natDecimal d) x = d := by
  have hparse : string2ll (natDecimal d) = some (d : ℤ) := by
    have h := string2ll_decimal (i := (d : ℤ)) (by unfold LLONG_MIN; omega) (by unfold LLONG_MAX; omega)
    rwa [decimal, if_neg (by omega), Int.natAbs_natCast] at h
  simp only [selectDb, hparse]
  rw [if_neg (by omega), Int.toNat_natCast]

def selectRecord (d : ℕ) (hd : d < 2 ^ 31) : Record redisCommandTable where
  entry := entryOf [SELECT_COMMAND, natDecimal d] (select_fits hd)
  command := ⟨false, false, .select (natDecimal d)⟩
  found := rfl

/-- A logged command but `SELECT` works on the database of the client. -/
theorem redisCommandTable_logCmd (c : LogCmd) (h : c.op ≠ .select) : redisCommandTable c.argv = some
      ⟨false, false, .data fun d dbs => update dbs d (redisSem.step (dbs d) c.op)⟩ := by
  have hname : c.op.name ≠ MULTI_COMMAND ∧ c.op.name ≠ EXEC_COMMAND ∧ c.op.name ≠ SELECT_COMMAND := by
    revert h
    cases c.op with
    | select => exact fun h => absurd rfl h
    | _ => exact fun _ => by simp only [Op.name]; decide
  have hreadonly : c.op.cmd.readonly = false := by cases c.op <;> rfl
  have hlookup := c.lookupCommand_argv
  rw [LogCmd.argv] at hlookup ⊢
  change (if sdstoupper c.word = MULTI_COMMAND then _ else _) = _
  rw [c.spelled, if_neg hname.1, if_neg hname.2.1, if_neg hname.2.2, hlookup, map_some, hreadonly]
  simp [proc_cmd_db]

def LogCmd.command (c : LogCmd) : Command Dbs :=
  if c.op = .select then ⟨false, false, .select (ascii ['0'])⟩
  else ⟨false, false, .data fun d dbs => update dbs d (redisSem.step (dbs d) c.op)⟩

def LogCmd.tableRecord (c : LogCmd) : Record redisCommandTable where
  entry := c.entry
  command := c.command
  found := by
    unfold LogCmd.command
    split_ifs with h
    · have hargv : c.entry.argv = [c.word, ascii ['0']] := by rw [LogCmd.entry_argv, LogCmd.argv, h]; rfl
      have hname : sdstoupper c.word = SELECT_COMMAND := by rw [c.spelled, h]; rfl
      rw [hargv]
      change (if sdstoupper c.word = MULTI_COMMAND then _ else _) = _
      rw [hname]
      rfl
    · exact redisCommandTable_logCmd c h

def DbWrite.record (w : DbWrite) : Record redisCommandTable := w.logCmd.tableRecord

theorem DbWrite.record_command (w : DbWrite) :
    w.record.command = ⟨false, false, .data fun d dbs => update dbs d (redisSem.step (dbs d) w.op.op)⟩ :=
  if_neg (by change w.op.op ≠ _; cases w.op <;> simp [WriteOp.op])

def selectRecords (d : ℕ) (hd : d < 2 ^ 31) (selected : ℤ) : List (Record redisCommandTable) :=
  if (d : ℤ) ≠ selected then [selectRecord d hd] else []

/-- The records of a log on which the database `selected` was the last one. -/
def logRecords : ℤ → List DbWrite → List (Record redisCommandTable)
  | _, [] => []
  | selected, w :: ws => selectRecords w.db w.db_int selected ++ w.record :: logRecords w.db ws

def recordBytes (rs : List (Record redisCommandTable)) : Bytes := entryBytes (rs.map Record.entry)

theorem recordBytes_append (rs rs' : List (Record redisCommandTable)) :
    recordBytes (rs ++ rs') = recordBytes rs ++ recordBytes rs' := by
  simp [recordBytes, entryBytes]

theorem commandBytes_write (w : DbWrite) (selected : ℤ) :
    commandBytes (selectCommands w.db selected ++ [w.logCmd.argv]) =
      recordBytes (selectRecords w.db w.db_int selected ++ [w.record]) := by
  have hselect : commandBytes (selectCommands w.db selected) = recordBytes (selectRecords w.db w.db_int selected) := by
    unfold selectCommands selectRecords
    split_ifs <;> rfl
  rw [commandBytes_append, recordBytes_append, hselect]
  rfl

/-- One write of a client: the database changes, and a change is logged. -/
theorem call_write (w : DbWrite) {s : Redis} (hs : s.server.performing = false)
    (hon : s.aof.state = .on) :
    ∃ r, s.call idx w.call = .returned r ∧ r.redis.server.performing = false ∧ r.redis.aof.state = .on ∧
      r.redis.dbs = update s.dbs w.db (w.op.clientOp.proc (s.dbs w.db)).db ∧ r.redis.aof =
        if 0 < (w.op.clientOp.proc (s.dbs w.db)).dirty then { s.aof with
            buf := s.aof.buf ++ recordBytes (selectRecords w.db w.db_int s.aof.selectedDb ++ [w.record])
            selectedDb := w.db } else s.aof := by
  have hrestore : restoreOnDemand idx w.call.cmd.op.cmd s.server = (s.server, 0) := by
    unfold restoreOnDemand
    split
    · rfl
    · simp [hs]
  have hperf : (s.setDb (w.op.clientOp.proc (s.dbs w.db)).db w.db).server.performing = false := by
    cases w.db <;> exact hs
  rw [Redis.call, hrestore]
  rw [Redis.execute_on hon, Nat.zero_add]
  change ∃ r, (if 0 < (w.op.clientOp.proc (s.dbs w.db)).dirty then _ else _) = _ ∧ _
  rcases w.proc_cases (s.dbs w.db) with ⟨hdirty, -⟩ | ⟨hdirty, -, htranslate⟩
  · simp only [hdirty, Nat.lt_irrefl, if_false]
    exact ⟨_, rfl, hperf, by rw [Redis.setDb_aof, hon], s.dbs_setDb _ _, Redis.setDb_aof ..⟩
  · simp only [if_pos hdirty]
    rw [← commandBytes_write]
    refine ⟨_, congrArg (Outcome.bind · _) htranslate, hperf, hon, s.dbs_setDb _ _, rfl⟩

theorem loggedWrites_cons (w : DbWrite) (ws : List DbWrite) (dbs : Dbs) : loggedWrites (w :: ws) dbs =
      (if 0 < (w.op.clientOp.proc (dbs w.db)).dirty then [w] else []) ++
        loggedWrites ws (update dbs w.db (w.op.clientOp.proc (dbs w.db)).db) := rfl

/-- The writes that reach the log say what happened to the databases. -/
theorem run_writes {s : Redis} (hs : s.server.performing = false)
    (hon : s.aof.state = .on) : ∃ s', s.run idx (ws.map DbWrite.call) = .returned s' ∧
      s'.dbs = (fun d b => dbsSem.fold (d, b) (s.dbs d b) (loggedWrites ws s.dbs)) ∧
      s'.aof.buf = s.aof.buf ++ recordBytes (logRecords s.aof.selectedDb (loggedWrites ws s.dbs)) := by
  induction ws generalizing s with
  | nil => exact ⟨s, rfl, rfl, by simp [loggedWrites, logRecords, recordBytes, entryBytes]⟩
  | cons w ws ih =>
    obtain ⟨r, hcall, hperf, hstate, hdbs, haof⟩ := call_write idx w hs hon
    obtain ⟨s', hrun, hdbs', hbuf'⟩ := ih hperf hstate
    refine ⟨s', ?_, ?_⟩
    · rw [map_cons, Redis.run, hcall]
      exact hrun
    · rw [hdbs', hbuf', hdbs, haof, loggedWrites_cons]
      rcases w.proc_cases (s.dbs w.db) with ⟨hdirty, hsame⟩ | ⟨hdirty, hstep, -⟩
      · simp [hdirty, hsame]
      · simp only [hdirty, if_true, singleton_append, logRecords]
        refine ⟨?_, ?_⟩
        · rw [hstep, update_step]
          rfl
        · rw [append_assoc, ← recordBytes_append]
          simp

/-! ### Replaying it -/

theorem runAll_select (dbnum : ℕ) (now : ℤ) {d : ℕ} (hd : d < 2 ^ 31) (hdb : d < dbnum) {selected : ℤ}
    (hs : s.client.multi = false) (hsel : ∀ i : ℕ, (i : ℤ) = selected → s.client.db = i) :
    s.runAll dbnum now ((selectRecords d hd selected).map Record.command) =
      .returned { s with client := { s.client with db := d } } := by
  unfold selectRecords
  split_ifs with h
  · simp [Loading.runAll, Loading.run, selectRecord, hs, Loading.call, selectDb_natDecimal hd hdb]
  · rw [← hsel d (not_not.mp h)]
    rfl

/-- The loader of a log with `SELECT` records puts each write where the client made it. -/
theorem runAll_logRecords (dbnum : ℕ) (now : ℤ) (ws : List DbWrite) (hdb : ∀ w ∈ ws, w.db < dbnum)
    {selected : ℤ} (hs : s.client.multi = false) (hsel : ∀ i : ℕ, (i : ℤ) = selected → s.client.db = i) :
    ∃ s', s.runAll dbnum now ((logRecords selected ws).map Record.command) = .returned s' ∧
      s'.client.multi = false ∧ s'.data = fun d b => dbsSem.fold (d, b) (s.data d b) ws := by
  induction ws generalizing selected s with
  | nil => exact ⟨s, rfl, hs, rfl⟩
  | cons w ws ih =>
    have hselected : ∀ i : ℕ, (i : ℤ) = w.db → w.db = i := fun i hi => (Int.ofNat_inj.mp hi).symm
    obtain ⟨s', hrun, hmulti, hdata⟩ := ih (forall_mem_cons.mp hdb).2
      (s := { s with
        client := { s.client with db := w.db }
        data := update s.data w.db (redisSem.step (s.data w.db) w.op.op) })
      hs hselected
    have hwrite : ({ s with client := { s.client with db := w.db } } : Loading Dbs).run dbnum now w.record.command =
        .returned { s with
          client := { s.client with db := w.db }
          data := update s.data w.db (redisSem.step (s.data w.db) w.op.op) } := by
      rw [Loading.run, if_neg (by simp [hs]), w.record_command]
      rfl
    refine ⟨s', ?_, hmulti, ?_⟩
    · rw [logRecords, map_append, Loading.runAll_append,
        runAll_select dbnum now w.db_int (hdb w (by simp)) hs hsel, bind_returned, map_cons, Loading.runAll,
        hwrite]
      exact hrun
    · rw [hdata]
      simp only [update_step]
      rfl

/-! On database 0 alone this is the load of a log without `SELECT`. -/

theorem run_logCmd (hdb : 0 < dbnum) (now : ℤ) (c : LogCmd) (hs : s.client.multi = false) (h0 : s.client.db = 0) :
    s.run dbnum now c.command =
      .returned { s with data := update s.data 0 (redisSem.step (s.data 0) c.op) } := by
  obtain ⟨⟨db, multi, commands⟩, data, aof⟩ := s
  obtain rfl : db = 0 := h0
  obtain rfl : multi = false := hs
  unfold LogCmd.command
  split_ifs with hop
  · have hselect : selectDb dbnum (ascii ['0']) 0 = 0 := selectDb_natDecimal (d := 0) (by norm_num) hdb 0
    rw [hop, step_eq_self (data 0) rfl, update_eq_self]
    simp [Loading.run, Proc.isExec, Loading.call, hselect]
  · rfl

theorem runAll_logCmds (hdb : 0 < dbnum) (now : ℤ) (L : List LogCmd) (hs : s.client.multi = false)
    (h0 : s.client.db = 0) : s.runAll dbnum now (L.map LogCmd.command) =
      .returned { s with data := update s.data 0 (redisSem.replay (s.data 0) (L.map LogCmd.op)) } := by
  induction L generalizing s with
  | nil => simp [Loading.runAll, KeyedLog.Sem.replay]
  | cons c L ih =>
    have hrest := ih (s := { s with data := update s.data 0 (redisSem.step (s.data 0) c.op) }) hs h0
    rw [map_cons, Loading.runAll, run_logCmd hdb now c hs h0, bind_returned, hrest]
    simp [KeyedLog.Sem.replay]

theorem load_single_database (hdb : 0 < dbnum) (now : ℤ) (t : Bool) (L : List LogCmd) (dbs : Dbs) (aof : AofBuffer) :
    ∃ s, redisCommandTable.loadAppendOnlyFile dbnum now t (aofBytes L) dbs aof = .returned s ∧
      loadAppendOnlyFile t (aofBytes L) (dbs 0) = .returned (s.data 0) := by
  have hrecords : aofBytes L = entryBytes ((L.map LogCmd.tableRecord).map Record.entry) := by
    rw [aofBytes_entry, List.map_map]
    rfl
  have hcommands : (L.map LogCmd.tableRecord).map Record.command = L.map LogCmd.command := by
    rw [List.map_map]
    rfl
  refine ⟨⟨createFakeClient, update dbs 0 (redisSem.replay (dbs 0) (L.map LogCmd.op)), aof⟩, ?_, ?_⟩
  · rw [hrecords, loadAppendOnlyFile_records, hcommands, runAll_logCmds hdb now L rfl rfl]
    rfl
  · simp [loadAppendOnlyFile_aofBytes]

/-! ### Indexing it -/

theorem indexEntries_logRecords (m : IndexedLog) (selected : ℤ) (ws : List DbWrite) :
    indexEntries m ((logRecords selected ws).map Record.entry) = indexRecords m (ws.map DbWrite.logCmd) := by
  induction ws generalizing m selected with
  | nil => rfl
  | cons w ws ih =>
    -- a `SELECT` is no operation on the store
    have hselect : indexEntries m ((selectRecords w.db w.db_int selected).map Record.entry) = m := by
      unfold selectRecords
      split_ifs <;> rfl
    rw [logRecords, map_append, indexEntries, map_append, foldl_append]
    change List.foldl applyRecord (indexEntries m _) _ = _
    rw [hselect, map_cons, map_cons, foldl_cons, map_cons, indexRecords_cons]
    change indexEntries (applyRecord m w.logCmd.entry.indexOp) _ = _
    rw [ih, w.logCmd.indexOp_entry]

theorem keyed_logRecords : ∀ e ∈ (logRecords selected ws).map Record.entry, e.Keyed := by
  induction ws generalizing selected with
  | nil => simp [logRecords]
  | cons w ws ih =>
    intro e he
    rw [logRecords, map_append, map_cons] at he
    rcases mem_append.mp he with he | he
    · revert he
      unfold selectRecords
      split_ifs
      · intro he
        rw [mem_singleton.mp he]
        exact le_rfl
      · exact fun he => absurd he (not_mem_nil)
    · rcases mem_cons.mp he with rfl | he
      · exact w.logCmd.keyed
      · exact ih w.db e he

/-! ### One key of the two recoveries -/

def foreignKey (w : DbWrite) : Option Bytes := if w.db = 0 then none else redisSem.key w.op.op

theorem foreignKey_eq (w : DbWrite) (hw : w.db ≠ 0) : foreignKey w = redisSem.key w.op.op := if_neg hw

theorem foreignKey_eq_some (h : foreignKey w = some b) : w.db ≠ 0 ∧ redisSem.key w.op.op = some b := by
  unfold foreignKey at h
  split_ifs at h with hw
  exact ⟨hw, h⟩

/-- Every `INCR` on database 0 meets no key, or a decimal whose successor is an `int`. -/
def HomeIncrsOk (T : List DbWrite) : Prop :=
  KeyedLog.Before (fun A w => w.db = 0 → ∀ k, w.op.op = .incr k → IncrOk (dbsSem.fold (0, k) none A)) T

/-- A write on database 0 means to the loaders what it means to Redis; a write elsewhere does
not touch the key. -/
theorem touch_home (hb : (cstr b).val = b) (x : Option Bytes) (hplain : w.op.op.Plain)
    (hforeign : foreignKey w ≠ some b) (hincr : w.db = 0 → w.op.op = .incr b → IncrOk x) :
    dbsSem.touch (0, b) x w = recordSem.touch (cstr b) x w.logCmd := by
  rw [dbsSem_touch]
  split_ifs with hw
  · rw [touch_agree (cstr b) w.logCmd hplain x (by rw [hb]; exact hincr hw), hb]
    rfl
  · rw [touch_int (cstr b) w.logCmd hplain, hb]
    rw [foreignKey_eq w hw] at hforeign
    symm
    apply intSem.touch_of_key_ne
    change intSem.key w.op.op ≠ some b
    revert hforeign
    cases w.op <;> exact id

theorem fold_home (hb : (cstr b).val = b) (x : Option Bytes) (B : List DbWrite) (hplain : ∀ w ∈ B, w.op.op.Plain)
    (hforeign : ∀ w ∈ B, foreignKey w ≠ some b)
    (hincr : KeyedLog.Before (fun A w => w.db = 0 → w.op.op = .incr b → IncrOk (dbsSem.fold (0, b) x A)) B) :
    dbsSem.fold (0, b) x B = recordSem.fold (cstr b) x (B.map DbWrite.logCmd) := by
  apply KeyedLog.Sem.fold_congr
  rintro A w C hB y rfl -
  exact touch_home hb _ (hplain w (by simp [hB])) (hforeign w (by simp [hB])) (hincr A w C hB)

theorem dbsSem_touch_foreign (hw : w.db ≠ 0) (b : Bytes) (x : Option Bytes) : dbsSem.touch (0, b) x w = x := by
  rw [dbsSem_touch, if_neg hw]

/-- If the other databases are empty in the end, the last write on a key outside database 0
is a `DEL`. -/
theorem last_foreign_del {A B : List DbWrite} (hT : T = A ++ w :: B) (hkey : foreignKey w = some b)
    (hB : ∀ v ∈ B, foreignKey v ≠ some b) (hempty : dbsSem.fold (w.db, b) none T = none) : w.op = .del b := by
  obtain ⟨hw, hkey⟩ := foreignKey_eq_some hkey
  have huntouched : ∀ v ∈ B, dbsSem.key v ≠ some (w.db, b) := by
    intro v hv hvkey
    obtain ⟨k, hk, hpair⟩ := map_eq_some_iff.mp hvkey
    obtain ⟨hdb, rfl⟩ := Prod.mk.inj hpair
    exact hB v hv (by rw [foreignKey_eq v (hdb ▸ hw), hk])
  have hlast : redisSem.act w.op.op (dbsSem.fold (w.db, b) none A) = none := by
    rw [hT, dbsSem.fold_append, dbsSem.fold_cons, dbsSem_touch, if_pos rfl, redisSem.touch_of_key_eq hkey,
      dbsSem.fold_of_untouched huntouched] at hempty
    exact hempty
  revert hkey hlast
  cases w.op with
  | set k v => exact fun _ hlast => absurd hlast (some_ne_none v)
  | incr k => exact fun _ hlast => absurd hlast (incrValue_ne_none _)
  | del k => exact fun hkey _ => congrArg WriteOp.del (some.inj hkey)

/-- What a `DEL` in another database leaves of a key of database 0. -/
def MadeGood (b : Bytes) (A B : List DbWrite) : Prop :=
  Overwritten (cstr b) (B.map DbWrite.logCmd) ∨ dbsSem.fold (0, b) none A = none ∨
    (0 < incrCount (cstr b) (B.map DbWrite.logCmd) ∧ counter (dbsSem.fold (0, b) none A) = 0)

/-- The indexed log forgets the key at the `DEL`, database 0 does not. -/
theorem fold_foreign_del_iff (hb : (cstr b).val = b) {A B : List DbWrite} (hT : T = A ++ w :: B)
    (hplain : ∀ v ∈ T, v.op.op.Plain) (hincr : HomeIncrsOk T) (hw : w.db ≠ 0) (hdel : w.op = .del b)
    (hB : ∀ v ∈ B, foreignKey v ≠ some b) :
    recordSem.fold (cstr b) none (T.map DbWrite.logCmd) = dbsSem.fold (0, b) none T ↔ MadeGood b A B := by
  have hrec : recordSem.fold (cstr b) none (T.map DbWrite.logCmd) =
      recordSem.fold (cstr b) none (B.map DbWrite.logCmd) := by
    have htouch : ∀ x, recordSem.touch (cstr b) x w.logCmd = none := by
      intro x
      rw [touch_int (cstr b) _ (hplain w (by simp [hT])), w.logCmd_del hdel, hb]
      exact if_pos rfl
    rw [hT, map_append, map_cons, recordSem.fold_append, recordSem.fold_cons, htouch]
  have hmem : dbsSem.fold (0, b) none T =
      recordSem.fold (cstr b) (dbsSem.fold (0, b) none A) (B.map DbWrite.logCmd) := by
    rw [hT, dbsSem.fold_append, dbsSem.fold_cons, dbsSem_touch_foreign hw]
    apply fold_home hb _ B (fun v hv => hplain v (by simp [hT, hv])) hB
    intro A' v C hsplit hv hvop
    have hok := hincr (A ++ w :: A') v C (by rw [hT, hsplit]; simp) hv b hvop
    rwa [dbsSem.fold_append, dbsSem.fold_cons, dbsSem_touch_foreign hw] at hok
  rw [hrec, hmem, fold_eq_iff, counter_none]
  unfold MadeGood
  rw [eq_comm (a := none), eq_comm (a := (0 : ℤ))]

theorem recovered_key_iff (hb : (cstr b).val = b) (hplain : ∀ w ∈ T, w.op.op.Plain) (hincr : HomeIncrsOk T)
    (hempty : ∀ d, d ≠ 0 → dbsSem.fold (d, b) none T = none) :
    recordSem.fold (cstr b) none (T.map DbWrite.logCmd) = dbsSem.fold (0, b) none T ↔
      ∀ A w B, T = A ++ w :: B → w.db ≠ 0 → w.op = .del b → MadeGood b A B := by
  have hforeign : ∀ w : DbWrite, w.db ≠ 0 → w.op = .del b → foreignKey w = some b := by
    intro w hw hop
    rw [foreignKey_eq w hw, hop]
    rfl
  by_cases h : ∃ w ∈ T, foreignKey w = some b
  · obtain ⟨A, w, B, hT, hkey, hB⟩ := KeyedLog.exists_lastTouch h
    have hw := (foreignKey_eq_some hkey).1
    have hdel := last_foreign_del hT hkey hB (hempty w.db hw)
    rw [fold_foreign_del_iff hb hT hplain hincr hw hdel hB]
    refine ⟨?_, fun hall => hall A w B hT hw hdel⟩
    intro hgood A' w' B' hT' hw' hdel'
    rcases KeyedLog.append_cons_cases (hT.symm.trans hT') with ⟨rfl, rfl, rfl⟩ | hlater | hearlier
    · exact hgood
    · exact absurd (hforeign w' hw' hdel') (hB w' hlater)
    · -- an earlier `DEL` is followed by the last one
      refine .inl ⟨w.logCmd, List.mem_map_of_mem hearlier, ?_⟩
      rw [LogCmd.overwrites, w.logCmd_del hdel]
      exact decide_eq_true rfl
  · have hnone : ∀ w ∈ T, foreignKey w ≠ some b := fun w hw hkey => h ⟨w, hw, hkey⟩
    refine iff_of_true ?_ fun A w B hT hw hdel => absurd (hforeign w hw hdel) (hnone w (by simp [hT]))
    exact (fold_home hb none T hplain hnone fun A w B hT hw hop => hincr A w B hT hw b hop).symm

/-! ### All keys -/

/-- Recovery sees no trace of the other databases: they are empty, and a `DEL` in one of them
of a key that also exists in database 0 is made good by a later `SET` or `DEL` of the key, or
by increments if the key held zero. -/
def DatabasesApart (T : List DbWrite) : Prop :=
  (∀ d b, d ≠ 0 → dbsSem.fold (d, b) none T = none) ∧
    ∀ A w B b, T = A ++ w :: B → w.db ≠ 0 → w.op = .del b → MadeGood b A B

theorem loggedWrites_subset (dbs : Dbs) : loggedWrites ws dbs ⊆ ws := by
  induction ws generalizing dbs with
  | nil => exact List.Subset.refl _
  | cons w ws ih =>
    rw [loggedWrites_cons]
    refine append_subset.mpr ⟨?_, List.Subset.trans (ih _) (subset_cons_self w ws)⟩
    split_ifs <;> simp

theorem plain_key (hplain : w.op.op.Plain) (hkey : redisSem.key w.op.op = some b) : (cstr b).val = b := by
  apply cstr_val_of_nul_free
  revert hplain hkey
  cases w.op with
  | set k v => exact fun h hk => some.inj hk ▸ h.1.2
  | incr k => exact fun h hk => some.inj hk ▸ h.2
  | del k => exact fun h hk => some.inj hk ▸ h.2

theorem recovered_writes (T : List DbWrite) (b : Bytes) :
    recovered (indexRecords Multimap.empty (T.map DbWrite.logCmd)) b =
      if (cstr b).val = b then recordSem.fold (cstr b) none (T.map DbWrite.logCmd) else none := by
  rw [recovered, view_indexRecords_apply, view_empty]

theorem recoveredDbs_iff (hplain : ∀ w ∈ T, w.op.op.Plain) (hincr : HomeIncrsOk T) {s : Server}
    (hs : s.db = recovered (indexRecords Multimap.empty (T.map DbWrite.logCmd))) :
    (∀ d b, recoveredDbs s d b = dbsSem.fold (d, b) none T) ↔ DatabasesApart T := by
  have hzero : ∀ b, recoveredDbs s 0 b =
      if (cstr b).val = b then recordSem.fold (cstr b) none (T.map DbWrite.logCmd) else none := by
    intro b
    change s.db b = _
    rw [hs, recovered_writes]
  refine ⟨?_, ?_⟩
  · intro h
    have hempty : ∀ d b, d ≠ 0 → dbsSem.fold (d, b) none T = none := by
      intro d b hd
      cases d with
      | zero => exact absurd rfl hd
      | succ i => exact (h (i + 1) b).symm
    refine ⟨hempty, fun A w B b hT hw hdel => ?_⟩
    have hb : (cstr b).val = b := plain_key (hplain w (by simp [hT])) (by rw [hdel]; rfl)
    have hkey := h 0 b
    rw [hzero, if_pos hb] at hkey
    exact (recovered_key_iff hb hplain hincr fun d hd => hempty d b hd).mp hkey A w B hT hw hdel
  · intro ⟨hempty, hgood⟩ d b
    cases d with
    | succ i => exact (hempty (i + 1) b i.succ_ne_zero).symm
    | zero =>
      rw [hzero]
      split_ifs with hb
      · exact (recovered_key_iff hb hplain hincr fun d hd => hempty d b hd).mpr fun A w B => hgood A w B b
      · symm
        apply dbsSem.fold_of_untouched
        intro w hw hkey
        obtain ⟨k, hk, hpair⟩ := map_eq_some_iff.mp hkey
        obtain ⟨-, rfl⟩ := Prod.mk.inj hpair
        exact hb (plain_key (hplain w hw) hk)

/-- The same for the database that the loader ends with, whatever lies behind the blocks. -/
theorem loadedDbs_iff (hplain : ∀ w ∈ T, w.op.op.Plain) (hincr : HomeIncrsOk T) {idx : IndexedLog}
    (hidx : idx = indexRecords Multimap.empty (T.map DbWrite.logCmd)) (m : Allocator) :
    (∀ m' : Allocator, m'.usable = m.usable → ∀ cur, idx.IsCursor cur → ∀ d b,
        recoveredDbs (loadDBFromIndexedLog m' idx cur) d b = dbsSem.fold (d, b) none T) ↔
      DatabasesApart T ∧ Roomy m.usable idx := by
  subst hidx
  have hredo := redoable_indexRecords redoable_empty (T.map DbWrite.logCmd)
  have hiff : ∀ {m' : Allocator} {cur}, Roomy m'.usable (indexRecords Multimap.empty (T.map DbWrite.logCmd)) →
      (indexRecords Multimap.empty (T.map DbWrite.logCmd)).IsCursor cur → ((∀ d b, recoveredDbs
        (loadDBFromIndexedLog m' (indexRecords Multimap.empty (T.map DbWrite.logCmd)) cur) d b =
          dbsSem.fold (d, b) none T) ↔ DatabasesApart T) := by
    intro m' cur hroom hcur
    exact recoveredDbs_iff hplain hincr ((loadDBFromIndexedLog_db m' hredo hcur).2.trans (Allocator.recovered_eq hroom))
  refine ⟨fun h => ?_, fun ⟨hapart, hroom⟩ m' hm cur hcur => (hiff (hm ▸ hroom) hcur).mpr hapart⟩
  have hroom := roomy_of_loaded m hredo fun m' hm cur hcur => funext (h m' hm cur hcur 0)
  exact ⟨(hiff hroom (Multimap.cursor_isCursor _)).mp (h m rfl _ (Multimap.cursor_isCursor _)), hroom⟩

/-- The log of the writes, indexed at the next start, and replayed. -/
theorem recover_writes (hdb : ∀ w ∈ ws, w.db < dbnum) (aofLoadTruncated : Bool) (now : ℤ) (m : Allocator) :
    ∃ s, (Redis.started m).run Multimap.empty (ws.map DbWrite.call) = .returned s ∧
      s.dbs = (fun d b => dbsSem.fold (d, b) none (loggedWrites ws fun _ => emptyDb)) ∧
      ∀ (files : Files) (replicated : Bool), files.aof = s.aof.buf → (chooseStart files replicated).seek = 0 →
        (chooseStart files replicated).files.indexedLog.openW = some Multimap.empty →
        ∃ r loaded, initialIndexesSequentialLogToIndexedLog files replicated = .returned r ∧
          r.result.files.indexedLog =
            .ok (indexRecords Multimap.empty ((loggedWrites ws fun _ => emptyDb).map DbWrite.logCmd)) ∧
          redisCommandTable.loadAppendOnlyFile dbnum now aofLoadTruncated files.aof (fun _ => emptyDb) startedAof =
            .returned loaded ∧ loaded.data = s.dbs := by
  obtain ⟨s, hrun, hdbs, hbuf⟩ := run_writes Multimap.empty ws (s := Redis.started m) rfl rfl
  have hstarted : (Redis.started m).dbs = fun _ => emptyDb := by
    funext d
    cases d <;> rfl
  rw [hstarted] at hdbs hbuf
  refine ⟨s, hrun, hdbs, fun files replicated haof hseek hopen => ?_⟩
  have hlog : files.aof = recordBytes (logRecords (-1) (loggedWrites ws fun _ => emptyDb)) := by
    rw [haof, hbuf]
    rfl
  have hread : fseek files.aof (chooseStart files replicated).seek =
      entryBytes ((logRecords (-1) (loggedWrites ws fun _ => emptyDb)).map Record.entry) := by
    rw [hlog, hseek]
    rfl
  obtain ⟨r, hindexed, hidx, -⟩ := initialIndexes_result (keyed_logRecords _ _) hread hopen
  rw [indexEntries_logRecords] at hidx
  have hnone : ∀ i : ℕ, (i : ℤ) = -1 → (createFakeClient : FakeClient Dbs).db = i :=
    fun i hi => absurd hi (by omega)
  obtain ⟨loaded, hload, hmulti, hdata⟩ := runAll_logRecords dbnum now (loggedWrites ws fun _ => emptyDb)
    (fun w hw => hdb w (loggedWrites_subset ws _ hw)) (s := ⟨createFakeClient, fun _ => emptyDb,
      startedAof⟩) rfl hnone
  refine ⟨r, loaded, hindexed, hidx, ?_, by rw [hdata, hdbs]⟩
  rw [hlog, recordBytes, loadAppendOnlyFile_records, hload, bind_returned, hmulti]
  rfl

/-- Clients write on any databases; the log is indexed at the next start and recovered. Every
database is then as after sequential replay, which brings them all back, with any memory behind
the blocks exactly when the databases stay apart and the counters fit. -/
theorem databases_recovered_iff {dbnum : ℕ} (hdb : ∀ w ∈ ws, w.db < dbnum)
    (hplain : ∀ w ∈ ws, w.op.op.Plain) (hincr : HomeIncrsOk (loggedWrites ws fun _ => emptyDb))
    (aofLoadTruncated : Bool) (now : ℤ) (m : Allocator) :
    ∃ s, (Redis.started m).run Multimap.empty (ws.map DbWrite.call) = .returned s ∧
      ∀ (files : Files) (replicated : Bool), files.aof = s.aof.buf → (chooseStart files replicated).seek = 0 →
        (chooseStart files replicated).files.indexedLog.openW = some Multimap.empty →
        ∃ r idx loaded, initialIndexesSequentialLogToIndexedLog files replicated = .returned r ∧
          r.result.files.indexedLog = .ok idx ∧
          redisCommandTable.loadAppendOnlyFile dbnum now aofLoadTruncated files.aof (fun _ => emptyDb) startedAof =
            .returned loaded ∧ loaded.data = s.dbs ∧
          (∀ cur, idx.IsCursor cur → (loadDBFromIndexedLog m idx cur).loader.pc = .done) ∧
          ((∀ m' : Allocator, m'.usable = m.usable → ∀ cur, idx.IsCursor cur → ∀ d b,
              recoveredDbs (loadDBFromIndexedLog m' idx cur) d b = loaded.data d b) ↔
            DatabasesApart (loggedWrites ws fun _ => emptyDb) ∧ Roomy m.usable idx) := by
  obtain ⟨s, hrun, hdbs, hfiles⟩ := recover_writes ws hdb aofLoadTruncated now m
  refine ⟨s, hrun, fun files replicated haof hseek hopen => ?_⟩
  obtain ⟨r, loaded, hindexed, hidx, hload, hdata⟩ := hfiles files replicated haof hseek hopen
  have hredo := redoable_indexRecords redoable_empty ((loggedWrites ws fun _ => emptyDb).map DbWrite.logCmd)
  refine ⟨r, _, loaded, hindexed, hidx, hload, hdata, fun cur hcur => (loadDBFromIndexedLog_db m hredo hcur).1, ?_⟩
  rw [hdata, hdbs]
  exact loadedDbs_iff (fun w hw => hplain w (loggedWrites_subset ws _ hw)) hincr rfl m

/-- `SET n 9` on the database `d`. -/
def setOn (d : ℕ) (hd : d < 2 ^ 31) : DbWrite where
  now := 0
  db := d
  db_int := hd
  op := .set (ascii ['n']) (ascii ['9']) []
  word := SET_COMMAND
  spelled := rfl
  argc_int := by decide
  fits := by decide
  timeless := by decide

/-- `DEL n` on the database `d`. -/
def delOn (d : ℕ) (hd : d < 2 ^ 31) : DbWrite where
  now := 0
  db := d
  db_int := hd
  op := .del (ascii ['n'])
  word := DEL_COMMAND
  spelled := rfl
  argc_int := by decide
  fits := by decide
  timeless := trivial

def logFiles (aof : Bytes) : Files := { freshFiles [] with aof := aof }

/-- A key that is set and deleted on database 1, then set on database 0. -/
def apartWrites : List DbWrite := [setOn 1 (by decide), delOn 1 (by decide), setOn 0 (by decide)]

theorem apartWrites_recovered :
    ∃ s, (Redis.started jemalloc).run Multimap.empty (apartWrites.map DbWrite.call) = .returned s ∧
      ∃ r idx loaded, initialIndexesSequentialLogToIndexedLog (logFiles s.aof.buf) false = .returned r ∧
        r.result.files.indexedLog = .ok idx ∧
        redisCommandTable.loadAppendOnlyFile 16 0 true (logFiles s.aof.buf).aof (fun _ => emptyDb) startedAof =
          .returned loaded ∧ loaded.data = s.dbs ∧
        (∀ cur, idx.IsCursor cur → (loadDBFromIndexedLog jemalloc idx cur).loader.pc = .done) ∧
        ((∀ m' : Allocator, m'.usable = jemalloc.usable → ∀ cur, idx.IsCursor cur → ∀ d b,
            recoveredDbs (loadDBFromIndexedLog m' idx cur) d b = loaded.data d b) ↔
          DatabasesApart (loggedWrites apartWrites fun _ => emptyDb) ∧ Roomy jemalloc.usable idx) := by
  have hincr : HomeIncrsOk (loggedWrites apartWrites fun _ => emptyDb) := by
    intro A w B hT _ k hop
    have hw : w ∈ apartWrites := loggedWrites_subset apartWrites _ (by rw [hT]; simp)
    simp only [apartWrites, mem_cons, not_mem_nil, or_false] at hw
    rcases hw with rfl | rfl | rfl <;> cases hop
  obtain ⟨s, hrun, hfiles⟩ := databases_recovered_iff apartWrites
    (show ∀ w ∈ apartWrites, w.db < 16 by decide) (by decide) hincr true 0 jemalloc
  exact ⟨s, hrun, hfiles (logFiles s.aof.buf) false rfl rfl rfl⟩

/-- `SET n 9` on database 1: recovery puts the key into database 0. -/
theorem foreign_set_leaks :
    ∃ s, (Redis.started jemalloc).run Multimap.empty ([setOn 1 (by decide)].map DbWrite.call) = .returned s ∧
      ∃ r idx loaded, initialIndexesSequentialLogToIndexedLog (logFiles s.aof.buf) false = .returned r ∧
        r.result.files.indexedLog = .ok idx ∧
        redisCommandTable.loadAppendOnlyFile 16 0 true (logFiles s.aof.buf).aof (fun _ => emptyDb) startedAof =
          .returned loaded ∧ loaded.data 0 (ascii ['n']) = none ∧
            loaded.data 1 (ascii ['n']) = some (ascii ['9']) ∧
        recoveredDbs (loadDBFromIndexedLog jemalloc idx idx.cursor) 0 (ascii ['n']) = some (ascii ['9']) ∧
        recoveredDbs (loadDBFromIndexedLog jemalloc idx idx.cursor) 1 (ascii ['n']) = none := by
  obtain ⟨s, hrun, hdbs, hfiles⟩ := recover_writes [setOn 1 (by decide)]
    (show ∀ w ∈ [setOn 1 (by decide)], w.db < 16 by decide) true 0 jemalloc
  obtain ⟨r, loaded, hindexed, hidx, hload, hdata⟩ := hfiles (logFiles s.aof.buf) false rfl rfl rfl
  rw [hdbs] at hdata
  refine ⟨s, hrun, r, _, loaded, hindexed, hidx, hload, ?_, ?_, by decide +kernel, rfl⟩
  · rw [hdata]
    decide +kernel
  · rw [hdata]
    decide +kernel

end RedisIR
