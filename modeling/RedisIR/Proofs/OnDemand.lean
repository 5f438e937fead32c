import RedisIR.Proofs.Databases

/-! What a call appends to the log while recovery is on. The change of `server.dirty` by the
load of a key on demand makes `call` propagate a command that itself has changed nothing. -/

namespace RedisIR

open CLib List

variable {s : Redis}

/-! ### Reading back what was fed -/

theorem length_le_commandBytes (cmds : List (List Bytes)) : cmds.length ≤ (commandBytes cmds).length := by
  induction cmds with
  | nil => simp
  | cons argv cmds ih =>
    have hne : 0 < (catAppendOnlyGenericCommand [] argv).length := by simp [catAppendOnlyGenericCommand]
    simp only [commandBytes, flatMap_cons, length_append, length_cons] at ih ⊢
    omega

theorem readCommands_commandBytes (cmds : List (List Bytes)) (h : ∀ argv ∈ cmds, ArgvFits argv) {fuel : ℕ}
    (hfuel : cmds.length ≤ fuel) : readCommands fuel (commandBytes cmds) = cmds := by
  induction cmds generalizing fuel with
  | nil => cases fuel <;> rfl
  | cons argv cmds ih =>
    obtain ⟨fuel, rfl⟩ := Nat.exists_eq_succ_of_ne_zero (Nat.ne_zero_of_lt hfuel)
    have hread := readCommand_bytes (entryOf argv (h argv (by simp))) (commandBytes cmds)
    change readCommand (commandBytes (argv :: cmds)) = .ok (argv, commandBytes cmds) at hread
    rw [readCommands, hread]
    exact congrArg (argv :: ·) (ih (forall_mem_cons.mp h).2 (Nat.le_of_succ_le_succ hfuel))

/-! ### What the translation of a command looks like -/

variable (o : ClientOp) (ks : List Bytes) (now : ℤ) (c : ClientCmd)

theorem ClientCmd.argv_fits : ArgvFits c.argv := by
  have hword : c.word.length = c.op.name.length := by rw [← c.spelled, sdstoupper, length_map]
  have hname : c.op.name.length ≤ 4 := by cases c.op <;> simp only [ClientOp.name] <;> decide
  refine ⟨Nat.succ_pos _, c.argc_int, ?_⟩
  exact forall_mem_cons.mpr ⟨by omega, c.fits⟩

theorem wrapLongLong_range (i : ℤ) : -2 ^ 63 ≤ wrapLongLong i ∧ wrapLongLong i < 2 ^ 63 := by
  have hle := Int.le_bmod (x := i) (m := 2 ^ 64) (by norm_num)
  have hlt := Int.bmod_lt (x := i) (m := 2 ^ 64) (by norm_num)
  unfold wrapLongLong
  norm_num at hle hlt ⊢
  omega

theorem expireAt_fits {proc : AofProc} (hproc : proc = .expire ∨ proc = .pexpire) {key : Bytes}
    (hkey : key.length < 2 ^ 63) (seconds : Bytes) : ArgvFits (expireAt now proc key seconds) := by
  obtain ⟨i, hi⟩ : ∃ i, expireAt now proc key seconds = [PEXPIREAT_COMMAND, key, decimal (wrapLongLong i)] := by
    rcases hproc with rfl | rfl <;> exact ⟨_, rfl⟩
  have hlen := decimal_length_le (wrapLongLong_range i).1 (wrapLongLong_range i).2
  rw [hi]
  refine ⟨by simp, by simp, ?_⟩
  simp only [mem_cons, not_mem_nil, or_false, forall_eq_or_imp, forall_eq]
  exact ⟨by decide, hkey, by omega⟩

theorem translate_cases {cmds : List (List Bytes)}
    (h : translate now c.op.aofProc c.argv = .returned cmds) : cmds = [c.argv] ∨ cmds = [c.argv.take 3] ∨
      ∃ proc seconds, (proc = .expire ∨ proc = .pexpire) ∧
        cmds = [c.argv.take 3, expireAt now proc (c.argv.getD 1 []) seconds] := by
  revert h
  cases c.op.aofProc_cases with
  | inl hother =>
    rw [hother]
    exact fun h => .inl (Outcome.returned.inj h).symm
  | inr hset =>
    rw [hset, translate]
    split_ifs with hlen
    · cases expireArgs (c.argv.drop 3) none none with
      | exited => exact fun h => by cases h
      | overflowed => exact fun h => by cases h
      | returned args =>
        obtain ⟨_ | ex, _ | px⟩ := args
        · exact fun h => .inr (.inl (Outcome.returned.inj h).symm)
        · exact fun h => .inr (.inr ⟨_, px, .inr rfl, (Outcome.returned.inj h).symm⟩)
        · exact fun h => .inr (.inr ⟨_, ex, .inl rfl, (Outcome.returned.inj h).symm⟩)
        · exact fun h => by cases h
    · exact fun h => .inl (Outcome.returned.inj h).symm

theorem translate_fits {cmds : List (List Bytes)}
    (h : translate now c.op.aofProc c.argv = .returned cmds) : cmds ≠ [] ∧ ∀ argv ∈ cmds, ArgvFits argv := by
  have hargv := c.argv_fits
  have htake : ArgvFits (c.argv.take 3) := by
    refine ⟨?_, (length_take_le' _ _).trans_lt hargv.2.1, fun a ha => hargv.2.2 a (mem_of_mem_take ha)⟩
    have := hargv.1
    rw [length_take]
    omega
  have hkey : (c.argv.getD 1 []).length < 2 ^ 63 := by
    rw [getD_eq_getElem?_getD]
    cases hget : c.argv[1]? with
    | none => simp
    | some a => exact hargv.2.2 a (mem_of_getElem? hget)
  rcases translate_cases now c h with rfl | rfl | ⟨proc, seconds, hproc, rfl⟩
  · simpa using hargv
  · simpa using htake
  · simpa using ⟨htake, expireAt_fits now hproc hkey seconds⟩

/-- The time of the call shows only in the absolute expire time. -/
theorem translate_eraseTime (now now' : ℤ) (c : ClientCmd) (pre : List (List Bytes)) :
    ((translate now c.op.aofProc c.argv).bind fun cmds => .returned ((pre ++ cmds).map eraseTime)) =
      (translate now' c.op.aofProc c.argv).bind fun cmds => .returned ((pre ++ cmds).map eraseTime) := by
  cases c.op.aofProc_cases with
  | inl hother =>
    rw [hother]
    rfl
  | inr hset =>
    rw [hset, translate, translate]
    split_ifs with hlen
    · cases expireArgs (c.argv.drop 3) none none with
      | exited => rfl
      | overflowed => rfl
      | returned args =>
        obtain ⟨_ | ex, _ | px⟩ := args
        · rfl
        · simp [eraseTime, expireAt]
        · simp [eraseTime, expireAt]
        · rfl
    · rfl

/-! ### What a call appends -/

/-- What a command appends, up to the absolute expire time, if `server.dirty` has already
grown by `n`. -/
theorem execute_appends (n : ℕ) (c : ClientCall) (hon : s.aof.state = .on) :
    ((s.execute n c).bind fun r => .returned ((r.appended s.aof).map eraseTime)) =
      if 0 < n + (c.cmd.op.proc (s.dbs c.db)).dirty then (translate c.now c.cmd.op.aofProc c.cmd.argv).bind fun cmds =>
          .returned ((selectCommands c.db s.aof.selectedDb ++ cmds).map eraseTime) else .returned [] := by
  rw [Redis.execute_on hon]
  split_ifs with hdirty
  · cases htranslate : translate c.now c.cmd.op.aofProc c.cmd.argv with
    | exited => rfl
    | overflowed => rfl
    | returned cmds =>
      have hfits : ∀ argv ∈ selectCommands c.db s.aof.selectedDb ++ cmds, ArgvFits argv := by
        intro argv h
        rcases mem_append.mp h with h | h
        · unfold selectCommands at h
          split_ifs at h
          · rw [mem_singleton.mp h]
            exact select_fits c.db_int
          · cases h
        · exact (translate_fits c.now c.cmd htranslate).2 argv h
      have hread := readCommands_commandBytes _ hfits (length_le_commandBytes _)
      simp [Outcome.bind_returned, Served.appended, hread]
  · simp [Served.appended, readCommands]

/-- The same for a whole call, by what the restore on demand leaves. -/
theorem appends_of_restore {idx : IndexedLog} {c : ClientCall} {s₁ : Redis} {n : ℕ}
    (h : restoreOnDemand idx c.cmd.op.cmd s.server = (s₁.server, n)) (hs : s₁ = { s with server := s₁.server })
    (hon : s.aof.state = .on) : s.appends idx c = if 0 < n + (c.cmd.op.proc (s₁.dbs c.db)).dirty then
        (translate c.now c.cmd.op.aofProc c.cmd.argv).bind fun cmds =>
          .returned ((selectCommands c.db s.aof.selectedDb ++ cmds).map eraseTime) else .returned [] := by
  have haof : s₁.aof = s.aof := by rw [hs]
  have happ := execute_appends n c (s := s₁) (by rw [haof, hon])
  rw [haof] at happ
  rw [Redis.appends, Redis.call, h, ← happ]
  dsimp only
  rw [← hs]

/-- On database 0 and without options, this is the `call` of the recovery model, and it writes
to the log exactly when that one propagates. -/
theorem call_single_database (idx : IndexedLog) {c : ClientCall} (hdb : c.db = 0)
    (hoptions : ∀ k v options, c.cmd.op = .set k v options → options = []) (hon : s.aof.state = .on) :
    ∃ r, s.call idx c = .returned r ∧ r.redis.server = (call idx c.cmd.op.cmd s.server).server ∧
      r.reply = (call idx c.cmd.op.cmd s.server).reply ∧
      (r.redis.aof.buf = s.aof.buf ↔ (call idx c.cmd.op.cmd s.server).propagated = none) := by
  obtain ⟨now, db, hdbint, ⟨op, word, hword, hargc, hfits⟩⟩ := c
  obtain rfl : db = 0 := hdb
  have hproc : op.proc = op.cmd.proc := by
    cases op with
    | set k v options =>
      obtain rfl := hoptions k v options rfl
      rfl
    | _ => rfl
  have htranslate : translate now op.aofProc (word :: op.args) = .returned [word :: op.args] := by
    cases op with
    | set k v options =>
      obtain rfl := hoptions k v options rfl
      rfl
    | _ => rfl
  have hlogged : op.cmd.logged = true := by cases op <;> rfl
  have hgrew : commandBytes (selectCommands 0 s.aof.selectedDb ++ [word :: op.args]) ≠ [] := by
    simp [commandBytes, catAppendOnlyGenericCommand]
  rw [Redis.call, Redis.execute_on (s := { s with server := (restoreOnDemand idx op.cmd s.server).1 }) hon]
  simp only [call, hlogged, and_true, hproc, Redis.dbs, ClientCmd.argv, htranslate, Outcome.bind_returned]
  split_ifs with hdirty
  · exact ⟨_, rfl, rfl, rfl, iff_of_false (fun h => hgrew (append_right_eq_self.mp h)) (by simp)⟩
  · exact ⟨_, rfl, rfl, rfl, iff_of_true rfl rfl⟩

/-! ### Real changes -/

def ClientOp.Changes : ClientOp → Db → Prop
  | .set k _ options, db =>
    ∃ f, setOptions options OBJ_SET_NO_FLAGS = some f ∧
      (∀ expire ∈ f.expire, ∃ time, string2ll expire = some time ∧ 0 < time) ∧
      (f.nx = true → db k = none) ∧ (f.xx = true → db k ≠ none)
  | .get _, _ => False
  | .incr k, db => ∃ n, getLongLongFromObject (db k) = some n ∧ n < LLONG_MAX
  | .del k ks, db => ∃ b ∈ k :: ks, db b ≠ none

theorem setGenericCommand_dirty (nx xx : Bool) (k v : Bytes) (c : Cmd) (db : Db) :
    0 < (setGenericCommand nx xx k v c db).dirty ↔ (nx = true → db k = none) ∧ (xx = true → db k ≠ none) := by
  unfold setGenericCommand
  cases nx <;> cases xx <;> cases db k <;> simp

theorem setGenericCommandFlags_dirty (f : SetFlags) (k v : Bytes) (c : Cmd) (db : Db) :
    0 < (setGenericCommandFlags f k v c db).dirty ↔
      (∀ expire ∈ f.expire, ∃ time, string2ll expire = some time ∧ 0 < time) ∧
        (f.nx = true → db k = none) ∧ (f.xx = true → db k ≠ none) := by
  unfold setGenericCommandFlags
  cases hexpire : f.expire with
  | none => simp [setGenericCommand_dirty]
  | some expire =>
    cases htime : string2ll expire with
    | none => simp [htime]
    | some time =>
      simp only [Option.mem_def, Option.some.injEq, forall_eq', htime, exists_eq_left']
      split_ifs with hle
      · simp [Int.not_lt.mpr hle]
      · rw [setGenericCommand_dirty]
        simp [Int.not_le.mp hle]

theorem le_delLoop (db : Db) (n : ℕ) : n ≤ (delLoop ks db n).2 := by
  induction ks generalizing db n with
  | nil => exact le_rfl
  | cons k ks ih =>
    unfold delLoop
    split_ifs
    · exact (Nat.le_succ n).trans (ih _ _)
    · exact ih _ _

theorem delLoop_lt_iff (db : Db) (n : ℕ) : n < (delLoop ks db n).2 ↔ ∃ b ∈ ks, db b ≠ none := by
  induction ks generalizing db n with
  | nil => simp [delLoop]
  | cons k ks ih =>
    unfold delLoop
    split_ifs with hk
    · exact iff_of_true (le_delLoop ks _ (n + 1)) ⟨k, by simp, Option.isSome_iff_ne_none.mp hk⟩
    · rw [ih]
      simp only [Option.isSome_iff_ne_none, not_not] at hk
      simp [hk]

theorem dirty_pos_iff (db : Db) : 0 < (o.proc db).dirty ↔ o.Changes db := by
  cases o with
  | set k v options =>
    change 0 < (setCommandOptions k v options db).dirty ↔ _
    unfold setCommandOptions ClientOp.Changes
    cases hopt : setOptions options OBJ_SET_NO_FLAGS with
    | none => simp [hopt]
    | some f => simpa [hopt] using setGenericCommandFlags_dirty f k v (.set k v) db
  | get k =>
    change 0 < (getCommand k db).dirty ↔ False
    unfold getCommand
    cases db k <;> simp
  | incr k =>
    change 0 < (incrCommand k db).dirty ↔ ∃ n, _
    unfold incrCommand incrDecrCommand
    cases getLongLongFromObject (db k) with
    | none => simp
    | some n =>
      simp only [Option.some.injEq, exists_eq_left']
      unfold LLONG_MIN LLONG_MAX
      split_ifs <;> simp <;> omega
  | del k ks => exact delLoop_lt_iff (k :: ks) db 0

/-! ### During recovery -/

/-- The `setIR` of a load on demand counts as a change exactly when the key was not in
memory. -/
theorem loadRecord_dirty {idx : IndexedLog} {k : CStr} (hidx : idx.get k ≠ []) (s : Server) :
    0 < (loadRecordFromIndexedLog idx k s).2 ↔ s.db k.val = none := by
  unfold loadRecordFromIndexedLog
  rw [if_neg hidx]
  simpa [setIRCommand] using setGenericCommand_dirty true false k.val _ _ s.db

/-- A propagated command appends something, or the server does not survive it. -/
theorem translate_appends_ne (pre : List (List Bytes)) :
    ((translate now c.op.aofProc c.argv).bind fun cmds => .returned ((pre ++ cmds).map eraseTime)) ≠
      .returned [] := by
  cases htranslate : translate now c.op.aofProc c.argv with
  | exited => exact fun h => by cases h
  | overflowed => exact fun h => by cases h
  | returned cmds =>
    intro h
    have hnil := Outcome.returned.inj h
    rw [map_eq_nil_iff, append_eq_nil_iff] at hnil
    exact (translate_fits now c htranslate).1 hnil.2

/-- While recovery is on, a command on a key that is not restored yet appends what it appends
once the key is loaded, up to the absolute expire time, exactly when the key is in memory
already or the command changes the loaded database. Once the key is loaded, a command that
changes nothing appends nothing. -/
theorem real_changes_logged_iff {idx : IndexedLog} {k : CStr} (hidx : idx.get k ≠ []) {s : Redis}
    (hperforming : s.server.performing = true) (hrestored : k ∉ s.server.restored) (hon : s.aof.state = .on)
    {c : ClientCall} (hkey : c.cmd.op.cmd.onDemand = some k.val) (now : ℤ) :
    (s.appends idx c = (s.loaded idx k).appends idx { c with now := now } ↔
        s.server.db k.val ≠ none ∨ c.cmd.op.Changes ((s.loaded idx k).dbs c.db)) ∧
      (¬ c.cmd.op.Changes ((s.loaded idx k).dbs c.db) →
        (s.loaded idx k).appends idx { c with now := now } = .returned []) := by
  have hload := loadRecord_dirty hidx s.server
  have hcold : restoreOnDemand idx c.cmd.op.cmd s.server =
      ((s.loaded idx k).server, (loadRecordFromIndexedLog idx k s.server).2) := by
    simp [restoreOnDemand, hkey, cstr_val, hperforming, isRestoredTuple, hrestored, Redis.loaded]
  have hwarm : restoreOnDemand idx c.cmd.op.cmd (s.loaded idx k).server = ((s.loaded idx k).server, 0) := by
    have hmem : isRestoredTuple (s.loaded idx k).server k = true := by
      simp [Redis.loaded, loadRecordFromIndexedLog, hidx, isRestoredTuple, addRestoredTuple]
    simp [restoreOnDemand, hkey, cstr_val, hmem]
  have hlater := appends_of_restore (c := { c with now := now }) hwarm rfl hon
  rw [Nat.zero_add] at hlater
  rw [appends_of_restore hcold rfl hon, hlater, ← dirty_pos_iff]
  by_cases hchange : 0 < (c.cmd.op.proc ((s.loaded idx k).dbs c.db)).dirty
  · rw [if_pos hchange, if_pos (by omega)]
    exact ⟨iff_of_true (translate_eraseTime ..) (.inr hchange), fun h => absurd hchange h⟩
  · rw [if_neg hchange, or_iff_left hchange]
    refine ⟨?_, fun _ => rfl⟩
    by_cases hnone : s.server.db k.val = none
    · rw [if_pos (Nat.add_pos_left (hload.mpr hnone) _)]
      exact iff_of_false (translate_appends_ne c.now c.cmd _) (not_not.mpr hnone)
    · rw [if_neg (by have := mt hload.mp hnone; omega)]
      exact iff_of_true rfl hnone

/-- The indexed log of `SET n 9`. -/
def nineLog : IndexedLog := indexRecords Multimap.empty [setCounter]

def recoveringNine : Redis where
  server := Server.recovering jemalloc nineLog.cursor
  others := fun _ => emptyDb
  aof := startedAof

def loadedNine : Redis := recoveringNine.loaded nineLog (cstr (ascii ['n']))

theorem ClientOp.sdstoupper_name : sdstoupper o.name = o.name := by
  cases o <;> rfl

theorem database_zero_int : 0 < 2 ^ 31 := by decide

/-- A command of a client on database 0, its word as the table has it. -/
def ClientOp.onZero (o : ClientOp) (hargc : (o.name :: o.args).length < 2 ^ 31)
    (hfits : ∀ a ∈ o.args, a.length < 2 ^ 63) : ClientCall :=
  ⟨0, 0, database_zero_int, ⟨o, o.name, o.sdstoupper_name, hargc, hfits⟩⟩

/-- `INCR n` on database 0. -/
def incrCall : ClientCall := ClientOp.onZero (.incr (ascii ['n'])) (by decide) (by decide)

theorem real_changes_logged_incr : (recoveringNine.appends nineLog incrCall = loadedNine.appends nineLog incrCall ↔
        recoveringNine.server.db (ascii ['n']) ≠ none ∨ incrCall.cmd.op.Changes (loadedNine.dbs 0)) ∧
      (¬ incrCall.cmd.op.Changes (loadedNine.dbs 0) → loadedNine.appends nineLog incrCall = .returned []) := by
  have hnot : cstr (ascii ['n']) ∉ recoveringNine.server.restored := not_mem_nil
  exact real_changes_logged_iff (by decide +kernel) rfl hnot rfl (c := incrCall) (by decide +kernel) 0

/-- `GET n` on database 0. -/
def getCall : ClientCall := ClientOp.onZero (.get (ascii ['n'])) (by decide) (by decide)

/-- `SET n 1 NX` on database 0. -/
def setNxCall : ClientCall := ClientOp.onZero (.set (ascii ['n']) (ascii ['1']) [NX]) (by decide) (by decide)

/-- During recovery `GET n` is logged, and so is `SET n 1 NX` although it fails, without the
`NX`; with the key loaded neither is. -/
theorem reads_are_logged : recoveringNine.appends nineLog getCall =
        .returned [[SELECT_COMMAND, ascii ['0']], [GET_COMMAND, ascii ['n']]] ∧
      loadedNine.appends nineLog getCall = .returned [] ∧ recoveringNine.appends nineLog setNxCall =
        .returned [[SELECT_COMMAND, ascii ['0']], [SET_COMMAND, ascii ['n'], ascii ['1']]] ∧
      loadedNine.appends nineLog setNxCall = .returned [] := by
  exact ⟨rfl, rfl, rfl, rfl⟩

end RedisIR
