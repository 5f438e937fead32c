import RedisIR.Proofs.BinarySafety

/-! Which keys exist after a restart. `DEL` takes any number of keys, the indexers look at
the first one only. -/

namespace RedisIR

open CLib List KeyedLog Option

variable {c : Cmd} {cmds : List Cmd} {E : List Entry}

def Cmd.names : Cmd → List Bytes
  | .set k _ => [k]
  | .incr k => [k]
  | .del ks => ks
  | _ => []

/-- After `SET` and `INCR` the key exists. -/
def Cmd.creates : Cmd → Bool
  | .set _ _ => true
  | .incr _ => true
  | _ => false

/-- `SET k v`, `INCR k`, and `DEL` of one key or more. -/
def Cmd.isWrite : Cmd → Bool
  | .set _ _ => true
  | .incr _ => true
  | .del ks => ks ≠ []
  | _ => false

/-! ### The last command that concerns a key -/

def concernKey (concerns : Cmd → Prop) [DecidablePred concerns] (c : Cmd) : Option Unit :=
  if concerns c then some () else none

/-- The log has a command that concerns the key, and the last such command creates it. -/
def EndsAlive (concerns : Cmd → Prop) [DecidablePred concerns] (L : List Cmd) : Prop :=
  ∃ A c, KeyedLog.LastTouch (concernKey concerns) () L A c ∧ c.creates = true

/-- Whether the key exists after the log, if `x` says so before. -/
def aliveAfter (concerns : Cmd → Prop) [DecidablePred concerns] (x : Bool) (L : List Cmd) : Bool :=
  L.foldl (fun x c => if concerns c then c.creates else x) x

theorem aliveAfter_iff (concerns : Cmd → Prop) [DecidablePred concerns] (L : List Cmd) :
    aliveAfter concerns false L = true ↔ EndsAlive concerns L := by
  -- from the end of the log, where the last command is
  induction L using List.reverseRecOn with
  | nil =>
    refine iff_of_false (by simp [aliveAfter]) ?_
    intro ⟨A, c, hlast, _⟩
    exact lastTouch_nil hlast
  | append_singleton L c ih =>
    have hfold : aliveAfter concerns false (L ++ [c]) =
        if concerns c then c.creates else aliveAfter concerns false L := by
      simp [aliveAfter]
    rw [hfold]
    unfold EndsAlive
    by_cases hc : concerns c
    · have hkey : concernKey concerns c = some () := if_pos hc
      simp only [lastTouch_concat_of_eq hkey, if_pos hc]
      refine ⟨fun h => ⟨L, c, ⟨rfl, rfl⟩, h⟩, ?_⟩
      intro ⟨A, d, ⟨_, hd⟩, h⟩
      exact hd ▸ h
    · have hkey : concernKey concerns c ≠ some () := by simp [concernKey, hc]
      simp only [lastTouch_concat_of_ne hkey, if_neg hc]
      exact ih

/-! ### In memory -/

theorem delLoop_apply (ks : List Bytes) (db : Db) (n : ℕ) (b : Bytes) :
    (delLoop ks db n).1 b = if b ∈ ks then none else db b := by
  induction ks generalizing db n with
  | nil => simp [delLoop]
  | cons k ks ih =>
    unfold delLoop
    by_cases hb : b = k
    · subst hb
      split_ifs <;> simp_all
    · split_ifs <;> simp_all

theorem proc_isSome (hc : c.isWrite = true) (db : Db) (b : Bytes) :
    ((c.proc db).db b).isSome = if b ∈ c.names then c.creates else (db b).isSome := by
  cases c with
  | set k v => by_cases hb : b = k <;> simp [Cmd.proc, setCommand, setGenericCommand, setKey, Cmd.names,
      Cmd.creates, hb]
  | incr k =>
    rw [Cmd.proc, incrCommand_db]
    by_cases hb : b = k
    · subst hb
      have hsome := Option.isSome_iff_ne_none.mpr (incrValue_ne_none (db b))
      simp [Cmd.names, Cmd.creates, hsome]
    · simp [Cmd.names, hb]
  | del ks =>
    simp only [Cmd.proc, delCommand, delLoop_apply, Cmd.names, Cmd.creates]
    by_cases hb : b ∈ ks <;> simp [hb]
  | _ => simp [Cmd.isWrite] at hc

theorem replay_isSome (hw : ∀ c ∈ cmds, c.isWrite = true) (db : Db) (b : Bytes) :
    ((cmds.foldl (fun db c => (c.proc db).db) db) b).isSome =
      aliveAfter (fun c => b ∈ c.names) (db b).isSome cmds := by
  induction cmds generalizing db with
  | nil => rfl
  | cons c cmds ih =>
    rw [foldl_cons, ih (forall_mem_cons.mp hw).2, proc_isSome (hw c (by simp))]
    rfl

/-! ### In the indexed log -/

theorem lookupCommand_write {argv : List Bytes} (h : lookupCommand argv = some c) (hw : c.isWrite = true) :
    (∃ w k v, argv = [w, k, v] ∧ sdstoupper w = SET_COMMAND ∧ c = .set k v) ∨
      (∃ w k, argv = [w, k] ∧ sdstoupper w = INCR_COMMAND ∧ c = .incr k) ∨
      ∃ w k ks, argv = w :: k :: ks ∧ sdstoupper w = DEL_COMMAND ∧ c = .del (k :: ks) := by
  cases argv with
  | nil => cases h
  | cons w args =>
    simp only [lookupCommand] at h
    by_cases hdel : sdstoupper w = DEL_COMMAND
    · rw [if_pos hdel] at h
      obtain rfl := some.inj h
      cases args with
      | nil => cases hw
      | cons k ks => exact .inr (.inr ⟨w, k, ks, rfl, hdel, rfl⟩)
    · rw [if_neg hdel] at h
      rcases args with _ | ⟨k, _ | ⟨v, _ | _⟩⟩
      · cases h
      · dsimp only at h
        split_ifs at h with hget hincr hselect
        · obtain rfl := some.inj h
          cases hw
        · exact .inr (.inl ⟨w, k, rfl, hincr, (some.inj h).symm⟩)
        · obtain rfl := some.inj h
          cases hw
      · dsimp only at h
        split_ifs at h with hset
        · exact .inl ⟨w, k, v, rfl, hset, (some.inj h).symm⟩
        all_goals
          obtain rfl := some.inj h
          cases hw
      · cases h

theorem word_plain {w name : Bytes} (hname : sdstoupper w = name) (hletters : ∀ b ∈ name, 65 ≤ b) : Plain w := by
  have hmem : ∀ b ∈ w, 65 ≤ toupper b := fun b hb => hletters _ (hname ▸ mem_map_of_mem hb)
  exact ⟨fun h => absurd (hmem _ h) (by decide), fun h => absurd (hmem _ h) (by decide)⟩

theorem Entry.indexOp_write {e : Entry} (he : e.Is c) (hw : c.isWrite = true) : ∃ k data, c.names.head? = some k ∧
      (c.creates = false ∧ e.indexOp = some (.remove (cstr k)) ∨
        c.creates = true ∧ (recordCommand data = SET_COMMAND ∨ recordCommand data = INCR_COMMAND) ∧
          (e.indexOp = some (.replace (cstr k) data) ∨ e.indexOp = some (.add (cstr k) data))) := by
  have hop : ∀ w k args, e.argv = w :: k :: args → Plain w →
      e.indexOp = initialRecord ⟨0, countLine e.argv.length ++ joinArgs e.argv, w, cstr k⟩ ∧
        recordCommand (cstr (countLine e.argv.length ++ joinArgs e.argv)) = sdstoupper w := by
    intro w k args hargv hplain
    refine ⟨?_, ?_⟩
    · simp [Entry.indexOp, hargv, cstr_val_of_nul_free hplain.2]
    · rw [recordCommand, hargv, record_lines hplain.2 hplain.1 (by simp)]
      rfl
  rcases lookupCommand_write he hw with ⟨w, k, v, hargv, hname, rfl⟩ | ⟨w, k, hargv, hname, rfl⟩ |
    ⟨w, k, ks, hargv, hname, rfl⟩
  · obtain ⟨hidx, hrec⟩ := hop w k [v] hargv (word_plain hname (Op.set [] []).name_letters)
    refine ⟨k, _, rfl, .inr ⟨rfl, .inl (hrec.trans hname), .inl ?_⟩⟩
    rw [hidx]
    exact if_pos hname
  · obtain ⟨hidx, hrec⟩ := hop w k [] hargv (word_plain hname (Op.incr []).name_letters)
    refine ⟨k, _, rfl, .inr ⟨rfl, .inr (hrec.trans hname), .inr ?_⟩⟩
    rw [hidx, initialRecord, if_neg (by rw [hname]; decide)]
    exact if_pos hname
  · obtain ⟨hidx, -⟩ := hop w k ks hargv (word_plain hname (Op.del []).name_letters)
    refine ⟨k, cstr [], rfl, .inl ⟨rfl, ?_⟩⟩
    rw [hidx, initialRecord, if_neg (by rw [hname]; decide), if_neg (by rw [hname]; decide)]
    exact if_pos hname

/-- The first key of the command, as the indexers cut it, is `k`. -/
def FirstKey (k : CStr) (c : Cmd) : Prop := c.names.head?.map cstr = some k

instance (k : CStr) : DecidablePred (FirstKey k) := fun _ => inferInstanceAs (Decidable (_ = _))

theorem firstKey_iff {b : Bytes} (h : c.names.head? = some b) (k : CStr) : FirstKey k c ↔ cstr b = k := by
  simp [FirstKey, h]

/-- One command through the start-up indexer, as far as the presence of a key goes. -/
theorem get_indexOp_write {e : Entry} (he : e.Is c) (hw : c.isWrite = true) (m : IndexedLog) (k : CStr) :
    (applyRecord m e.indexOp).get k ≠ [] ↔ if FirstKey k c then c.creates = true else m.get k ≠ [] := by
  obtain ⟨b, data, hb, hop⟩ := e.indexOp_write he hw
  simp only [firstKey_iff hb]
  rcases hop with ⟨hc, hop⟩ | ⟨hc, -, hop | hop⟩
  · rw [hop]
    change (m.del (cstr b)).get k ≠ [] ↔ _
    rw [m.get_del]
    split_ifs <;> simp [hc]
  · rw [hop]
    change ((m.del (cstr b)).put (cstr b) data).get k ≠ [] ↔ _
    rw [Multimap.get_put, m.get_del]
    split_ifs <;> simp [hc]
  · rw [hop]
    change (m.put (cstr b) data).get k ≠ [] ↔ _
    rw [m.get_put]
    split_ifs <;> simp [hc]

section

variable (hE : List.Forall₂ Entry.Is E cmds) (hw : ∀ c ∈ cmds, c.isWrite = true)
include hE hw

theorem get_indexEntries_write (m : IndexedLog) (k : CStr) :
    (indexEntries m E).get k ≠ [] ↔ aliveAfter (FirstKey k) (decide (m.get k ≠ [])) cmds = true := by
  induction hE generalizing m with
  | nil => simp [indexEntries, aliveAfter]
  | @cons e c E cmds he _ ih =>
    have hstep := get_indexOp_write he (hw c (by simp)) m k
    have hrest := ih (forall_mem_cons.mp hw).2 (applyRecord m e.indexOp)
    refine hrest.trans ?_
    simp only [hstep]
    unfold aliveAfter
    rw [foldl_cons]
    split_ifs <;> simp

theorem redoable_indexEntries_write {m : IndexedLog} (hm : Redoable m) : Redoable (indexEntries m E) := by
  induction hE generalizing m with
  | nil => exact hm
  | @cons e c E cmds he _ ih =>
    refine ih (forall_mem_cons.mp hw).2 ?_
    obtain ⟨b, data, -, hop⟩ := e.indexOp_write he (hw c (by simp))
    rcases hop with ⟨-, hop⟩ | ⟨-, hrec, hop | hop⟩
    · rw [hop]
      exact redoable_del hm _
    · rw [hop]
      exact redoable_put (redoable_del hm _) _ hrec
    · rw [hop]
      exact redoable_put hm _ hrec

theorem keyed_write : ∀ e ∈ E, e.Keyed := by
  induction hE with
  | nil => simp
  | @cons e c E cmds he _ ih =>
    intro d hd
    rcases mem_cons.mp hd with rfl | hd
    · rw [Entry.Keyed]
      rcases lookupCommand_write he (hw c (by simp)) with ⟨w, k, v, h, -⟩ | ⟨w, k, h, -⟩ | ⟨w, k, ks,
        h, -⟩ <;> simp [h]
    · exact ih (fun c' hc' => hw c' (by simp [hc'])) d hd

end

/-! ### After a restart -/

/-- For every byte string: the last command that names it as any of its keys creates it,
exactly when it has no zero byte and the last command whose first key it is, up to a zero
byte in that key, creates it. -/
def FirstKeysDecide (cmds : List Cmd) : Prop :=
  ∀ b : Bytes, ((0 : UInt8) ∉ b ∧ EndsAlive (FirstKey (cstr b)) cmds) ↔ EndsAlive (fun c => b ∈ c.names) cmds

/-- The keys after instant recovery of a log of `SET`, `INCR` and `DEL` commands are the keys
after sequential replay exactly when the first keys decide. -/
theorem deleted_stay_deleted_iff {E : List Entry} {cmds : List Cmd} (hE : List.Forall₂ Entry.Is E cmds)
    (hw : ∀ c ∈ cmds, c.isWrite = true) {files : Files} {replicated : Bool} (haof : files.aof = entryBytes E)
    (hseek : (chooseStart files replicated).seek = 0)
    (hopen : (chooseStart files replicated).files.indexedLog.openW = some Multimap.empty) (aofLoadTruncated : Bool) :
    ∃ r idx db, initialIndexesSequentialLogToIndexedLog files replicated = .returned r ∧
      r.result.files.indexedLog = .ok idx ∧ loadAppendOnlyFile aofLoadTruncated files.aof emptyDb = .returned db ∧
      ∀ m cur, idx.IsCursor cur → (loadDBFromIndexedLog m idx cur).loader.pc = .done ∧
        ((∀ b, ((loadDBFromIndexedLog m idx cur).db b).isSome ↔ (db b).isSome) ↔ FirstKeysDecide cmds) := by
  have hread : fseek files.aof (chooseStart files replicated).seek = entryBytes E := by
    rw [haof, hseek]
    rfl
  obtain ⟨r, hrun, hidx, -⟩ := initialIndexes_result (keyed_write hE hw) hread hopen
  refine ⟨r, _, _, hrun, hidx, by rw [haof, loadAppendOnlyFile_entries _ hE], fun m cur hcur => ?_⟩
  obtain ⟨hdone, hdb⟩ := loadDBFromIndexedLog_db m (redoable_indexEntries_write hE hw redoable_empty) hcur
  refine ⟨hdone, forall_congr' fun b => ?_⟩
  have hmem : ((cmds.foldl (fun db c => (c.proc db).db) emptyDb) b).isSome ↔
    EndsAlive (fun c => b ∈ c.names) cmds := by
    rw [replay_isSome hw, ← aliveAfter_iff]
    rfl
  have hget : (indexEntries Multimap.empty E).get (cstr b) ≠ [] ↔ EndsAlive (FirstKey (cstr b)) cmds := by
    rw [get_indexEntries_write hE hw, ← aliveAfter_iff]
    rfl
  have hrec : (m.recovered (indexEntries Multimap.empty E) b).isSome ↔
      (0 : UInt8) ∉ b ∧ EndsAlive (FirstKey (cstr b)) cmds := by
    rw [← hget, ← cstr_val_eq_iff, Allocator.recovered, Allocator.view]
    split_ifs <;> simp_all
  rw [hdb, hmem, hrec]

theorem setKV_fits : ∀ a ∈ (Op.set (ascii ['k']) (ascii ['v'])).args, a.length < 2 ^ 63 := by decide

def setKV : LogCmd := Op.logged (.set (ascii ['k']) (ascii ['v'])) setKV_fits

/-- `DEL` of two keys of one letter. -/
def delTwo (k l : Char) : Entry where
  argv := [DEL_COMMAND, ascii [k], ascii [l]]
  argc_pos := by simp
  argc_int := by simp
  fits := by simp [DEL_COMMAND, ascii]

/-- `SET k v`, then `DEL k n`. -/
def delFirstLog : List Entry := [setKV.entry, delTwo 'k' 'n']

/-- The files of a first start over the log `E`. -/
def entryFiles (E : List Entry) : Files := { freshFiles [] with aof := entryBytes E }

theorem delFirst_stays_deleted :
    ∃ r idx db, initialIndexesSequentialLogToIndexedLog (entryFiles delFirstLog) false = .returned r ∧
      r.result.files.indexedLog = .ok idx ∧
      loadAppendOnlyFile true (entryFiles delFirstLog).aof emptyDb = .returned db ∧
      ∀ m cur, idx.IsCursor cur → (loadDBFromIndexedLog m idx cur).loader.pc = .done ∧
        ((∀ b, ((loadDBFromIndexedLog m idx cur).db b).isSome ↔ (db b).isSome) ↔
          FirstKeysDecide [.set (ascii ['k']) (ascii ['v']), .del [ascii ['k'], ascii ['n']]]) := by
  have hE : List.Forall₂ Entry.Is delFirstLog
      [.set (ascii ['k']) (ascii ['v']), .del [ascii ['k'], ascii ['n']]] :=
    .cons (by decide +kernel) (.cons (by decide +kernel) .nil)
  exact deleted_stay_deleted_iff hE (by decide) rfl rfl rfl true

/-- `SET k v`, then `DEL n k`. -/
def delSecondLog : List Entry := [setKV.entry, delTwo 'n' 'k']

/-- The second key of the `DEL` comes back. -/
theorem delSecond_comes_back :
    ∃ r idx db, initialIndexesSequentialLogToIndexedLog (entryFiles delSecondLog) false = .returned r ∧
      r.result.files.indexedLog = .ok idx ∧
      loadAppendOnlyFile true (entryFiles delSecondLog).aof emptyDb = .returned db ∧
      db (ascii ['k']) = none ∧ (loadDBFromIndexedLog jemalloc idx idx.cursor).db (ascii ['k']) =
        some (ascii ['v']) := by
  have hE : List.Forall₂ Entry.Is delSecondLog
      [.set (ascii ['k']) (ascii ['v']), .del [ascii ['n'], ascii ['k']]] :=
    .cons (by decide +kernel) (.cons (by decide +kernel) .nil)
  obtain ⟨r, hrun, hidx, -⟩ := initialIndexes_result (keyed_write hE (by decide))
    (show fseek (entryFiles delSecondLog).aof (chooseStart (entryFiles delSecondLog) false).seek = _ from rfl)
    (show _ = some Multimap.empty from rfl)
  exact ⟨r, _, _, hrun, hidx, loadAppendOnlyFile_entries true hE emptyDb, by decide +kernel, by decide +kernel⟩

end RedisIR
