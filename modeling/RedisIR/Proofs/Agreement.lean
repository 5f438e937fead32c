import RedisIR.Proofs.Equivalence
import RedisIR.Proofs.Indexer

/-! The online indexer against the start-up indexer, through the values that the loaders
fold. Only the last command on a key matters: the two agree on `SET` and `DEL`, but the
online indexer writes an `INCR` with whatever value it carries from an earlier command, and
the start-up indexer drops checkpoints. -/

namespace RedisIR

open CLib List KeyedLog

variable {A L : List LogCmd} {c : LogCmd} {k : Bytes}

/-- Every argument can stand on a line of a record and in a node of the queue. -/
def Op.Fits (o : Op) : Prop := ∀ a ∈ o.args, RedisIR.Plain a ∧ a.length < 50

instance (o : Op) : Decidable o.Fits := inferInstanceAs (Decidable (∀ a ∈ _, _))

/-- The key of a command that the online indexer makes a record for. -/
def Op.indexKey : Op → Option Bytes
  | .set k _ => some k
  | .incr k => some k
  | .del k => some k
  | .setCheckpoint k _ => some k
  | _ => none

/-- The value of `k` after the commands `L`. -/
def intValue (L : List LogCmd) (k : Bytes) : Option Bytes := intSem.fold k none (L.map LogCmd.op)

/-- What it takes for the last command on a key: an `INCR` finds the right sum in the value
variable, and a checkpoint repeats the value that the key has. -/
def AgreesAt (A : List LogCmd) (c : LogCmd) : Prop :=
  match c.op with
  | .incr k => (carried A).val = incrText (intValue A k)
  | .setCheckpoint k v => intValue A k = some v
  | _ => True

/-- The last command on each key is one on which the indexers agree. -/
def OnlineAgrees (L : List LogCmd) : Prop :=
  ∀ k A c, KeyedLog.LastTouch (fun c : LogCmd => c.op.indexKey) k L A c → AgreesAt A c

/-! ### The records of the online indexer -/

theorem carried_lf_free (h : ∀ c ∈ L, c.op.Fits) : LF ∉ (carried L).val := by
  induction L using List.reverseRecOn with
  | nil => simp [carried, cstr]
  | append_singleton L c ih =>
    rw [carried_concat, LogCmd.carry]
    split
    · next a b hargs =>
      have hb := (h c (by simp) b (by simp [hargs])).1
      rw [cstr_val_of_nul_free hb.2]
      exact hb.1
    · exact ih fun d hd => h d (by simp [hd])

/-- The lengths in the text of a record are arbitrary, but no loader reads them. -/
theorem sdssplitlen_setText {key : CStr} (hk : LF ∉ key.val) (value : CStr) (mem : BitVec 64 × BitVec 64) :
    sdssplitlen (setText key value mem).val =
      [ascii ['*', '3'], ascii ['$', '3'], SET_COMMAND, 36 :: decimal mem.1.toInt, key.val,
        36 :: decimal mem.2.toInt] ++ value.val.splitOn LF := by
  have hnum : ∀ (b : UInt8) (i : ℤ), isdigit b = false → b ≠ 45 → b ≠ 36 → b ∉ 36 :: decimal i := by
    intro b i h1 h2 h3
    simp [h3, not_mem_decimal h1 h2]
  have hfree : (0 : UInt8) ∉ ascii ['*', '3', '\n', '$', '3', '\n'] ++ SET_COMMAND ++
      LF :: 36 :: decimal mem.1.toInt ++ LF :: key.val ++ LF :: 36 :: decimal mem.2.toInt ++ LF :: value.val := by
    refine nul_free_append (nul_free_append (nul_free_append (nul_free_append (by decide +kernel) ?_) ?_) ?_) ?_
    all_goals simp only [mem_cons, not_or]
    · exact ⟨by decide, by simpa using hnum 0 mem.1.toInt rfl (by decide) (by decide)⟩
    · exact ⟨by decide, key.nul_free⟩
    · exact ⟨by decide, by simpa using hnum 0 mem.2.toInt rfl (by decide) (by decide)⟩
    · exact ⟨by decide, value.nul_free⟩
  have htext : (setText key value mem).val = ascii ['*', '3'] ++ LF :: (ascii ['$', '3'] ++ LF ::
      (SET_COMMAND ++ LF :: ((36 :: decimal mem.1.toInt) ++ LF :: (key.val ++ LF ::
        ((36 :: decimal mem.2.toInt) ++ LF :: value.val))))) := by
    rw [setText, cstr_val_of_nul_free hfree]
    simp [ascii]
    decide
  rw [htext, sdssplitlen_line (by decide), splitOn_append_cons_self_of_not_mem (by decide),
    splitOn_append_cons_self_of_not_mem (by decide +kernel),
    splitOn_append_cons_self_of_not_mem (hnum LF _ rfl (by decide) (by decide)),
    splitOn_append_cons_self_of_not_mem hk,
    splitOn_append_cons_self_of_not_mem (hnum LF _ rfl (by decide) (by decide))]
  rfl

/-- All that a loader keeps of a value. -/
def firstLine (value : CStr) : Bytes := (value.val.splitOn LF).headD []

theorem firstLine_eq {value : CStr} (h : LF ∉ value.val) : firstLine value = value.val := by
  rw [firstLine, splitOn_eq_singleton h]
  rfl

theorem replayRecord_setText {key : CStr} (hk : LF ∉ key.val) (value : CStr)
    (mem : BitVec 64 × BitVec 64) (x : Bytes) : replayRecord x (setText key value mem) = firstLine value := by
  have hcmd : recordCommand (setText key value mem) = SET_COMMAND := by
    rw [recordCommand, sdssplitlen_setText hk]
    exact (by decide +kernel : sdstoupper SET_COMMAND = SET_COMMAND)
  rw [replayRecord, hcmd, if_pos rfl, sdssplitlen_setText hk, firstLine]
  cases value.val.splitOn LF <;> rfl

variable (mem : NodeMemory)

theorem onlineOp_eq (A : List LogCmd) (c : LogCmd) : onlineOp mem A c =
      match c.op with
      | .set k _ => some (.add (cstr k) (setText (cstr k) (carried (A ++ [c])) (mem A.length)))
      | .incr k => some (.add (cstr k) (setText (cstr k) (carried (A ++ [c])) (mem A.length)))
      | .del k => some (.remove (cstr k))
      | .setCheckpoint k _ => some (.replace (cstr k) (setText (cstr k) (carried (A ++ [c])) (mem A.length)))
      | _ => none := by
  unfold onlineOp
  generalize carried (A ++ [c]) = value
  cases c.op <;> rfl

/-- The key of a record is a C string. -/
def LogCmd.recordKey (c : LogCmd) : Option CStr := c.op.indexKey.map cstr

/-- One command through the online indexer, seen through the value of a key. -/
theorem view_onlineOp_recordKey (m : IndexedLog) (A : List LogCmd) (hc : ∀ K ∈ c.recordKey, LF ∉ K.val)
    (K : CStr) : view (applyRecord m (onlineOp mem A c)) K =
      if c.recordKey = some K then match c.op with
        | .del _ => none
        | _ => some (firstLine (carried (A ++ [c])))
      else view m K := by
  rw [onlineOp_eq]
  unfold LogCmd.recordKey at hc ⊢
  generalize carried (A ++ [c]) = value
  revert hc
  cases c.op with
  | set k v | incr k =>
    intro hc
    have hlf := hc (cstr k) rfl
    refine (view_add m _ _ K).trans (if_congr (by simp [Op.indexKey]) ?_ rfl)
    rw [replayRecord_setText hlf]
  | del k => exact fun _ => (view_remove m _ K).trans (if_congr (by simp [Op.indexKey]) rfl rfl)
  | setCheckpoint k v =>
    intro hc
    have hlf := hc (cstr k) rfl
    refine (view_replace m _ _ K).trans (if_congr (by simp [Op.indexKey]) ?_ rfl)
    rw [replayRecord_setText hlf]
  | checkpointEnd id arg | select => exact fun _ => rfl

theorem Op.Fits.indexKey_plain {o : Op} (h : o.Fits) (hkey : o.indexKey = some k) : RedisIR.Plain k := by
  have hmem : k ∈ o.args := by
    cases o <;> simp_all [Op.indexKey, Op.args]
  exact (h k hmem).1

theorem recordKey_eq_iff (hc : c.op.Fits) (K : CStr) : c.recordKey = some K ↔ c.op.indexKey = some K.val := by
  rw [LogCmd.recordKey]
  cases hkey : c.op.indexKey with
  | none => simp
  | some k => simpa using cstr_eq_iff (hc.indexKey_plain hkey).2 K

theorem recordKey_lf_free (hc : c.op.Fits) : ∀ K ∈ c.recordKey, LF ∉ K.val := by
  intro K hK
  exact (hc.indexKey_plain ((recordKey_eq_iff hc K).mp hK)).1

theorem view_onlineOp (m : IndexedLog) (h : ∀ d ∈ A ++ [c], d.op.Fits) (k : CStr) : view (applyRecord m (onlineOp mem A c)) k =
      if c.op.indexKey = some k.val then match c.op with
        | .del _ => none
        | _ => some (carried (A ++ [c])).val
      else view m k := by
  have hc := h c (by simp)
  rw [view_onlineOp_recordKey mem m A (recordKey_lf_free hc), firstLine_eq (carried_lf_free h)]
  exact if_congr (recordKey_eq_iff hc k) rfl rfl

/-! ### The records of the start-up indexer -/

theorem Op.Fits.plain {o : Op} (h : o.Fits) : o.Plain := by
  cases o <;> simp_all [Op.Fits, Op.args, Op.Plain]

theorem view_initial (hfits : ∀ c ∈ L, c.op.Fits) (k : CStr) :
    view (indexRecords Multimap.empty L) k = intValue L k.val := by
  rw [view_indexRecords_apply, view_empty]
  apply KeyedLog.Sem.fold_congr
  intro A c B hL y _ _
  exact touch_int k c (hfits c (by simp [hL])).plain y

/-! ### The two indexers -/

/-- The store of the online indexer after the log `L`, from an empty one. -/
def onlineIndex (mem : NodeMemory) (L : List LogCmd) : IndexedLog :=
  (onlineOps mem [] L).foldl applyRecord Multimap.empty

theorem onlineIndex_concat (L : List LogCmd) (c : LogCmd) :
    onlineIndex mem (L ++ [c]) = applyRecord (onlineIndex mem L) (onlineOp mem L c) := by
  simp [onlineIndex, onlineOps_append, onlineOps]

theorem intValue_concat (L : List LogCmd) (c : LogCmd) (k : Bytes) :
    intValue (L ++ [c]) k = intSem.touch k (intValue L k) c.op := by
  rw [intValue, map_append, map_singleton, intSem.fold_concat]
  rfl

/-- On the command just read the indexers agree as `AgreesAt` says. -/
theorem value_agrees_iff (hfits : c.op.Fits) (hkey : c.op.indexKey = some k) : (match c.op with
      | .del _ => none
      | _ => some (carried (A ++ [c])).val) = intSem.touch k (intValue A k) c.op ↔ AgreesAt A c := by
  rw [carried_concat, AgreesAt, LogCmd.carry]
  revert hfits hkey
  cases c.op with
  | set k' v =>
    rintro hfits ⟨⟩
    simp [KeyedLog.Sem.touch, intSem, Op.args, cstr_val_of_nul_free (hfits v (by simp [Op.args])).1.2]
  | incr k' =>
    rintro - ⟨⟩
    simp [KeyedLog.Sem.touch, intSem, Op.args]
  | del k' =>
    rintro - ⟨⟩
    simp [KeyedLog.Sem.touch, intSem]
  | setCheckpoint k' v =>
    rintro hfits ⟨⟩
    simp [KeyedLog.Sem.touch, intSem, Op.args, cstr_val_of_nul_free (hfits v (by simp [Op.args])).1.2, eq_comm]
  | _ => rintro - ⟨⟩

theorem touch_of_indexKey_ne (h : c.op.indexKey ≠ some k) (x : Option Bytes) : intSem.touch k x c.op = x := by
  apply intSem.touch_of_key_ne
  revert h
  cases c.op <;> simp [Op.indexKey, intSem]

theorem view_online_eq_iff (hfits : ∀ c ∈ L, c.op.Fits) (k : CStr) :
    view (onlineIndex mem L) k = intValue L k.val ↔
      ∀ A c, KeyedLog.LastTouch (fun c : LogCmd => c.op.indexKey) k.val L A c → AgreesAt A c := by
  induction L using List.reverseRecOn with
  | nil => exact iff_of_true rfl fun A c h => absurd h lastTouch_nil
  | append_singleton L c ih =>
    have hc := hfits c (by simp)
    rw [onlineIndex_concat, view_onlineOp mem _ hfits, intValue_concat]
    by_cases hkey : c.op.indexKey = some k.val
    · have hlast : ∀ A d, KeyedLog.LastTouch (fun c : LogCmd => c.op.indexKey) k.val (L ++ [c]) A d ↔
          A = L ∧ d = c := fun A d => lastTouch_concat_of_eq hkey
      rw [if_pos hkey, value_agrees_iff hc hkey]
      simp [hlast]
    · have hlast : ∀ A d, KeyedLog.LastTouch (fun c : LogCmd => c.op.indexKey) k.val (L ++ [c]) A d ↔
          KeyedLog.LastTouch (fun c : LogCmd => c.op.indexKey) k.val L A d :=
        fun A d => lastTouch_concat_of_ne hkey
      rw [if_neg hkey, touch_of_indexKey_ne hkey, ih fun d hd => hfits d (by simp [hd])]
      simp [hlast]

theorem view_online_iff (hfits : ∀ c ∈ L, c.op.Fits) :
    (∀ k, view (onlineIndex mem L) k = view (indexRecords Multimap.empty L) k) ↔ OnlineAgrees L := by
  refine ⟨?_, ?_⟩
  · rintro h k A c ⟨B, hL, hkey, hlast⟩
    have hfree := ((hfits c (by simp [hL])).indexKey_plain hkey).2
    have hview := h ⟨k, hfree⟩
    rw [view_initial hfits, view_online_eq_iff mem hfits] at hview
    exact hview A c ⟨B, hL, hkey, hlast⟩
  · intro h k
    rw [view_initial hfits, view_online_eq_iff mem hfits]
    exact h k.val

/-- The online indexer, over rounds that see the log grow in any way, and the start-up
indexer, both from an empty indexed log: the loaders fold the same value for every key
exactly when the last command on each key is one on which the indexers agree. -/
theorem indexers_agree_iff (mem : NodeMemory) {L : List LogCmd} (hfits : ∀ c ∈ L, c.op.Fits)
    {polls : List Bytes} (hpolls : ∀ file ∈ polls, file <+: aofBytes L) {files : Files} (replicated : Bool)
    (haof : files.aof = aofBytes L) (hseek : files.finalLogSeek = some 0)
    (hlog : files.indexedLog = .ok Multimap.empty) :
    ∃ s r idx, indexerRun mem (polls ++ [aofBytes L]) (Indexer.start files Multimap.empty) = .returned s ∧
      initialIndexesSequentialLogToIndexedLog files replicated = .returned r ∧ r.result.files.indexedLog = .ok idx ∧
      ((∀ k, view s.disk.dbp k = view idx k) ↔ OnlineAgrees L) := by
  have hshort : ∀ c ∈ L, c.op.Short := fun c hc a ha => (hfits c hc a ha).2
  obtain ⟨s, hrun, hdbp⟩ := indexerRun_index mem hshort hpolls hseek Multimap.empty
  have hstart := chooseStart_ok files replicated hseek hlog
  obtain ⟨r, hinit, hres, -⟩ := initialIndexes_boundary (A := []) (B := L) haof (by rw [hstart]; rfl)
    (by rw [hstart, hlog]; rfl)
  refine ⟨s, r, _, hrun, hinit, hres, ?_⟩
  rw [hdbp]
  exact view_online_iff mem hfits

theorem indexers_agree_counterLog :
    ∃ s r idx, indexerRun (fun _ => (0, 0)) ([(aofBytes counterLog).take 5] ++ [aofBytes counterLog])
        (Indexer.start (freshFiles counterLog) Multimap.empty) = .returned s ∧
      initialIndexesSequentialLogToIndexedLog (freshFiles counterLog) false = .returned r ∧
      r.result.files.indexedLog = .ok idx ∧ ((∀ k, view s.disk.dbp k = view idx k) ↔ OnlineAgrees counterLog) :=
  indexers_agree_iff _ (by decide) (by simpa using take_prefix 5 _) false rfl rfl rfl

/-- The online indexer writes the `INCR` with the value of the `SET` before it. -/
theorem indexers_disagree : ∃ s r idx, indexerRun (fun _ => (0, 0)) [aofBytes counterLog]
        (Indexer.start (freshFiles counterLog) Multimap.empty) = .returned s ∧
      initialIndexesSequentialLogToIndexedLog (freshFiles counterLog) false = .returned r ∧
      r.result.files.indexedLog = .ok idx ∧ view s.disk.dbp (cstr (ascii ['n'])) = some (ascii ['9']) ∧
      view idx (cstr (ascii ['n'])) = some (ascii ['1', '0']) := by
  have hnone : ∀ file ∈ ([] : List Bytes), file <+: aofBytes counterLog := by simp
  have hseek : (freshFiles counterLog).finalLogSeek = some 0 := rfl
  obtain ⟨s, hrun, hdbp⟩ := indexerRun_index (fun _ => (0, 0)) (by decide) hnone hseek Multimap.empty
  obtain ⟨r, hinit, hres, -⟩ := initialIndexes_boundary (A := []) (B := counterLog)
    (show (freshFiles counterLog).aof = _ from rfl)
    (show (chooseStart (freshFiles counterLog) false).seek = _ from rfl) (show _ = some Multimap.empty from rfl)
  refine ⟨s, r, _, hrun, hinit, hres, ?_, by decide +kernel⟩
  rw [hdbp]
  decide +kernel

/-! ### Checkpoints -/

def Op.isCheckpoint : Op → Bool
  | .setCheckpoint _ _ => true
  | _ => false

def withoutCheckpoints (L : List LogCmd) : List LogCmd := L.filter fun c => !c.op.isCheckpoint

theorem get_replace (m : IndexedLog) (key data k : CStr) :
    (IndexOp.apply m (.replace key data)).get k = if key = k then [data] else m.get k := by
  simp only [IndexOp.apply, addRecordIndexedLog, delRecordIndexdLog, Multimap.get_put, Multimap.get_del]
  split_ifs <;> rfl

theorem get_onlineOp_of_ne (m : IndexedLog) (A : List LogCmd) {K : CStr} (hne : c.recordKey ≠ some K) :
    (applyRecord m (onlineOp mem A c)).get K = m.get K := by
  rw [onlineOp_eq]
  unfold LogCmd.recordKey at hne
  generalize carried (A ++ [c]) = value
  revert hne
  cases c.op with
  | set k v | incr k => exact fun hne => (m.get_put _ _ _).trans (if_neg fun h => hne (congrArg some h))
  | del k => exact fun hne => (m.get_del _ _).trans (if_neg fun h => hne (congrArg some h))
  | setCheckpoint k v => exact fun hne => (get_replace m _ _ _).trans (if_neg fun h => hne (congrArg some h))
  | _ => exact fun _ => rfl

theorem get_onlineIndex_checkpoint {K : CStr} {v : Bytes} (hlast : KeyedLog.LastTouch LogCmd.recordKey K L A c)
    (hop : c.op = .setCheckpoint k v) :
    ∃ d, (onlineIndex mem L).get K = [d] := by
  induction L using List.reverseRecOn with
  | nil => exact absurd hlast lastTouch_nil
  | append_singleton L d ih =>
    rw [onlineIndex_concat]
    by_cases hkey : d.recordKey = some K
    · obtain ⟨rfl, rfl⟩ := (lastTouch_concat_of_eq hkey).mp hlast
      have hK : cstr k = K := by simpa [LogCmd.recordKey, hop, Op.indexKey] using hkey
      rw [onlineOp_eq, hop]
      exact ⟨_, (get_replace ..).trans (if_pos hK)⟩
    · rw [get_onlineOp_of_ne mem _ L hkey]
      exact ih ((lastTouch_concat_of_ne hkey).mp hlast)

/-- What a command shows at its key. -/
def Op.shows : Op → Option Bytes
  | .set _ v => some (firstLine (cstr v))
  | .setCheckpoint _ v => some (firstLine (cstr v))
  | _ => none

section Shown

variable (hkeys : ∀ c ∈ L, ∀ K ∈ c.recordKey, LF ∉ K.val)
    (hincr : ∀ c ∈ L, c.op.name ≠ INCR_COMMAND) (K : CStr)
include hkeys hincr

theorem view_online_lastTouch (hlast : KeyedLog.LastTouch LogCmd.recordKey K L A c) :
    view (onlineIndex mem L) K = c.op.shows := by
  induction L using List.reverseRecOn with
  | nil => exact absurd hlast lastTouch_nil
  | append_singleton L d ih =>
    rw [onlineIndex_concat, view_onlineOp_recordKey mem _ _ (hkeys d (by simp))]
    by_cases hkey : d.recordKey = some K
    · obtain ⟨rfl, rfl⟩ := (lastTouch_concat_of_eq hkey).mp hlast
      have hname := hincr c (by simp)
      rw [if_pos hkey, carried_concat, LogCmd.carry]
      unfold LogCmd.recordKey at hkey
      revert hname hkey
      cases c.op <;> simp [Op.args, Op.shows, Op.indexKey, Op.name]
    · rw [if_neg hkey]
      exact ih (fun c hc => hkeys c (by simp [hc])) (fun c hc => hincr c (by simp [hc]))
        ((lastTouch_concat_of_ne hkey).mp hlast)

omit hincr in
theorem view_online_untouched (h : ∀ c ∈ L, c.recordKey ≠ some K) : view (onlineIndex mem L) K = none := by
  induction L using List.reverseRecOn with
  | nil => rfl
  | append_singleton L d ih =>
    rw [onlineIndex_concat, view_onlineOp_recordKey mem _ _ (hkeys d (by simp)), if_neg (h d (by simp))]
    exact ih (fun c hc => hkeys c (by simp [hc])) fun c hc => h c (by simp [hc])

end Shown

/-- Where the last command on a C string is a checkpoint, the last `SET` or `DEL` on it is a `SET` that
shows the same. -/
def CheckpointsShow (L : List LogCmd) : Prop :=
  ∀ K A c k v, KeyedLog.LastTouch LogCmd.recordKey K L A c → c.op = .setCheckpoint k v →
    ∃ A' c', KeyedLog.LastTouch LogCmd.recordKey K (withoutCheckpoints L) A' c' ∧ c'.op.shows = c.op.shows

theorem lastTouch_withoutCheckpoints {K : CStr} (h : KeyedLog.LastTouch LogCmd.recordKey K L A c)
    (hc : c.op.isCheckpoint = false) :
    KeyedLog.LastTouch LogCmd.recordKey K (withoutCheckpoints L) (withoutCheckpoints A) c := by
  obtain ⟨B, rfl, hkey, hB⟩ := h
  refine ⟨withoutCheckpoints B, by simp [withoutCheckpoints, hc], hkey, fun b hb => hB b ?_⟩
  exact (mem_filter.mp hb).1

theorem view_withoutCheckpoints_iff (mem' : NodeMemory) (hkeys : ∀ c ∈ L, ∀ K ∈ c.recordKey, LF ∉ K.val)
    (hincr : ∀ c ∈ L, c.op.name ≠ INCR_COMMAND) :
    (∀ K, view (onlineIndex mem L) K = view (onlineIndex mem' (withoutCheckpoints L)) K) ↔ CheckpointsShow L := by
  have hmem : ∀ c ∈ withoutCheckpoints L, c ∈ L := fun c hc => (mem_filter.mp hc).1
  have hview' := fun K A c => @view_online_lastTouch A (withoutCheckpoints L) c mem' (fun c hc => hkeys c (hmem c hc))
    (fun c hc => hincr c (hmem c hc)) K
  constructor
  · intro h K A c k v hlast hop
    have hK := h K
    rw [view_online_lastTouch mem hkeys hincr K hlast] at hK
    by_cases htouch : ∃ d ∈ withoutCheckpoints L, d.recordKey = some K
    · obtain ⟨A', c', hlast'⟩ := KeyedLog.exists_lastTouch htouch
      exact ⟨A', c', hlast', by rw [hK, hview' K A' c' hlast']⟩
    · rw [view_online_untouched mem' (fun c hc => hkeys c (hmem c hc)) K
        fun d hd hd' => htouch ⟨d, hd, hd'⟩, hop] at hK
      cases hK
  · intro h K
    by_cases htouch : ∃ d ∈ L, d.recordKey = some K
    · obtain ⟨A, c, hlast⟩ := KeyedLog.exists_lastTouch htouch
      rw [view_online_lastTouch mem hkeys hincr K hlast]
      cases hc : c.op.isCheckpoint with
      | true =>
        obtain ⟨k, v, hop⟩ : ∃ k v, c.op = .setCheckpoint k v := by
          cases hop : c.op <;> simp_all [Op.isCheckpoint]
        obtain ⟨A', c', hlast', hshows⟩ := h K A c k v hlast hop
        rw [hview' K A' c' hlast', hshows]
      | false => rw [hview' K _ c (lastTouch_withoutCheckpoints hlast hc)]
    · have huntouched : ∀ d ∈ L, d.recordKey ≠ some K := fun d hd hd' => htouch ⟨d, hd, hd'⟩
      rw [view_online_untouched mem hkeys K huntouched, view_online_untouched mem'
        (fun c hc => hkeys c (hmem c hc)) K fun d hd => huntouched d (hmem d hd)]

/-- A value that a key has was set by the last command on the key other than checkpoints. -/
theorem exists_set_of_intValue {v : Bytes} (hincr : ∀ c ∈ L, c.op.name ≠ INCR_COMMAND)
    (h : intValue L k = some v) :
    ∃ A c, KeyedLog.LastTouch (fun c : LogCmd => c.op.indexKey) k (withoutCheckpoints L) A c ∧ c.op = .set k v := by
  induction L using List.reverseRecOn with
  | nil => cases h
  | append_singleton L c ih =>
    have ih := ih fun d hd => hincr d (by simp [hd])
    have hname := hincr c (by simp)
    rw [intValue_concat] at h
    rw [withoutCheckpoints, filter_append]
    cases hc : c.op.isCheckpoint with
    | true =>
      obtain ⟨k', v', hop⟩ : ∃ k v, c.op = .setCheckpoint k v := by
        cases hop : c.op <;> simp_all [Op.isCheckpoint]
      have h : intValue L k = some v := by simpa [hop, KeyedLog.Sem.touch, intSem] using h
      simpa [hc, withoutCheckpoints] using ih h
    | false =>
      have hlast : (filter (fun c => !c.op.isCheckpoint) [c]) = [c] := by simp [hc]
      rw [hlast]
      by_cases hkey : c.op.indexKey = some k
      · refine ⟨_, c, (lastTouch_concat_of_eq (by exact hkey)).mpr ⟨rfl, rfl⟩, ?_⟩
        cases hop : c.op with
        | set k' v' =>
          obtain rfl : k' = k := by simpa [hop, Op.indexKey] using hkey
          simpa [hop, KeyedLog.Sem.touch, intSem] using h
        | incr k' => exact absurd (by rw [hop]; rfl) hname
        | del k' =>
          obtain rfl : k' = k := by simpa [hop, Op.indexKey] using hkey
          simp [hop, KeyedLog.Sem.touch, intSem] at h
        | setCheckpoint k' v' => simp [hop, Op.isCheckpoint] at hc
        | _ => simp [hop, Op.indexKey] at hkey
      · rw [touch_of_indexKey_ne hkey] at h
        obtain ⟨A, d, hd, hop⟩ := ih h
        exact ⟨A, d, (lastTouch_concat_of_ne (by exact hkey)).mpr hd, hop⟩

/-- Without zero bytes no two keys are one C string. -/
theorem checkpointsShow_of_nul_free (hincr : ∀ c ∈ L, c.op.name ≠ INCR_COMMAND)
    (hnul : ∀ c ∈ L, ∀ k ∈ c.op.indexKey, (0 : UInt8) ∉ k) (hcp : KeyedLog.Before AgreesAt L) :
    CheckpointsShow L := by
  rintro K A c k v ⟨B, rfl, hkey, hB⟩ hop
  have hvalue : intValue A k = some v := by simpa [AgreesAt, hop] using hcp A c B rfl
  obtain ⟨A', c', ⟨B', hA, -, hB'⟩, hop'⟩ :=
    exists_set_of_intValue (fun d hd => hincr d (by simp [hd])) hvalue
  have hK : cstr k = K := by simpa [LogCmd.recordKey, hop, Op.indexKey] using hkey
  refine ⟨A', c', ⟨B' ++ withoutCheckpoints B, ?_, ?_, ?_⟩, by rw [hop', hop]; rfl⟩
  · rw [← cons_append, ← append_assoc, ← hA]
    simp [withoutCheckpoints, hop, Op.isCheckpoint]
  · rw [LogCmd.recordKey, hop', ← hK]
    rfl
  · intro d hd heq
    rcases mem_append.mp hd with hd | hd
    · have hdA : d ∈ A := (mem_filter.mp (hA ▸ mem_append_right A' (mem_cons_of_mem c' hd))).1
      obtain ⟨j, hj, hjK⟩ := Option.map_eq_some_iff.mp heq
      have hjk : cstr j = cstr k := hjK.trans hK.symm
      rw [cstr_eq_iff (hnul d (by simp [hdA]) j hj),
        cstr_val_of_nul_free (hnul c (by simp) k (by rw [hop]; rfl))] at hjk
      exact hB' d hd (hj.trans (congrArg some hjk))
    · exact hB d (mem_filter.mp hd).1 heq

/-- `SETCHECKPOINT`s do not show in the online index exactly if they repeat what the last other
command on their C string shows; they do if they repeat the values of their keys and no key has a
zero byte. They leave one record of a key. -/
theorem checkpoints_transparent_iff (mem mem' : NodeMemory) {L : List LogCmd}
    (hshort : ∀ c ∈ L, c.op.Short) (hkeys : ∀ c ∈ L, ∀ K ∈ c.recordKey, LF ∉ K.val)
    (hincr : ∀ c ∈ L, c.op.name ≠ INCR_COMMAND) {polls polls' : List Bytes}
    (hpolls : ∀ file ∈ polls, file <+: aofBytes L)
    (hpolls' : ∀ file ∈ polls', file <+: aofBytes (withoutCheckpoints L)) {files : Files}
    (hseek : files.finalLogSeek = some 0) :
    ∃ s s', indexerRun mem (polls ++ [aofBytes L]) (Indexer.start files Multimap.empty) = .returned s ∧
      indexerRun mem' (polls' ++ [aofBytes (withoutCheckpoints L)]) (Indexer.start files Multimap.empty) =
      .returned s' ∧ ((∀ K, view s.disk.dbp K = view s'.disk.dbp K) ↔ CheckpointsShow L) ∧
      ((∀ c ∈ L, ∀ k ∈ c.op.indexKey, (0 : UInt8) ∉ k) → KeyedLog.Before AgreesAt L →
        CheckpointsShow L) ∧
      ∀ K A c k v, KeyedLog.LastTouch LogCmd.recordKey K L A c → c.op = .setCheckpoint k v →
        ∃ d, s.disk.dbp.get K = [d] := by
  have hmem : ∀ c ∈ withoutCheckpoints L, c ∈ L := fun c hc => (mem_filter.mp hc).1
  obtain ⟨s, hrun, hdbp⟩ := indexerRun_index mem hshort hpolls hseek Multimap.empty
  obtain ⟨s', hrun', hdbp'⟩ :=
    indexerRun_index mem' (fun c hc => hshort c (hmem c hc)) hpolls' hseek Multimap.empty
  refine ⟨s, s', hrun, hrun', ?_, checkpointsShow_of_nul_free hincr, fun K A c k v hlast hop => ?_⟩
  · rw [hdbp, hdbp']
    exact view_withoutCheckpoints_iff mem mem' hkeys hincr
  · rw [hdbp]
    exact get_onlineIndex_checkpoint mem hlast hop

/-- The checkpoint of a counter between two `SET`s of it. -/
def checkpointedLog : List LogCmd :=
  [setCounter, Op.logged (.setCheckpoint (ascii ['n']) (ascii ['9'])) (by decide), setCounter]

theorem checkpoints_transparent_counter : ∃ s s',
      indexerRun (fun _ => (0, 0)) ([] ++ [aofBytes checkpointedLog]) (Indexer.start (freshFiles []) Multimap.empty) =
        .returned s ∧
      indexerRun (fun _ => (0, 0)) ([] ++ [aofBytes (withoutCheckpoints checkpointedLog)])
        (Indexer.start (freshFiles []) Multimap.empty) = .returned s' ∧
      ∀ K, view s.disk.dbp K = view s'.disk.dbp K := by
  have hcp : KeyedLog.Before AgreesAt checkpointedLog := by
    simp only [checkpointedLog, before_cons]
    have hvalue : intValue [setCounter] (ascii ['n']) = some (ascii ['9']) := by decide +kernel
    exact ⟨trivial, hvalue, trivial, before_nil _⟩
  obtain ⟨s, s', hrun, hrun', hiff, hshow, -⟩ := @checkpoints_transparent_iff (fun _ => (0, 0)) (fun _ => (0, 0))
    checkpointedLog (by decide) (by decide) (by decide +kernel) [] [] (by simp) (by simp) (freshFiles []) rfl
  exact ⟨s, s', hrun, hrun', hiff.mpr (hshow (by decide) hcp)⟩

/-- Two keys that are one C string. -/
def cutKeys : List LogCmd :=
  [Op.logged (.set [97, 0, 120] (ascii ['1'])) (by decide), Op.logged (.set [97, 0, 121] (ascii ['2'])) (by decide)]

/-- The checkpoint of the first key overwrites the value of the second one. -/
theorem checkpoint_shows : ∃ s s',
      indexerRun (fun _ => (0, 0))
        [aofBytes (cutKeys ++ [Op.logged (.setCheckpoint [97, 0, 120] (ascii ['1'])) (by decide)])]
        (Indexer.start (freshFiles []) Multimap.empty) = .returned s ∧
      indexerRun (fun _ => (0, 0)) [aofBytes cutKeys] (Indexer.start (freshFiles []) Multimap.empty) = .returned s' ∧
      view s.disk.dbp (cstr [97]) = some (ascii ['1']) ∧ view s'.disk.dbp (cstr [97]) = some (ascii ['2']) :=
  ⟨_, _, rfl, rfl, by decide +kernel, by decide +kernel⟩

end RedisIR
