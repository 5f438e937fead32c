import RedisIR.Proofs.Agreement
import RedisIR.Proofs.Counters
import RedisIR.Proofs.Propagation
import RedisIR.Proofs.Reindex
import RedisIR.Spec.RewriteRecovery

/-! Instant recovery across a rewrite of the append-only file. If the new file begins with the
bytes that the indexer has read, a restart goes on from there as without a rewrite. -/

namespace RedisIR

open CLib List Function Outcome Option

variable {db : Db} {s : IrServer}

/-! ### The snapshot -/

def Short50 (a : Bytes) : Prop := RedisIR.Plain a ∧ a.length < 50

def DbFits (db : Db) : Prop := ∀ k v, db k = some v → Short50 k ∧ Short50 v

theorem rewriteSet_eq {k v : Bytes} (hk : Short50 k) (hv : Short50 v) :
    ∃ h, rewriteSet k v = [Op.logged (.set k v) h] := by
  have h : ∀ a ∈ [k, v], a.length < 2 ^ 63 := by
    intro a ha
    simp only [mem_cons, not_mem_nil, or_false] at ha
    rcases ha with rfl | rfl
    · exact hk.2.trans (by norm_num)
    · exact hv.2.trans (by norm_num)
  exact ⟨h, dif_pos h⟩

def Lists (keys : List Bytes) (db : Db) : Prop := keys.Nodup ∧ ∀ k, k ∈ keys ↔ db k ≠ none

/-- A log that stands for the database: plain short commands, and increments within `int`. -/
structure Stands (L : List LogCmd) (db : Db) : Prop where
  fits : ∀ c ∈ L, c.op.Fits
  incrs : IncrsOk L
  replay : redisSem.replay emptyDb (L.map LogCmd.op) = db

theorem select_fits_op : Op.Fits .select := by decide

theorem stands_nil : Stands [] emptyDb := ⟨by simp, KeyedLog.before_nil _, rfl⟩

theorem Stands.append {L : List LogCmd} (h : Stands L db) {c : LogCmd} (hfits : c.op.Fits)
    (hincr : ∀ k, c.op = .incr k → IncrOk (db k)) : Stands (L ++ [c]) (redisSem.step db c.op) where
  fits := by
    intro d hd
    rcases mem_append.mp hd with hd | hd
    · exact h.fits d hd
    · rw [mem_singleton.mp hd]
      exact hfits
  incrs := KeyedLog.before_concat h.incrs (by rw [h.replay]; exact hincr)
  replay := by
    rw [map_append, map_singleton, KeyedLog.Sem.replay, foldl_append]
    change redisSem.step (redisSem.replay emptyDb (L.map LogCmd.op)) c.op = _
    rw [h.replay]

theorem Stands.select {L : List LogCmd} (h : Stands L db) : Stands (L ++ [selectLogged]) db := by
  have hnext := h.append (c := selectLogged) select_fits_op (by rintro k ⟨⟩)
  rwa [show redisSem.step db selectLogged.op = db from step_eq_self db rfl] at hnext

def onKeys (keys : List Bytes) (db : Db) : Db := keys.foldl (fun d k => update d k (db k)) emptyDb

theorem onKeys_concat (keys : List Bytes) (k : Bytes) (db : Db) :
    onKeys (keys ++ [k]) db = update (onKeys keys db) k (db k) := by
  rw [onKeys, foldl_append]
  rfl

theorem onKeys_apply (keys : List Bytes) (db : Db) (b : Bytes) (h : b ∈ keys ∨ db b = none) :
    onKeys keys db b = db b := by
  induction keys using List.reverseRecOn with
  | nil =>
    rcases h with h | h
    · cases h
    · exact h.symm
  | append_singleton keys k ih =>
    rw [onKeys_concat]
    by_cases hb : b = k
    · rw [hb, update_self]
    · rw [update_of_ne hb]
      exact ih (h.imp_left fun hmem => by simpa [hb] using hmem)

theorem stands_sets (hdb : DbFits db) (keys : List Bytes) :
    Stands (selectLogged :: keys.flatMap fun k => (db k).elim [] (rewriteSet k)) (onKeys keys db) := by
  induction keys using List.reverseRecOn with
  | nil =>
    exact stands_nil.select
  | append_singleton keys k ih =>
    rw [flatMap_append, flatMap_singleton, ← cons_append]
    cases hk : db k with
    | none =>
      have hsame : onKeys (keys ++ [k]) db = onKeys keys db := by
        rw [onKeys_concat, hk]
        exact update_eq_self_iff.mpr ((onKeys_apply keys db k (.inr hk)).trans hk).symm
      rw [elim_none, append_nil, hsame]
      exact ih
    | some v =>
      obtain ⟨hkfits, hvfits⟩ := hdb k v hk
      obtain ⟨hlen, hset⟩ := rewriteSet_eq hkfits hvfits
      rw [elim_some, hset]
      have hnext := ih.append (c := Op.logged (.set k v) hlen)
        (by simp [Op.logged, Op.Fits, Op.args]; exact ⟨hkfits, hvfits⟩)
        (by rintro b ⟨⟩)
      have hstep : redisSem.step (onKeys keys db) (Op.logged (.set k v) hlen).op = onKeys (keys ++ [k]) db := by
        refine (step_eq_update (o := .set k v) _ rfl).trans ?_
        rw [onKeys_concat, hk]
        rfl
      rwa [hstep] at hnext

theorem stands_snapshot {keys : List Bytes} (hkeys : Lists keys db) (hdb : DbFits db) :
    Stands (rewriteAppendOnlyFileRio keys db) db := by
  have hall : onKeys keys db = db := by
    funext k
    refine onKeys_apply keys db k ?_
    rw [hkeys.2 k]
    exact ne_or_eq _ _
  rw [rewriteAppendOnlyFileRio]
  split_ifs with hnil
  · have hempty : db = emptyDb := by
      rw [← hall, hnil]
      rfl
    rw [hempty]
    exact stands_nil
  · rw [← hall]
    simpa [hall] using stands_sets hdb keys

/-! ### Commands of clients -/

/-- `SET`, `INCR` or `DEL` -/
def Op.isWrite : Op → Bool
  | .set _ _ | .incr _ | .del _ => true
  | _ => false

theorem proc_db_of_clean {o : Op} (ho : o.isWrite = true) (h : (o.cmd.proc db).dirty = 0) :
    (o.cmd.proc db).db = db := by
  cases o with
  | set k v => exact absurd h (by simp [Op.cmd, Cmd.proc, setCommand, setGenericCommand])
  | incr k =>
    rw [Op.cmd, Cmd.proc, incrCommand, incrDecrCommand] at h ⊢
    cases hold : getLongLongFromObject (db k) with
    | none => rfl
    | some n =>
      simp only [hold] at h ⊢
      split_ifs at h ⊢ with hover
      · rfl
  | del k =>
    rw [proc_cmd_db, step_eq_update db (o := .del k) rfl]
    cases hk : db k with
    | none => simp [redisSem, ← hk]
    | some v => simp [Op.cmd, Cmd.proc, delCommand, delLoop, hk] at h
  | _ => cases ho

theorem short50_decimal {i : ℤ} (h1 : -2 ^ 63 ≤ i) (h2 : i < 2 ^ 63) : Short50 (decimal i) := by
  have hlen := decimal_length_le h1 h2
  exact ⟨⟨not_mem_decimal rfl (by decide) i, not_mem_decimal rfl (by decide) i⟩, by omega⟩

theorem DbFits.step (h : DbFits db) {o : Op} (ho : o.isWrite = true) (hfits : o.Fits)
    (hincr : ∀ k, o = .incr k → IncrOk (db k)) : DbFits (redisSem.step db o) := by
  intro b v hb
  cases o with
  | set k x =>
    rw [step_eq_update db (o := .set k x) rfl] at hb
    by_cases hk : b = k
    · subst hk
      rw [update_self] at hb
      obtain rfl : x = v := some.inj hb
      exact ⟨hfits b (by simp [Op.args]), hfits x (by simp [Op.args])⟩
    · rw [update_of_ne hk] at hb
      exact h b v hb
  | incr k =>
    rw [step_eq_update db (o := .incr k) rfl] at hb
    by_cases hk : b = k
    · subst hk
      rw [update_self] at hb
      have hval : incrValue (db b) = some v := hb
      refine ⟨hfits b (by simp [Op.args]), ?_⟩
      have hok := hincr b rfl
      cases hdb : db b with
      | none =>
        rw [hdb, incrValue_none] at hval
        rw [← some.inj hval]
        exact short50_decimal (by norm_num) (by norm_num)
      | some x =>
        obtain ⟨i, h1, h2, rfl⟩ := hok x hdb
        rw [hdb, incrValue_decimal (by unfold LLONG_MIN; omega) (by unfold LLONG_MAX; omega)] at hval
        rw [← some.inj hval]
        exact short50_decimal (by omega) (by omega)
    · rw [update_of_ne hk] at hb
      exact h b v hb
  | del k =>
    rw [step_eq_update db (o := .del k) rfl] at hb
    by_cases hk : b = k
    · subst hk
      rw [update_self] at hb
      cases hb
    · rw [update_of_ne hk] at hb
      exact h b v hb
  | _ => cases ho

/-! ### The position of the indexer -/

theorem entries_of_bytes {P N : List Entry} (h : entryBytes P <+: entryBytes N) : P <+: N := by
  induction P generalizing N with
  | nil => exact nil_prefix
  | cons e P ih =>
    obtain ⟨z, hz⟩ := h
    cases N with
    | nil =>
      have hnil := append_eq_nil_iff.mp hz
      exact absurd (append_eq_nil_iff.mp hnil.1).1 e.bytes_ne_nil
    | cons d N =>
      rw [entryBytes_cons, entryBytes_cons, append_assoc] at hz
      have hread := readCommand_bytes e (entryBytes P ++ z)
      rw [hz, readCommand_bytes] at hread
      obtain ⟨hargv, hrest⟩ := Prod.mk.inj (Except.ok.inj hread)
      obtain rfl : d = e := by
        cases d
        cases e
        simp_all
      exact (prefix_cons_inj d).mpr (ih ⟨z, hrest.symm⟩)

/-- Between two rounds: the indexer has read the first `n` commands of the log, they are in the
store, and the position is saved. -/
structure ReadTo (mem : NodeMemory) (L : List LogCmd) (n : ℕ) (i : Indexer) : Prop where
  le : n ≤ L.length
  seek : i.seek = offset L n
  nodes : i.nodes = n
  vars : (⟨i.key, i.value⟩ : Carried) = carriedBy ((L.take n).map LogCmd.entry)
  store : ∃ done : List RecordToIndex, queueNodes mem [] ((L.take n).map LogCmd.entry) = done.map some ∧
    i.disk.dbp = (done.map RecordToIndex.indexOp).foldl applyRecord Multimap.empty
  pending : i.pending = []
  position : i.disk.files.finalLogSeek = some i.seek
  saved : i.disk.files.indexedLog = .ok i.disk.dbp

variable {mem : NodeMemory} {L : List LogCmd} {n : ℕ} {i : Indexer}

theorem readTo_start : ReadTo mem [] 0 (Indexer.start firstFiles Multimap.empty) :=
  ⟨le_refl _, rfl, rfl, rfl, ⟨[], rfl, rfl⟩, rfl, rfl, rfl⟩

theorem ReadTo.transfer (h : ReadTo mem L n i) {N : List LogCmd} (hle : n ≤ N.length)
    (hsame : (N.take n).map LogCmd.entry = (L.take n).map LogCmd.entry) : ReadTo mem N n i where
  le := hle
  seek := by rw [h.seek, offset, offset, aofBytes_entry, aofBytes_entry, hsame]
  nodes := h.nodes
  vars := by rw [hsame, h.vars]
  store := by rw [hsame]; exact h.store
  pending := h.pending
  position := h.position
  saved := h.saved

theorem ReadTo.append (h : ReadTo mem L n i) (M : List LogCmd) : ReadTo mem (L ++ M) n i :=
  h.transfer (by rw [length_append]; have := h.le; omega) (by rw [take_append_of_le_length h.le])

theorem ReadTo.switch (h : ReadTo mem L n i) {N : List LogCmd}
    (hbytes : (aofBytes L).take i.seek.toNat <+: aofBytes N) : ReadTo mem N n i := by
  have htake : (aofBytes L).take i.seek.toNat = aofBytes (L.take n) := by
    have hsplit := aofBytes_append (L.take n) (L.drop n)
    rw [take_append_drop] at hsplit
    rw [h.seek, Int.toNat_natCast, offset, hsplit, take_left]
  rw [htake, aofBytes_entry, aofBytes_entry] at hbytes
  have hpre := entries_of_bytes hbytes
  have hlen := hpre.length_le
  rw [length_map, length_map, length_take, min_eq_left h.le] at hlen
  refine h.transfer hlen ?_
  rw [map_take]
  have heq := prefix_iff_eq_take.mp hpre
  rw [length_map, length_take, min_eq_left h.le] at heq
  exact heq.symm

theorem exec_batch_saved (ri : List RecordToIndex) (seek : ℤ) (d : Indexing) :
    ((writeToIndexedLog ri seek none).effects.foldl Effect.exec d).files.indexedLog =
      .ok ((writeToIndexedLog ri seek none).effects.foldl Effect.exec d).dbp := by
  rw [writeToIndexedLog_effects, foldl_append]
  rfl

theorem ReadTo.poll (h : ReadTo mem L n i) (hshort : ∀ c ∈ L, c.op.Short) :
    ∃ i', indexerPoll mem i (aofBytes L) = .returned i' ∧ ReadTo mem L L.length i' := by
  have hentries : ∀ e ∈ (L.take n).map LogCmd.entry ++ (L.drop n).map LogCmd.entry, e.Short := by
    rw [← map_append, take_append_drop]
    intro e he
    obtain ⟨c, hc, rfl⟩ := mem_map.mp he
    exact LogCmd.short_entry (hshort c hc)
  have hread : fseek (aofBytes L) i.seek = entryBytes ((L.drop n).map LogCmd.entry) := by
    have hsplit := fseek_aofBytes (L.take n) (L.drop n)
    rw [take_append_drop] at hsplit
    rw [h.seek, offset, hsplit, aofBytes_entry]
  have hlen : (L.take n).length = n := by rw [length_take, min_eq_left h.le]
  rw [indexerPoll, hread]
  split_ifs with hend
  · have hdrop := map_eq_nil_iff.mp (entryBytes_eq_nil hend)
    have hn : n = L.length := le_antisymm h.le (drop_eq_nil_iff.mp hdrop)
    exact ⟨i, rfl, hn ▸ h⟩
  obtain ⟨done, hrecords, hstore⟩ := h.store
  have hprog : Progress mem 0 Multimap.empty done ((L.take n).map LogCmd.entry) ((L.drop n).map LogCmd.entry) i := by
    refine ⟨?_, ?_, fun e _ => by rw [h.vars], ?_, hstore⟩
    · rw [h.seek, offset, aofBytes_entry]
      simp
    · rw [h.nodes, length_map, hlen]
    · rw [h.pending, append_nil, hrecords]
  have hwhole := completeIn_of_le (le_refl (entryBytes ((L.drop n).map LogCmd.entry)).length)
  have hfuel : (entryBytes ((L.drop n).map LogCmd.entry)).length < (aofBytes L).length + 1 := by
    rw [← hread, fseek, length_drop]
    omega
  obtain ⟨s', full, R', hR, hscan, hprog', hfull, -, hvars⟩ := indexerScan_progress _ (by rwa [hwhole]) hfuel hprog
  rw [hwhole] at hR hprog' hvars
  obtain rfl : R' = [] := by simpa using hR
  rw [Bool.eq_true_of_not_eq_false fun hf => hfull hf rfl, take_length] at hscan
  replace hvars := hvars rfl h.vars
  have hall : (L.take n).map LogCmd.entry ++ (L.drop n).map LogCmd.entry = (L.take L.length).map LogCmd.entry := by
    rw [← map_append, take_append_drop, take_length]
  rw [hscan]
  rw [hall] at hprog' hvars
  have hflush := hprog'.flush
  refine ⟨_, rfl, le_refl _, ?_, ?_, hvars, ⟨done ++ s'.pending, ?_, hflush.store⟩, rfl, ?_,
    exec_batch_saved ..⟩
  · rw [hprog'.seek, offset, aofBytes_entry]
    simp
  · rw [hprog'.nodes, length_map, length_take, min_self]
  · rw [hprog'.records]
  · exact (exec_writeToIndexedLog s'.pending s'.seek none s'.disk).2

/-! ### Runs -/

/-- What the theorem asks of an event: writes that the indexers can hold, no RDB preamble, and
a new file that begins with the bytes the indexer has read. -/
def IrEvent.Allowed (s : IrServer) : IrEvent → Prop
  | .write c => c.op.isWrite = true ∧ c.op.Fits ∧ ∀ k, c.op = .incr k → IncrOk (s.db k)
  | .poll => True
  | .fork rdb keys => rdb = none ∧ Lists keys s.db
  | .done => ∀ f, s.rewrite = some f → s.file.take s.indexer.seek.toNat <+: f.file

def AllowedRun (mem : NodeMemory) : List IrEvent → IrServer → Prop
  | [], _ => True
  | a :: as, s => a.Allowed s ∧ ∀ s', a.exec mem s = .returned s' → AllowedRun mem as s'

/-- The log and what the rewrite has so far stand for the database, and the indexer is
somewhere in the log. -/
structure Consistent (mem : NodeMemory) (s : IrServer) : Prop where
  preamble : s.preamble = []
  log : Stands s.log s.db
  db : DbFits s.db
  rewrite : ∀ f, s.rewrite = some f → f.preamble = [] ∧ Stands (f.snapshot ++ f.diff) s.db
  indexer : ∃ n, ReadTo mem s.log n s.indexer

theorem consistent_first : Consistent mem IrServer.first :=
  ⟨rfl, stands_nil, by rintro k v ⟨⟩, by rintro f ⟨⟩, 0, readTo_start⟩

theorem stands_fed {c : LogCmd} (hc : (IrEvent.write c).Allowed s) {M : List LogCmd} (h : Stands M s.db) :
    Stands (M ++ s.fed c) (c.op.cmd.proc s.db).db := by
  obtain ⟨hwrite, hfits, hincr⟩ := hc
  unfold IrServer.fed
  split_ifs with hclean hselected
  · rw [append_nil, proc_db_of_clean hwrite hclean]
    exact h
  · rw [proc_cmd_db]
    exact h.append hfits hincr
  · rw [proc_cmd_db, ← singleton_append, ← append_assoc]
    exact h.select.append hfits hincr

theorem Consistent.exec (h : Consistent mem s) {a : IrEvent} (ha : a.Allowed s) :
    ∃ s', a.exec mem s = .returned s' ∧ Consistent mem s' := by
  obtain ⟨n, hread⟩ := h.indexer
  cases a with
  | write c =>
    refine ⟨_, rfl, h.preamble, stands_fed ha h.log, ?_, ?_, n, hread.append _⟩
    · have hdb := h.db.step ha.1 ha.2.1 ha.2.2
      rwa [← proc_cmd_db] at hdb
    · intro f hf
      obtain ⟨f0, hf0, rfl⟩ := map_eq_some_iff.mp hf
      obtain ⟨hpre, hstands⟩ := h.rewrite f0 hf0
      have hfed := stands_fed ha hstands
      rw [append_assoc] at hfed
      exact ⟨hpre, hfed⟩
  | poll =>
    have hfile : s.file = aofBytes s.log := by rw [IrServer.file, h.preamble, nil_append]
    have hshort : ∀ c ∈ s.log, c.op.Short := fun c hc b hb => (h.log.fits c hc b hb).2
    obtain ⟨i, hpoll, hread'⟩ := hread.poll hshort
    refine ⟨{ s with indexer := i }, ?_, h.preamble, h.log, h.db, h.rewrite, _, hread'⟩
    rw [IrEvent.exec, hfile, hpoll]
  | fork rdb keys =>
    obtain ⟨rfl, hkeys⟩ := ha
    cases hr : s.rewrite with
    | some f => exact ⟨s, by simp [IrEvent.exec, hr], h⟩
    | none =>
      refine ⟨s.rewriteAppendOnlyFileBackground none keys, by simp only [IrEvent.exec, hr],
        h.preamble, h.log, h.db, ?_, n, hread⟩
      intro f hf
      obtain rfl := some.inj hf
      refine ⟨rfl, ?_⟩
      rw [append_nil]
      exact stands_snapshot hkeys h.db
  | done =>
    cases hr : s.rewrite with
    | none => exact ⟨s, by simp [IrEvent.exec, hr], h⟩
    | some f =>
      obtain ⟨hpre, hstands⟩ := h.rewrite f hr
      have hbytes := ha f hr
      rw [IrServer.file, h.preamble, nil_append, Fork.file, hpre, nil_append] at hbytes
      refine ⟨s.backgroundRewriteDoneHandler f, by simp only [IrEvent.exec, hr],
        hpre, hstands, h.db, ?_, n, hread.switch hbytes⟩
      intro g hg
      cases hg

theorem Consistent.run (h : Consistent mem s) {as : List IrEvent} (has : AllowedRun mem as s) :
    ∃ s', s.run mem as = .returned s' ∧ Consistent mem s' := by
  induction as generalizing s with
  | nil => exact ⟨s, rfl, h⟩
  | cons a as ih =>
    obtain ⟨s1, hexec, h1⟩ := h.exec has.1
    obtain ⟨s2, hrun, h2⟩ := ih h1 (has.2 s1 hexec)
    exact ⟨s2, by rw [IrServer.run, hexec]; exact hrun, h2⟩

/-! ### The restart -/

/-- The key comes back when `A` was indexed online and `B` at the start: `B` overwrites it, or
the last command on it in `A` is one on which the indexers agree, or `B` counts on from the same
number. -/
def KeyRecovered (mem : NodeMemory) (A B : List LogCmd) (k : CStr) : Prop :=
  Overwritten k B ∨ (∀ A' c, KeyedLog.LastTouch (fun c : LogCmd => c.op.indexKey) k.val A A' c →
    AgreesAt A' c) ∨ 0 < incrCount k B ∧ counter (view (onlineIndex mem A) k) = counter (intValue A k.val)

/-- The store after a restart, compared with the database that the log stands for. -/
theorem recovered_iff {A B : List LogCmd} (h : Stands (A ++ B) db) :
    recovered (indexRecords (onlineIndex mem A) B) = db ↔ ∀ k, KeyRecovered mem A B k := by
  have hA : ∀ c ∈ A, c.op.Fits := fun c hc => h.fits c (by simp [hc])
  have hplain : ∀ c ∈ A ++ B, c.op.Plain := fun c hc => (h.fits c hc).plain
  have hkey : ∀ k : CStr, view (indexRecords (onlineIndex mem A) B) k = db k.val ↔ KeyRecovered mem A B k := by
    intro k
    have hdb : db k.val = recordSem.fold k (intValue A k.val) B := by
      have hfold := fold_agree k none (A ++ B) hplain fun A' c B' hL hop => by
        have := h.incrs A' c B' hL _ hop
        rwa [redisSem.replay_apply] at this
      rw [← h.replay, redisSem.replay_apply, ← view_initial hA, view_indexRecords_apply, view_empty,
        ← recordSem.fold_append]
      exact hfold.symm
    rw [view_indexRecords_apply, hdb, fold_eq_iff, KeyRecovered, view_online_eq_iff mem hA]
  refine ⟨fun heq k => (hkey k).mp ?_, fun hall => ?_⟩
  · have hb := congrFun heq k.val
    rwa [recovered, cstr_val, if_pos rfl] at hb
  · funext b
    rw [recovered]
    split_ifs with hb
    · have hview := (hkey (cstr b)).mpr (hall (cstr b))
      rwa [hb] at hview
    · rw [← h.replay, redisSem.replay_apply]
      exact (fold_of_nul hb (A ++ B) hplain).symm

/-- In a run in which every rewrite keeps the bytes that the indexer has read, a restart returns,
and it brings back exactly the keys that it would bring back without a rewrite. -/
theorem rewrite_recovered_iff (mem : NodeMemory) {as : List IrEvent}
    (has : AllowedRun mem as IrServer.first) :
    ∃ s r idx n, IrServer.first.run mem as = .returned s ∧ s.restart = .returned r ∧
      r.result.files.indexedLog = .ok idx ∧ s.indexer.seek = offset s.log n ∧
      (recovered idx = s.db ↔ ∀ k, KeyRecovered mem (s.log.take n) (s.log.drop n) k) := by
  obtain ⟨s, hrun, h⟩ := consistent_first.run has
  obtain ⟨n, hread⟩ := h.indexer
  have hfile : s.file = aofBytes (s.log.take n ++ s.log.drop n) := by
    rw [IrServer.file, h.preamble, nil_append, take_append_drop]
  have hstart := @chooseStart_ok { s.indexer.disk.files with aof := s.file } false (offset s.log n) _
    (by rw [← hread.seek]; exact hread.position) hread.saved
  obtain ⟨r, hrestart, hidx, -⟩ := @initialIndexes_boundary { s.indexer.disk.files with aof := s.file } false
    _ _ _ hfile (by rw [hstart]; rfl)
    (by rw [hstart, hread.saved]; rfl)
  obtain ⟨done, hrecords, hstore⟩ := hread.store
  have honline : s.indexer.disk.dbp = onlineIndex mem (s.log.take n) := by
    rw [hstore, onlineOps_of_queueNodes (A := []) hrecords]
    rfl
  refine ⟨s, r, _, n, hrun, hrestart, hidx, hread.seek, ?_⟩
  rw [honline]
  exact recovered_iff (by rw [take_append_drop]; exact h.log)

def Outcome.returns {α : Type} (p : α → Bool) : Outcome α → Bool
  | .returned a => p a
  | _ => false

theorem Outcome.of_returns {α : Type} {p : α → Bool} {o : Outcome α} (h : o.returns p = true) :
    ∃ a, o = .returned a ∧ p a = true := by
  cases o with
  | returned a => exact ⟨a, rfl, h⟩
  | _ => cases h

def Outcome.exits {α : Type} : Outcome α → Bool
  | .exited => true
  | _ => false

theorem Outcome.of_exits {α : Type} {o : Outcome α} (h : o.exits = true) : o = .exited := by
  cases o with
  | exited => rfl
  | _ => cases h

theorem DbFile.of_openR {f : DbFile} {p : IndexedLog → Bool} (h : f.openR.any p = true) :
    ∃ idx, f = .ok idx ∧ p idx = true := by
  cases f with
  | ok idx => exact ⟨idx, rfl, h⟩
  | _ => cases h

theorem second_args_fit : ∀ a ∈ Op.args (.set (ascii ['m']) (ascii ['5'])), a.length < 2 ^ 63 := by decide

def setSecond : LogCmd := Op.logged (.set (ascii ['m']) (ascii ['5'])) second_args_fit

/-- The rewrite of a log with one `SET`, read by the indexer, gives the same log. -/
def keptRun : List IrEvent := [.write setCounter, .poll, .fork none [ascii ['n']], .done, .write setSecond]

theorem lists_counter : Lists [ascii ['n']] (setCounter.op.cmd.proc emptyDb).db := by
  refine ⟨by decide, fun k => ?_⟩
  change k ∈ [ascii ['n']] ↔ update emptyDb (ascii ['n']) (some (ascii ['9'])) k ≠ none
  by_cases hk : k = ascii ['n']
  · simp [hk]
  · simp [hk, emptyDb]

theorem rewrite_recovered_kept : AllowedRun (fun _ => (0, 0)) keptRun IrServer.first ∧
      ∃ s r idx n, IrServer.first.run (fun _ => (0, 0)) keptRun = .returned s ∧ s.restart = .returned r ∧
        r.result.files.indexedLog = .ok idx ∧ s.indexer.seek = offset s.log n ∧
        (recovered idx = s.db ↔ ∀ k, KeyRecovered (fun _ => (0, 0)) (s.log.take n) (s.log.drop n) k) := by
  have hallowed : AllowedRun (fun _ => (0, 0)) keptRun IrServer.first := by
    have hpoll := of_returns (o := indexerPoll (fun _ => (0, 0)) (IrServer.first.write setCounter).indexer
      (IrServer.first.write setCounter).file) (p := fun i => i.seek == 50) (by decide +kernel)
    obtain ⟨i, hi, hseek⟩ := hpoll
    refine ⟨⟨rfl, by decide +kernel, by rintro k ⟨⟩⟩, ?_⟩
    rintro s ⟨⟩
    refine ⟨trivial, fun s hs => ?_⟩
    rw [IrEvent.exec, hi] at hs
    cases hs
    refine ⟨⟨rfl, lists_counter⟩, ?_⟩
    rintro s ⟨⟩
    refine ⟨?_, ?_⟩
    · rintro f ⟨⟩
      change (IrServer.first.write setCounter).file.take i.seek.toNat <+:
        Fork.file ⟨[], rewriteAppendOnlyFileRio [ascii ['n']] (IrServer.first.write setCounter).db, []⟩
      rw [eq_of_beq hseek]
      decide +kernel
    · rintro s ⟨⟩
      exact ⟨⟨rfl, by decide +kernel, by rintro k ⟨⟩⟩, fun _ _ => trivial⟩
  exact ⟨hallowed, rewrite_recovered_iff _ hallowed⟩

/-! ### Rewrites that lose what was read -/

/-- A counter is set `n` times, all of it is indexed, the log is rewritten, and another key
is set. -/
def rewrittenRun (n : ℕ) : List IrEvent :=
  replicate n (.write setCounter) ++ [.poll, .fork none [ascii ['n']], .done, .write setSecond]

/-- The new file has 100 bytes. After two writes the position is 77, inside the second `SET`, and the
restart exits; after five it is behind the end, and the key set last is lost. -/
theorem rewritten_log_misread :
    (∃ s, IrServer.first.run (fun _ => (0, 0)) (rewrittenRun 2) = .returned s ∧ s.restart = .exited) ∧
      ∃ s r idx, IrServer.first.run (fun _ => (0, 0)) (rewrittenRun 5) = .returned s ∧ s.restart = .returned r ∧
        r.result.files.indexedLog = .ok idx ∧ recovered idx (ascii ['m']) = none ∧
        s.db (ascii ['m']) = some (ascii ['5']) := by
  have htwo : (IrServer.first.run (fun _ => (0, 0)) (rewrittenRun 2)).returns
      (fun s => s.restart.exits) = true := by decide +kernel
  have hfive : (IrServer.first.run (fun _ => (0, 0)) (rewrittenRun 5)).returns
      (fun s => s.restart.returns fun r => r.result.files.indexedLog.openR.any fun idx =>
        recovered idx (ascii ['m']) == none && s.db (ascii ['m']) == some (ascii ['5'])) = true := by
    decide +kernel
  obtain ⟨s, hrun, hrestart⟩ := of_returns htwo
  obtain ⟨s', hrun', hrestart'⟩ := of_returns hfive
  obtain ⟨r, hr, hidx⟩ := of_returns hrestart'
  obtain ⟨idx, hok, hkeys⟩ := DbFile.of_openR hidx
  rw [Bool.and_eq_true, beq_iff_eq, beq_iff_eq] at hkeys
  exact ⟨⟨s, hrun, of_exits hrestart⟩, s', r, idx, hrun', hr, hok, hkeys.1, hkeys.2⟩

theorem readHeader_notCommand {b : UInt8} (hb : b ≠ 42) (rest : Bytes) : readHeader (b :: rest) = .error .fmterr := by
  have hline : (takeLine (bufSize - 1) (b :: rest)).1.head? = some b := by
    rw [show bufSize - 1 = 126 + 1 from rfl, takeLine]
    split_ifs
    · rfl
    · rfl
  simp [readHeader, fgets, hline, hb]

theorem initialIndexes_notCommand {files : Files} {replicated : Bool} {dbp : IndexedLog} {b : UInt8} (hb : b ≠ 42)
    {rest : Bytes} (hread : fseek files.aof (chooseStart files replicated).seek = b :: rest)
    (hopen : (chooseStart files replicated).files.indexedLog.openW = some dbp) :
    initialIndexesSequentialLogToIndexedLog files replicated = .exited := by
  have haof : files.aof ≠ [] := by
    intro hnil
    rw [hnil, fseek, drop_nil] at hread
    cases hread
  simp [initialIndexesSequentialLogToIndexedLog, hopen, if_neg haof, hread, initialLoop, readHeader_notCommand hb]

/-- With an RDB preamble the new file begins with an `R`, and the restart exits even if nothing
was indexed before. -/
theorem rewritten_preamble_exits (rdb : Bytes) : ∃ s, IrServer.first.run (fun _ => (0, 0))
        [.write setCounter, .fork (some (82 :: rdb)) [ascii ['n']], .done, .write setSecond] = .returned s ∧
      s.restart = .exited := by
  refine ⟨_, rfl, ?_⟩
  exact initialIndexes_notCommand (b := 82) (by decide) rfl rfl

end RedisIR
