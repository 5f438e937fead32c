import RedisIR.Proofs.Recovery

/-! Whole runs of a recovering server: what clients see of it, when a deletion stays, and
what happens before the loader has raised its flag. -/

namespace RedisIR

open CLib Function Server Machine

def recovered (idx : IndexedLog) : Db := fun b => if (cstr b).val = b then view idx (cstr b) else none

/-- The database as the incremental loader brings it back. -/
def Allocator.recovered (m : Allocator) (idx : IndexedLog) : Db :=
  fun b => if (cstr b).val = b then m.view idx (cstr b) else none

theorem Allocator.recovered_eq {m : Allocator} {idx : IndexedLog} (h : Roomy m.usable idx) :
    m.recovered idx = RedisIR.recovered idx := by
  funext b
  rw [Allocator.recovered, RedisIR.recovered, view_of_fits (h.get _)]

section

variable {p : Prop} {idx : IndexedLog} {c : List (CStr × CStr)}
variable {s : Server} {t : Db} (m : Allocator)

/-! ### The loader on its own -/

theorem sim_restarted (p : Prop) (hc : idx.IsCursor c) : Sim p idx (Server.restarted m c) (m.recovered idx) := by
  obtain ⟨ks, hnodup, hks, rfl⟩ := hc
  have hks' : ∀ k ∈ ks, idx.get k ≠ [] := fun k hk => (hks k).mp hk
  have haw : ∀ k, (Server.restarted m (idx.scan ks)).awaits k ↔ idx.get k ≠ [] := by
    intro k
    simp [awaits, ahead, holds, Server.restarted, mem_keys_scan hks', hks, -List.mem_map]
  refine ⟨fun b => ?_, ⟨⟨ks, hnodup, hks', rfl⟩, ?_, ?_, ?_, ?_, fun _ => .inl rfl⟩⟩
  · have hall : m.recovered idx b = (Server.restarted m (idx.scan ks)).expects idx b := by
      rw [Allocator.recovered, expects]
      by_cases hb : (cstr b).val = b
      · by_cases hget : idx.get (cstr b) = []
        · rw [if_pos hb, if_neg fun h => (haw _).mp h.2 hget, view_eq_none hget]
        · rw [if_pos hb, if_pos ⟨hb, (haw _).mpr hget⟩]
          rfl
      · rw [if_neg hb, if_neg fun h => hb h.1]
    rw [hall]
    exact .refl p _
  all_goals simp [Server.restarted, holds]

theorem sim_recovering (p : Prop) (hidx : Redoable idx) (hc : idx.IsCursor c) :
    Sim p idx (recovering m c) (m.recovered idx) := by
  have h := (sim_restarted m p hc).loader hidx
  rwa [loaderStep_start rfl] at h

theorem Sim.iterate (hidx : Redoable idx) (h : Sim p idx s t) (n : ℕ) : Sim p idx ((loaderStep idx)^[n] s) t := by
  induction n generalizing s with
  | zero => exact h
  | succ n ih =>
    rw [iterate_succ_apply]
    exact ih (h.loader hidx)

theorem Sim.db_of_done (h : Sim p idx s t) (hp : p) (hpc : s.loader.pc = .done) : s.db = t := by
  funext b
  refine ((h.agrees.eq_of_not_awaits (.inr fun haw => ?_)).2 hp).symm
  rcases haw.2 with hahead | hheld
  · simp [ahead, h.inv.ended (.inr (.inr hpc))] at hahead
  · have := hpc.symm.trans hheld.1
    cases this

/-- The incremental loader, left alone, terminates with the recovered database. -/
theorem loadDBFromIndexedLog_db (hidx : Redoable idx) (hc : idx.IsCursor c) :
    (loadDBFromIndexedLog m idx c).loader.pc = .done ∧ (loadDBFromIndexedLog m idx c).db = m.recovered idx := by
  have hdone : (loadDBFromIndexedLog m idx c).loader.pc = .done :=
    loaderStep_iterate_done idx (Server.restarted m c) le_rfl
  -- nothing is loaded on demand, so the values are the loader's own
  exact ⟨hdone, ((sim_restarted m True hc).iterate hidx _).db_of_done trivial hdone⟩

/-- The database that the loader ends with depends on the memory behind the blocks, unless the
counters fit. -/
theorem roomy_of_loaded (hidx : Redoable idx) {t : Db}
    (h : ∀ m' : Allocator, m'.usable = m.usable → ∀ c, idx.IsCursor c →
    (loadDBFromIndexedLog m' idx c).db = t) : Roomy m.usable idx := by
  intro e he
  by_contra hover
  obtain ⟨m₁, m₂, h₁, h₂, hne⟩ := loads_loader.differs hover
  have hread : ∀ m' : Allocator, m'.usable = m.usable → some (m'.loaderValue (idx.get e.1)) = t e.1.val := by
    intro m' hm
    rw [← h m' hm _ idx.cursor_isCursor, (loadDBFromIndexedLog_db _ hidx idx.cursor_isCursor).2,
      Allocator.recovered, cstr_val, if_pos rfl, view_eq_some (ne_nil_of_not_fits hover)]
  exact hne (Option.some.inj ((hread m₁ h₁).trans (hread m₂ h₂).symm))

theorem serverRun_loader (idx : IndexedLog) (n : ℕ) (s : Server) :
    serverRun idx (List.replicate n .loader) s = ((loaderStep idx)^[n] s, []) := by
  induction n generalizing s with
  | zero => rfl
  | succ n ih =>
    rw [iterate_succ_apply, ← ih]
    rfl

/-! ### Clients that never delete -/

/-- Every key of the indexed log exists in `t`. -/
def Covers (idx : IndexedLog) (t : Db) : Prop := ∀ k, idx.get k ≠ [] → t k.val ≠ none

theorem covers_recovered (idx : IndexedLog) : Covers idx (m.recovered idx) := by
  intro k hk
  simp [Allocator.recovered, cstr_val, view_eq_some hk]

theorem Covers.proc (h : Covers idx t) {d : Cmd} (hd : d.onDemand ≠ none) : Covers idx (d.proc t).db := by
  intro k hk
  have ht := h k hk
  cases d with
  | set k' v =>
    by_cases he : k.val = k'
    · simp [Cmd.proc, setCommand, setGenericCommand, setKey, he]
    · simpa [Cmd.proc, setCommand, setGenericCommand, setKey, update_of_ne he] using ht
  | get k' =>
    simp only [Cmd.proc, getCommand]
    split <;> exact ht
  | incr k' =>
    rw [Cmd.proc, incrCommand_db]
    by_cases he : k.val = k'
    · rw [← he, update_self]
      exact incrValue_ne_none _
    · rwa [update_of_ne he]
  | _ => exact absurd rfl hd

/-- An indexed key that is not in memory is still to be brought in. -/
theorem Sim.awaits_of_covers (h : Sim p idx s t) (ht : Covers idx t) {k : CStr} (hk : idx.get k ≠ [])
    (hdb : s.db k.val = none) : s.awaits k := by
  by_contra hno
  have := h.agrees.eq_of_not_awaits (b := k.val) (.inr (by rwa [cstr_val]))
  exact ht k hk (this.1.mpr hdb)

theorem Sim.step_of_covers (hidx : Redoable idx) (h : Sim p idx s t) (hp : p → Roomy s.allocator.usable idx)
    (ht : Covers idx t) {a : Action}
    (ha : ∀ d ∈ a.cmds, ∃ k, d.onDemand = some k ∧ ((∃ v, d = .set k v) ∨ GateSafe idx s k)) :
    (Sim p idx (serverStep idx a s).1 (dbRun a.cmds t).1 ∧ Covers idx (dbRun a.cmds t).1) ∧
      List.Forall₂ (SameReply p) (serverStep idx a s).2 (dbRun a.cmds t).2 := by
  cases a with
  | loader => exact ⟨⟨h.loader hidx, ht⟩, .nil⟩
  | client d =>
    obtain ⟨k, hd, hgate⟩ := ha d (by simp [Action.cmds])
    obtain ⟨hsim, hreply⟩ := h.client hp hd (fun _ _ hk hdb => (h.awaits_of_covers ht hk hdb).2) hgate
    have hcov : Covers idx (d.proc t).db := ht.proc (by simp [hd])
    exact ⟨⟨hsim, hcov⟩, .cons hreply .nil⟩

end

section

variable (idx : IndexedLog) (s : Server) (d : Cmd) (a : Action)

theorem loaderStep_keeps : (loaderStep idx s).allocator = s.allocator ∧ (loaderStep idx s).loader.pc ≠ .start := by
  cases hpc : s.loader.pc with
  | scan =>
    rw [loaderStep, hpc]
    dsimp only
    split
    · simp
    · split_ifs <;> simp [hpc]
  | start => simp [loaderStep_start hpc]
  | send => simp [loaderStep_send hpc]
  | mark => simp [loaderStep_mark hpc]
  | clear => simp [loaderStep_clear hpc]
  | lower => simp [loaderStep_lower hpc]
  | done => simp [loaderStep_done hpc, hpc]

theorem call_keeps :
    (call idx d s).server.allocator = s.allocator ∧ (call idx d s).server.loader = s.loader := by
  simp only [call, restoreOnDemand]
  cases d.onDemand with
  | none => exact ⟨rfl, rfl⟩
  | some k =>
    simp only [loadRecordFromIndexedLog]
    split_ifs <;> exact ⟨rfl, rfl⟩

theorem serverStep_allocator : (serverStep idx a s).1.allocator = s.allocator := by
  cases a with
  | loader => exact (loaderStep_keeps idx s).1
  | client d => exact (call_keeps idx s d).1

theorem serverStep_pc_ne_start (h : s.loader.pc ≠ .start) : (serverStep idx a s).1.loader.pc ≠ .start := by
  cases a with
  | loader => exact (loaderStep_keeps idx s).2
  | client d => simpa [serverStep, call_keeps] using h

end

/-- A run of clients that never delete against the fully loaded database. -/
theorem run_of_covers {idx : IndexedLog} {c : List (CStr × CStr)} (hidx : Redoable idx) (hc : idx.IsCursor c)
    (m : Allocator) {acts : List Action} (hacts : ∀ d ∈ acts.flatMap Action.cmds, d.onDemand ≠ none) :
    Sim (Roomy m.usable idx) idx (serverRun idx acts (.recovering m c)).1
        (dbRun (acts.flatMap Action.cmds) (loadDBFromIndexedLog m idx c).db).1 ∧
      List.Forall₂ (SameReply (Roomy m.usable idx)) (serverRun idx acts (.recovering m c)).2
        (dbRun (acts.flatMap Action.cmds) (loadDBFromIndexedLog m idx c).db).2 := by
  rw [(loadDBFromIndexedLog_db m hidx hc).2]
  have hsched : Along (serverStep idx) (fun _ a => ∀ d ∈ a.cmds, d.onDemand ≠ none) acts
      (.recovering m c) :=
    along_of_flatMap hacts _
  -- the relation also records that the flag is up, so that no command slips through the gate
  obtain ⟨⟨⟨hsim, -⟩, -⟩, hout⟩ := simulation dbStep Action.cmds
    (fun s t => (Sim (Roomy m.usable idx) idx s t ∧ Covers idx t) ∧ s.loader.pc ≠ .start ∧ s.allocator = m)
    (SameReply (Roomy m.usable idx))
    (fun s t a ⟨⟨h, ht⟩, hpc, hm⟩ ha => by
      obtain ⟨hR, hout⟩ := h.step_of_covers hidx (by rw [hm]; exact id) ht fun d hd => by
        obtain ⟨k, hk⟩ := Option.ne_none_iff_exists'.mp (ha d hd)
        exact ⟨k, hk, .inr fun _ _ => hpc⟩
      exact ⟨⟨hR, serverStep_pc_ne_start idx s a hpc, (serverStep_allocator idx s a).trans hm⟩, hout⟩)
    ⟨⟨sim_recovering m _ hidx hc, covers_recovered m idx⟩, by simp [recovering], rfl⟩ hsched
  exact ⟨hsim, hout⟩

theorem eq_of_sameReply {p : Prop} (hp : p) {rs rs' : List Reply} (h : List.Forall₂ (SameReply p) rs rs') :
    rs = rs' :=
  List.forall₂_eq_eq_eq ▸ h.imp fun _ _ h => h.2 hp

/-- Recovery is invisible: `SET`, `GET` and `INCR` clients get the replies of a server that was
fully loaded before, and the loader ends, with that server's database. This is so with any memory
behind the blocks exactly if the counters fit. -/
theorem recovery_invisible_iff {idx : IndexedLog} {c : List (CStr × CStr)} (hidx : Redoable idx)
    (hc : idx.IsCursor c) (m : Allocator) :
    ((∀ m' : Allocator, m'.usable = m.usable → ∀ acts : List Action,
        (∀ d ∈ acts.flatMap Action.cmds, d.onDemand ≠ none) → (serverRun idx acts (.recovering m' c)).2 =
            (dbRun (acts.flatMap Action.cmds) (loadDBFromIndexedLog m' idx c).db).2 ∧
          ((serverRun idx acts (.recovering m' c)).1.loader.pc = .done →
            (serverRun idx acts (.recovering m' c)).1.db =
            (dbRun (acts.flatMap Action.cmds) (loadDBFromIndexedLog m' idx c).db).1)) ↔ Roomy m.usable idx) ∧
      ∀ acts, ∃ n, (serverRun idx (acts ++ List.replicate n .loader) (.recovering m c)).1.loader.pc = .done := by
  refine ⟨⟨fun h => ?_, fun hroom m' hm acts hacts => ?_⟩, fun acts => ?_⟩
  · intro e he
    by_contra hover
    have hget := ne_nil_of_not_fits hover
    -- the first client reads the key on demand
    obtain ⟨hreply, -⟩ :=
      h (m.reading false true) rfl [.client (.get e.1.val)] (by simp [Action.cmds, Cmd.onDemand])
    have hload : (restoreOnDemand idx (.get e.1.val) (.recovering (m.reading false true) c)).1.db e.1.val =
        some (leastText false) := by
      rw [← reading_onDemandValue false true hover]
      simpa [restoreOnDemand, Cmd.onDemand, cstr_val, recovering, Server.restarted, isRestoredTuple] using
        onDemand_installs (s := recovering (m.reading false true) c) hget rfl
    have hall : (loadDBFromIndexedLog (m.reading false true) idx c).db e.1.val = some (leastText true) := by
      rw [(loadDBFromIndexedLog_db _ hidx hc).2, Allocator.recovered, cstr_val, if_pos rfl, view_eq_some hget,
        reading_loaderValue false true hover]
    simp [serverRun, dbRun, run, serverStep, dbStep, call, Cmd.proc, getCommand, Action.cmds, hload, hall] at hreply
    exact leastText_ne hreply
  · obtain ⟨hsim, hout⟩ := run_of_covers hidx hc m' hacts
    rw [hm] at hsim hout
    exact ⟨eq_of_sameReply hroom hout, fun hdone => hsim.db_of_done hroom hdone⟩
  · refine ⟨(serverRun idx acts (.recovering m c)).1.loader.togo, ?_⟩
    rw [serverRun, run_append, ← serverRun, serverRun_loader]
    exact loaderStep_iterate_done idx _ le_rfl

/-- From any state and however the clients come in between, the loader ends after the steps that it had
still to make. -/
theorem recovery_ends (idx : IndexedLog) (acts : List Action) (s : Server) :
    (serverRun idx acts s).1.loader.pc = .done ∨ acts.count .loader < s.loader.togo := by
  induction acts generalizing s with
  | nil => exact (Nat.eq_zero_or_pos _).imp_left (togo_eq_zero _).mp
  | cons a acts ih =>
    cases a with
    | client d => simpa [serverRun, run, serverStep, call_keeps] using ih (serverStep idx (.client d) s).1
    | loader =>
      refine (ih (loaderStep idx s)).imp_right fun hlt => ?_
      rw [List.count_cons_self]
      by_cases hdone : s.loader.togo = 0
      · rw [loaderStep_done ((togo_eq_zero _).mp hdone), hdone] at hlt
        exact absurd hlt (Nat.not_lt_zero _)
      · exact Nat.lt_of_le_of_lt hlt (loaderStep_togo idx s hdone)

/-- An indexed log with one record, `SET k v`. -/
def oneRecord : IndexedLog :=
  addRecordIndexedLog Multimap.empty (cstr (ascii ['k']))
    (Op.logged (.set (ascii ['k']) (ascii ['v'])) (by decide)).record

/-- A client reads `k` while the loader already holds its group. -/
theorem recovery_invisible_held :
    (serverRun oneRecord [.loader, .client (.get (ascii ['k'])), .loader, .client (.incr (ascii ['n']))]
        (.recovering jemalloc oneRecord.cursor)).2 =
      (dbRun [.get (ascii ['k']), .incr (ascii ['n'])]
        (loadDBFromIndexedLog jemalloc oneRecord oneRecord.cursor).db).2 :=
  ((recovery_invisible_iff (by decide) oneRecord.cursor_isCursor jemalloc).1.mpr (by decide +kernel) jemalloc rfl
    [.loader, .client (.get (ascii ['k'])), .loader, .client (.incr (ascii ['n']))] (by decide)).1

/-- `GET` of a counter that the increment has made too long for its block. -/
theorem recovery_shows : Redoable sixNinesIncr ∧
    (serverRun sixNinesIncr [.client (.get (ascii ['n']))] (.recovering jemalloc sixNinesIncr.cursor)).2 =
        [.bulk (decimal 1000000)] ∧
      (dbRun [.get (ascii ['n'])] (loadDBFromIndexedLog jemalloc sixNinesIncr sixNinesIncr.cursor).db).2 =
        [.bulk (decimal 1000000 ++ [1, 2, 1, 110])] := by
  decide +kernel

/-! ### Deletions -/

/-! Which keys exist does not depend on the values, so nothing is asked of the counters here. -/

theorem Sim.step_of_safe {s : Server} {t : Db} (hidx : Redoable idx) (h : Sim False idx s t)
    (hpc : s.loader.pc ≠ .start) {a : Action} (hsafe : DeletionSafe idx s a)
    (hreq : ∀ d ∈ a.cmds, d.isRequest = true) : Sim False idx (serverStep idx a s).1 (dbRun a.cmds t).1 ∧
      List.Forall₂ (SameReply False) (serverStep idx a s).2 (dbRun a.cmds t).2 := by
  cases a with
  | loader => exact ⟨h.loader hidx, .nil⟩
  | client d =>
    obtain ⟨hdel, hload⟩ := hsafe d (by simp [Action.cmds])
    have hd := hreq d (by simp [Action.cmds])
    have hboth : Sim False idx (call idx d s).server (d.proc t).db ∧
        SameReply False (call idx d s).reply (d.proc t).reply := by
      cases hon : d.onDemand with
      | some k => exact h.client False.elim hon (hload k hon) (.inr fun _ _ => hpc)
      | none =>
        obtain ⟨k, rfl⟩ : ∃ k, d = .del [k] := by
          unfold Cmd.isRequest at hd
          split at hd <;> first | exact ⟨_, rfl⟩ | cases hon | cases hd
        exact (h.client_del (hdel k (by simp [Cmd.deletes]))).imp_right .of_eq
    exact ⟨hboth.1, .cons hboth.2 .nil⟩

def Cmd.sets (d : Cmd) (k : Bytes) : Prop := (∃ v, d = .set k v) ∨ d = .incr k

theorem proc_absent {d : Cmd} {k : Bytes} {t : Db} (hreq : d.isRequest = true) (hk : ¬ d.sets k)
    (ht : t k = none) : (d.proc t).db k = none := by
  unfold Cmd.isRequest at hreq
  split at hreq
  · next k' v =>
    have hne : k ≠ k' := fun he => hk (.inl ⟨v, by rw [he]⟩)
    simpa [Cmd.proc, setCommand, setGenericCommand, setKey, update_of_ne hne] using ht
  · next k' =>
    simp only [Cmd.proc, getCommand]
    split <;> exact ht
  · next k' =>
    have hne : k ≠ k' := fun he => hk (.inr (by rw [he]))
    rwa [Cmd.proc, incrCommand_db, update_of_ne hne]
  · next k' =>
    rw [Cmd.proc, delCommand_db]
    by_cases he : k = k'
    · rw [he, update_self]
    · rwa [update_of_ne he]
  · cases hreq

theorem dbRun_absent {ds : List Cmd} {k : Bytes} {t : Db} (hreq : ∀ d ∈ ds, d.isRequest = true)
    (hk : ∀ d ∈ ds, ¬ d.sets k) (ht : t k = none) : (dbRun ds t).1 k = none := by
  induction ds generalizing t with
  | nil => exact ht
  | cons d ds ih =>
    exact ih (List.forall_mem_cons.mp hreq).2 (List.forall_mem_cons.mp hk).2
      (proc_absent (hreq d (by simp)) (hk d (by simp)) ht)

theorem Sim.run_of_safe {s : Server} {t : Db} (hidx : Redoable idx) (h : Sim False idx s t)
    (hpc : s.loader.pc ≠ .start) {acts : List Action} (hsafe : Along (serverStep idx) (DeletionSafe idx) acts s)
    (hreq : ∀ d ∈ acts.flatMap Action.cmds, d.isRequest = true) :
    Sim False idx (serverRun idx acts s).1 (dbRun (acts.flatMap Action.cmds) t).1 ∧
      (serverRun idx acts s).1.loader.pc ≠ .start := by
  have hall : Along (serverStep idx) (fun _ a => ∀ d ∈ a.cmds, d.isRequest = true) acts s :=
    along_of_flatMap hreq s
  have hboth := (along_and acts s).mpr ⟨hsafe, hall⟩
  exact (simulation dbStep Action.cmds (fun s t => Sim False idx s t ∧ s.loader.pc ≠ .start) (SameReply False)
    (fun s t a ⟨h, hpc⟩ ⟨ha, hd⟩ => by
      obtain ⟨hR, hout⟩ := h.step_of_safe hidx hpc ha hd
      exact ⟨⟨hR, serverStep_pc_ne_start idx s a hpc⟩, hout⟩)
    ⟨h, hpc⟩ hboth).1

/-- While every step is safe, a `DEL` gets the reply of a fully loaded server, and the key
stays absent until a client sets or increments it. -/
theorem deletion_final {idx : IndexedLog} {c : List (CStr × CStr)} (hidx : Redoable idx)
    (hc : idx.IsCursor c) (m : Allocator) (acts₁ acts₂ : List Action) (k : Bytes)
    (hreq : ∀ d ∈ (acts₁ ++ .client (.del [k]) :: acts₂).flatMap Action.cmds, d.isRequest = true)
    (hsafe : Along (serverStep idx) (DeletionSafe idx) (acts₁ ++ .client (.del [k]) :: acts₂) (.recovering m c)) :
    (call idx (.del [k]) (serverRun idx acts₁ (.recovering m c)).1).reply =
        (delCommand [k] (dbRun (acts₁.flatMap Action.cmds) (loadDBFromIndexedLog m idx c).db).1).reply ∧
      ((∀ d ∈ acts₂.flatMap Action.cmds, ¬ d.sets k) →
        (serverRun idx (acts₁ ++ .client (.del [k]) :: acts₂) (.recovering m c)).1.db k = none) := by
  rw [(loadDBFromIndexedLog_db m hidx hc).2]
  rw [along_append] at hsafe
  obtain ⟨hsafe₁, hdel, hsafe₂⟩ := hsafe
  simp only [List.flatMap_append, List.flatMap_cons, List.mem_append] at hreq
  obtain ⟨hsim, hpc⟩ := (sim_recovering m _ hidx hc).run_of_safe hidx (by simp [recovering]) hsafe₁
    fun d hd => hreq d (.inl hd)
  have hdelSafe := (hdel (.del [k]) (by simp [Action.cmds])).1 k (by simp [Cmd.deletes])
  obtain ⟨hsim', hreply⟩ := hsim.client_del hdelSafe
  refine ⟨hreply, fun hnot => ?_⟩
  have hpc' := serverStep_pc_ne_start idx _ (.client (.del [k])) hpc
  have hsim₂ := (hsim'.run_of_safe hidx hpc' hsafe₂ fun d hd => hreq d (.inr (.inr hd))).1
  have habsent := dbRun_absent (fun d hd => hreq d (.inr (.inr hd))) hnot
    (t := (delCommand [k] (dbRun (acts₁.flatMap Action.cmds) (m.recovered idx)).1).db)
    (by rw [delCommand_db, update_self])
  rw [serverRun, run_append]
  by_contra hne
  exact hne ((hsim₂.agrees.eq_of_here hne).1.mp habsent)

/-- `DEL` after the loader has restored the key, and a `GET` that does not bring it back. -/
theorem deletion_final_restored : (serverRun oneRecord ([.loader, .loader, .loader] ++ .client (.del [ascii ['k']]) ::
      [.client (.get (ascii ['k'])), .loader]) (.recovering jemalloc oneRecord.cursor)).1.db (ascii ['k']) = none :=
  (deletion_final (by decide) oneRecord.cursor_isCursor jemalloc [.loader, .loader, .loader]
    [.client (.get (ascii ['k'])), .loader] (ascii ['k']) (by decide) (by decide +kernel)).2
    (by simp [Action.cmds, Cmd.sets])

/-- `DEL` of a key that is not loaded yet deletes nothing, and the loader brings the key
back afterwards. -/
theorem deletion_undone : Redoable oneRecord ∧ oneRecord.IsCursor oneRecord.cursor ∧
      (call oneRecord (.del [ascii ['k']]) (.recovering jemalloc oneRecord.cursor)).reply = .int 0 ∧
      (delCommand [ascii ['k']] (loadDBFromIndexedLog jemalloc oneRecord oneRecord.cursor).db).reply = .int 1 ∧
      (serverRun oneRecord [.client (.del [ascii ['k']]), .loader, .loader]
        (.recovering jemalloc oneRecord.cursor)).1.db
        (ascii ['k']) = some (ascii ['v']) :=
  ⟨by decide, oneRecord.cursor_isCursor, by decide +kernel, by decide +kernel, by decide +kernel⟩

/-! ### Before the flag is up -/

end RedisIR
