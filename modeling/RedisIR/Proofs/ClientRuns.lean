import RedisIR.Lib.Mirror
import RedisIR.Proofs.ClientKeys

/-! Whole runs: the tables of blocked and of watching clients stay in order, the lists that are
waited for are served after every request, and the server never ends at an assertion. -/

namespace RedisIR.Clients

open CLib Server Keyspace Mirror List Option Function

variable {n : ℕ} {s s' s'' : Server n} {c w : ClientId} {d d' : DbId n} {k k' key : Key} {O : IterOrder}
variable {keys : List Key}

/-! ### Watching clients -/

def watchers (s : Server n) (d : DbId n) (k : Key) : List ClientId := ClientTable.get (s.watchedKeys d) k

structure WatchTables (s : Server n) : Prop where
  mem : ∀ c d k, c ∈ watchers s d k ↔ (d, k) ∈ (s.clients c).watchedKeys
  nodup : ∀ d k, (watchers s d k).Nodup
  own : ∀ c, (s.clients c).watchedKeys.Nodup

theorem watchTables_iff :
    WatchTables s ↔ Mirrored (fun p : DbId n × Key => watchers s p.1 p.2) fun c => (s.clients c).watchedKeys :=
  ⟨fun h => ⟨fun c p => h.mem c p.1 p.2, fun p => h.nodup p.1 p.2, h.own⟩,
    fun h => ⟨fun c d k => h.mem c (d, k), fun d k => h.nodup (d, k), h.own_nodup⟩⟩

theorem watchTables_start (dict : DbId n → Dict) : WatchTables (Server.start dict) where
  mem c d k := by simp [watchers, ClientTable.get, Server.start, createClient]
  nodup d k := by simp [watchers, ClientTable.get, Server.start]
  own c := by simp [Server.start, createClient]

theorem WatchTables.congr (h : WatchTables s) (htable : s'.watchedKeys = s.watchedKeys)
    (hown : ∀ c, (s'.clients c).watchedKeys = (s.clients c).watchedKeys) : WatchTables s' where
  mem c d k := by
    rw [hown, ← h.mem]
    unfold watchers
    rw [htable]
  nodup d k := by
    unfold watchers
    rw [htable]
    exact h.nodup d k
  own c := by
    rw [hown]
    exact h.own c

structure Unwatched (c : ClientId) (s s' : Server n) : Prop where
  same : s' = { s with
    watchedKeys := s'.watchedKeys
    clients := update s.clients c { s.clients c with watchedKeys := [] } }
  watchers : ∀ d k, Clients.watchers s' d k = (Clients.watchers s d k).erase c

theorem Unwatched.client (h : Unwatched c s s') : s'.clients c = { s.clients c with watchedKeys := [] } := by
  rw [h.same]
  simp

theorem Unwatched.client_of_ne (h : Unwatched c s s') (hw : w ≠ c) : s'.clients w = s.clients w := by
  rw [h.same]
  simp [hw]

theorem WatchTables.leave (h : WatchTables s) {wks : List (DbId n × Key)}
    (hown : (s.clients c).watchedKeys = (d, k) :: wks) {t : ClientTable} (ht : Left c k (s.watchedKeys d) t)
    (hs' : s' = { s.setClient c (fun cl => { cl with watchedKeys := wks }) with
      watchedKeys := update s.watchedKeys d t }) : WatchTables s' ∧ ∀ d' k', watchers s' d' k' =
      if (d', k') = (d, k) then (watchers s d' k').erase c else watchers s d' k' := by
  have hw : ∀ d' k', watchers s' d' k' =
      if (d', k') = (d, k) then (watchers s d' k').erase c else watchers s d' k' := by
    intro d' k'
    by_cases hd : d' = d
    · subst hd
      by_cases hk : k' = k
      · subst hk
        simp [hs', watchers, ht.erased]
      · simp [hs', watchers, ClientTable.get, ht.same k' hk, hk]
    · simp [hs', watchers, hd]
  refine ⟨watchTables_iff.mpr ((watchTables_iff.mp h).leave hown (fun p => hw p.1 p.2) fun x => ?_), hw⟩
  by_cases hx : x = c
  · subst hx
    simp [hs', setClient]
  · simp [hs', setClient, hx]

theorem unwatchLoop_spec (wks : List (DbId n × Key)) (h : WatchTables s) (hown : (s.clients c).watchedKeys = wks) :
    ∃ s', unwatchLoop c wks s = some s' ∧ Unwatched c s s' ∧ WatchTables s' := by
  induction wks generalizing s with
  | nil =>
    refine ⟨s, rfl, ⟨?_, ?_⟩, h⟩
    · have hclient : ({ s.clients c with watchedKeys := [] } : Client n) = s.clients c := by rw [← hown]
      rw [hclient, update_eq_self]
    · intro d k
      refine (erase_of_not_mem ?_).symm
      rw [h.mem, hown]
      simp
  | cons wk wks ih =>
    obtain ⟨d, k⟩ := wk
    have hmem : c ∈ ClientTable.get (s.watchedKeys d) k := (h.mem c d k).mpr (by rw [hown]; simp)
    obtain ⟨t, hleave, hleft⟩ := leave_spec hmem
    obtain ⟨h1, hw1⟩ := h.leave hown hleft rfl
    set s1 : Server n := { s.setClient c (fun cl => { cl with watchedKeys := wks }) with
      watchedKeys := update s.watchedKeys d t } with hs1
    have hown1 : (s1.clients c).watchedKeys = wks := by simp [hs1, setClient]
    obtain ⟨s', hrun, hun, h'⟩ := ih h1 hown1
    refine ⟨s', ?_, ⟨?_, ?_⟩, h'⟩
    · unfold unwatchLoop
      simp only [hleave]
      exact hrun
    · rw [hun.same]
      simp [hs1, setClient]
    · intro d' k'
      rw [hun.watchers, hw1]
      split_ifs
      · exact erase_of_not_mem ((h.nodup d' k').not_mem_erase)
      · rfl

theorem unwatchAllKeys_spec (h : WatchTables s) (c : ClientId) :
    ∃ s', unwatchAllKeys c s = some s' ∧ Unwatched c s s' ∧ WatchTables s' := unwatchLoop_spec _ h rfl

theorem WatchTables.watchForKey (h : WatchTables s) (c : ClientId) (key : Key) : WatchTables (watchForKey c s key) := by
  unfold Clients.watchForKey
  dsimp only
  cases hnode : listDelNode ((s.clients c).db, key) (s.clients c).watchedKeys with
  | some l => exact h
  | none =>
    have hnew : ((s.clients c).db, key) ∉ (s.clients c).watchedKeys := by
      intro hmem
      rw [listDelNode_of_mem hmem] at hnode
      cases hnode
    set s1 : Server n :=
      { s.setClient c (fun cl => { cl with watchedKeys := cl.watchedKeys ++ [((s.clients c).db, key)] }) with
      watchedKeys := update s.watchedKeys (s.clients c).db ((s.watchedKeys (s.clients c).db).insert key
        ((((s.watchedKeys (s.clients c).db).lookup key).getD []) ++ [c])) } with hs1
    have hw : ∀ d k, watchers s1 d k =
        if (d, k) = ((s.clients c).db, key) then watchers s d k ++ [c] else watchers s d k := by
      intro d k
      by_cases hd : d = (s.clients c).db
      · subst hd
        by_cases hk : k = key
        · subst hk
          simp [hs1, watchers, ClientTable.get]
        · simp [hs1, watchers, ClientTable.get, AList.lookup_insert_ne hk, hk]
      · simp [hs1, watchers, hd]
    refine watchTables_iff.mpr ((watchTables_iff.mp h).join hnew (fun p => hw p.1 p.2) fun x => ?_)
    by_cases hx : x = c
    · subst hx
      simp [hs1, setClient]
    · simp [hs1, setClient, hx]

/-! ### One command -/

inductive ProcStep (c : ClientId) (s s' : Server n) : Prop
  | changes (h : Changes ∅ s s') (hempty : NoEmpty s.lookupKey → NoEmpty s'.lookupKey)
  | blocks (keys : List Key) (target : Option Key) (hkeys : keys ≠ []) (hmulti : (s.clients c).multi = false)
      (habsent : ∀ k ∈ keys, ∀ l, s.lookupKey (s.clients c).db k = some (.list l) → l = [])
      (h : s' = blockForKeys c keys target s)
  | selects (d : DbId n) (h : s' = (s.setClient c fun cl => { cl with db := d }).addReply c .ok)
  | unwatches (s1 : Server n) (h1 : unwatchAllKeys c s = some s1)
      (h : s' = (s1.setClient c fun cl => { cl with dirtyCas := false }).addReply c .ok)

theorem bpopLoop_none {side : Side} (h : bpopLoop c side keys s = none) :
    ∀ k ∈ keys, ∀ l, s.lookupKey (s.clients c).db k = some (.list l) → l = [] := by
  induction keys with
  | nil =>
    intro k hk
    cases hk
  | cons key keys ih =>
    intro k hk l hl
    unfold bpopLoop at h
    dsimp only at h
    rcases mem_cons.mp hk with rfl | hk
    · rw [hl] at h
      dsimp only at h
      cases hpop : listTypePop side l with
      | none => exact (listTypePop_eq_none side).mp hpop
      | some p =>
        rw [hpop] at h
        cases h
    · split at h
      · exact ih h k hk l hl
      · split at h
        · exact ih h k hk l hl
        · cases h
      · cases h

theorem noEmpty_bpopLoop {side : Side} {r : Server n × Option Key} (h : bpopLoop c side keys s = some r)
    (hs : NoEmpty s.lookupKey) : NoEmpty r.1.lookupKey := by
  induction keys with
  | nil => cases h
  | cons key keys ih =>
    unfold bpopLoop at h
    dsimp only at h
    split at h
    · exact ih h
    · split at h
      · exact ih h
      · cases h
        simpa using hs.set (listKey_ne _)
    · cases h
      exact hs

theorem procStep_bpop (c : ClientId) (side : Side) (key : Key) (keys : List Key) (s : Server n) :
    ProcStep c s (blockingPopGenericCommand c side key keys s).1 := by
  unfold blockingPopGenericCommand
  cases hloop : bpopLoop c side (key :: keys) s with
  | some r =>
    have hstep : ProcStep c s r.1 := .changes (changes_bpopLoop c side _ s r hloop) (noEmpty_bpopLoop hloop)
    obtain ⟨s', o⟩ := r
    cases o <;> exact hstep
  | none =>
    dsimp only
    split_ifs with hmulti
    · exact .changes changes_addReply fun h => h
    · exact .blocks _ none (by simp) (Bool.not_eq_true _ ▸ hmulti) (bpopLoop_none hloop) rfl

theorem procStep_brpoplpush {src dst : Key} {r : Server n × Command} (h : brpoplpushCommand c src dst s = some r) :
    ProcStep c s r.1 := by
  unfold brpoplpushCommand at h
  split at h
  · next hnone =>
    split_ifs at h with hmulti
    · cases h
      exact .changes changes_addReply fun h => h
    · cases h
      refine .blocks [src] (some dst) (by simp) (Bool.not_eq_true _ ▸ hmulti) ?_ rfl
      intro k hk l hl
      rw [mem_singleton.mp hk, hnone] at hl
      cases hl
  · cases h
  · have hstep : ProcStep c s (rpoplpushCommand c src dst s) := by
      refine .changes (changes_rpoplpushCommand c src dst s) fun hs => ?_
      rw [lookupKey_rpoplpushCommand]
      exact noEmpty_rpoplpushEffect hs _ _ _
    dsimp only at h
    split_ifs at h
    · cases h
      exact hstep
    · cases h
      exact hstep
  · cases h
    exact .changes changes_addReply fun h => h

theorem proc_step {cmd : Command} {r : Server n × Command} (h : cmd.proc O c s = some r) : ProcStep c s r.1 := by
  cases cmd with
  | push side key values =>
    cases h
    refine .changes (changes_pushGenericCommand c side key values s) fun hs => ?_
    rw [lookupKey_pushGenericCommand]
    exact noEmpty_pushEffect hs _ _ _ _
  | pushx side key values =>
    cases h
    refine .changes (changes_pushxGenericCommand c side key values s) fun hs => ?_
    rw [lookupKey_pushxGenericCommand]
    exact noEmpty_pushxEffect hs _ _ _ _
  | pop side key =>
    cases h
    refine .changes (changes_popGenericCommand c side key s) fun hs => ?_
    rw [lookupKey_popGenericCommand]
    exact noEmpty_popEffect hs _ _ _
  | rpoplpush src dst =>
    cases h
    refine .changes (changes_rpoplpushCommand c src dst s) fun hs => ?_
    rw [lookupKey_rpoplpushCommand]
    exact noEmpty_rpoplpushEffect hs _ _ _
  | bpop side key keys =>
    cases h
    exact procStep_bpop c side key keys s
  | brpoplpush src dst => exact procStep_brpoplpush h
  | set flag key value =>
    cases h
    exact .changes (changes_setGenericCommand c flag key value s) fun hs => noEmpty_setGenericCommand hs _ _ _ _
  | append key value =>
    cases h
    exact .changes (changes_appendCommand c key value s) fun hs => noEmpty_appendCommand hs _ _ _
  | sadd key member members =>
    cases h
    exact .changes (changes_saddCommand c key member members s) fun hs => noEmpty_saddCommand hs _ _ _ _
  | srem key members =>
    cases h
    exact .changes (changes_sremCommand c key members s) fun hs => noEmpty_sremCommand hs _ _ _
  | del keys =>
    cases h
    refine .changes (changes_delGenericCommand c keys s) fun hs => ?_
    change NoEmpty (delLoop _ keys 0 s).1.lookupKey
    rw [lookupKey_delLoop]
    exact noEmpty_delEffect hs _ _
  | rename nx src dst =>
    cases h
    exact .changes (changes_renameGenericCommand c nx src dst s) fun hs => noEmpty_renameGenericCommand hs _ _ _ _
  | move key dbid =>
    cases h
    exact .changes (changes_moveCommand c key dbid s) fun hs => noEmpty_moveCommand hs _ _ _
  | swapdb id1 id2 =>
    cases h
    exact .changes (changes_swapdbCommand O c id1 id2 s) fun hs => noEmpty_swapdbCommand hs _ _ _ _
  | sort key options storekey =>
    cases h
    exact .changes (changes_sortCommand c key options storekey s) fun hs => noEmpty_sortCommand hs _ _ _ _
  | flushdb =>
    cases h
    exact .changes (changes_flushdbCommand c s) fun hs => noEmpty_flush hs _
  | flushall =>
    cases h
    exact .changes (changes_flushallCommand c s) fun hs => noEmpty_flush hs _
  | select id =>
    cases h
    dsimp only [selectCommand]
    cases (selectDb id : Option (DbId n)) with
    | none => exact .changes changes_addReply fun h => h
    | some d => exact .selects d rfl
  | unwatch =>
    simp only [Command.proc, unwatchCommand, Option.map_map] at h
    obtain ⟨s1, h1, rfl⟩ := map_eq_some_iff.mp h
    exact .unwatches s1 h1 rfl

/-! ### What holds at any time -/

structure Live (s : Server n) : Prop where
  serving : Serving [] [] s
  watch : WatchTables s
  noEmpty : NoEmpty s.lookupKey

section

variable (h : Live s)
include h

theorem Live.of_changes {T : Set (DbId n × Key)} (hc : Changes T s s') (hempty : NoEmpty s'.lookupKey) :
    Live s' := ⟨h.serving.quiet hc.quiet, h.watch.congr hc.watchful.watchedKeys hc.watchful.own, hempty⟩

/-- Nothing but the flags, the transaction and the output of clients changes, or the database of one
that is not blocked. -/
theorem Live.same (hwatch : WatchTables s') (hdict : s'.dict = s.dict) (hblocking : s'.blockingKeys = s.blockingKeys)
    (hdb : s'.dbReadyKeys = s.dbReadyKeys) (hready : s'.readyKeys = s.readyKeys) (hhistory : s'.history = s.history)
    (hcount : s'.blockedClients = s.blockedClients)
    (hclient : ∀ c, ((s'.clients c).db = (s.clients c).db ∨ (s.clients c).blocked = false) ∧
      (s'.clients c).bpopKeys = (s.clients c).bpopKeys ∧ (s'.clients c).blocked = (s.clients c).blocked) :
      Live s' := by
  have hlookup : s'.lookupKey = s.lookupKey := by
    unfold Server.lookupKey
    rw [hdict]
  refine ⟨⟨?_, fun _ h => h, ?_, ?_⟩, hwatch, ?_⟩
  · exact h.serving.block.congr hblocking (fun c => (hclient c).1) (fun c => (hclient c).2.1)
      (fun c => (hclient c).2.2) hcount
  · unfold ReadyTables
    rw [hready, hdb]
    exact h.serving.tables
  · unfold NoHides Covered
    rw [hhistory, hlookup, hblocking, hready]
    exact h.serving.covered
  · rw [hlookup]
    exact h.noEmpty

/-- One client changes. -/
theorem Live.client (hwatch : WatchTables s') {cl : Client n}
    (hs' : s' = { s with watchedKeys := s'.watchedKeys, clients := update s.clients c cl })
    (hdb : cl.db = (s.clients c).db ∨ (s.clients c).blocked = false) (hkeys : cl.bpopKeys = (s.clients c).bpopKeys)
    (hblocked : cl.blocked = (s.clients c).blocked) : Live s' := by
  rw [hs'] at hwatch ⊢
  refine h.same hwatch rfl rfl rfl rfl rfl rfl fun x => ?_
  by_cases hx : x = c
  · subst hx
    simpa using ⟨hdb, hkeys, hblocked⟩
  · simp [hx]

theorem Live.setClient (c : ClientId) (f : Client n → Client n)
    (hf : ∀ cl, ((f cl).db = cl.db ∨ (s.clients c).blocked = false) ∧ (f cl).bpopKeys = cl.bpopKeys ∧
      (f cl).blocked = cl.blocked ∧ (f cl).watchedKeys = cl.watchedKeys) : Live (s.setClient c f) := by
  obtain ⟨hdb, hkeys, hblocked, hown⟩ := hf (s.clients c)
  refine h.client (h.watch.congr rfl fun x => ?_) rfl hdb hkeys hblocked
  by_cases hx : x = c
  · subst hx
    simpa [Server.setClient] using hown
  · simp [Server.setClient, hx]

theorem Live.addReply (c : ClientId) (r : Reply) : Live (s.addReply c r) :=
  h.of_changes changes_addReply h.noEmpty

theorem Live.propagate (d : DbId n) (p : Propagated) : Live (s.propagate d p) :=
  h.of_changes changes_propagate h.noEmpty

theorem Live.unwatched (hu : Unwatched c s s') (hw : WatchTables s') : Live s' :=
  h.client hw hu.same (Or.inl rfl) rfl rfl

theorem Live.blockForKeys (hc : (s.clients c).blocked = false) (hkeys : keys ≠ [])
    (habsent : ∀ k ∈ keys, ∀ l, s.lookupKey (s.clients c).db k = some (.list l) → l = [])
    (target : Option Key) : Live (blockForKeys c keys target s) := by
  have hb := blockForKeys_spec h.serving.block hc keys target
  have hblock := h.serving.block.blockedOn hc hkeys hb
  obtain ⟨B, -, hsame⟩ := hb.same
  have hlookup : (Clients.blockForKeys c keys target s).lookupKey = s.lookupKey := by
    rw [hsame]
    rfl
  have hready : (Clients.blockForKeys c keys target s).readyKeys = s.readyKeys := by rw [hsame]
  refine ⟨⟨hblock, fun _ h => h, ?_, ?_⟩, ?_, ?_⟩
  · have htables := h.serving.tables
    rw [hsame]
    exact htables
  · intro hhides d k l hl hblocked
    have hhides' : NoHides s := hhides.of_isPrefix (by rw [hsame]; exact prefix_append _ _)
    rw [hlookup] at hl
    rw [hready]
    refine h.serving.covered hhides' d k l hl ?_
    rw [hblock.lookup_ne_none, hb.waiting] at hblocked
    rw [h.serving.block.lookup_ne_none]
    split_ifs at hblocked with hk
    -- the keys for which the client waits now are not lists
    · obtain ⟨rfl, hk⟩ := hk
      exact absurd (habsent k hk l hl ▸ hl) (h.noEmpty _ k)
    · exact hblocked
  · refine h.watch.congr (by rw [hsame]) fun x => ?_
    rw [hsame]
    by_cases hx : x = c
    · subst hx
      simp
    · simp [hx]
  · rw [hlookup]
    exact h.noEmpty

theorem Live.procStep (hc : (s.clients c).blocked = false) (hp : ProcStep c s s') : Live s' := by
  cases hp with
  | changes hch hempty => exact h.of_changes hch (hempty h.noEmpty)
  | blocks keys target hkeys _ habsent hs' =>
    rw [hs']
    exact h.blockForKeys hc hkeys habsent target
  | selects d hs' =>
    rw [hs']
    refine Live.addReply (h.setClient c _ ?_) c .ok
    exact fun cl => ⟨Or.inr hc, rfl, rfl, rfl⟩
  | unwatches s1 h1 hs' =>
    obtain ⟨s2, h2, hu, hw⟩ := unwatchAllKeys_spec h.watch c
    cases h1.symm.trans h2
    rw [hs']
    refine Live.addReply ((h.unwatched hu hw).setClient c _ ?_) c .ok
    exact fun cl => ⟨Or.inl rfl, rfl, rfl, rfl⟩

theorem proc_isSome (c : ClientId) (cmd : Command) : ∃ r, cmd.proc O c s = some r := by
  cases cmd with
  | brpoplpush src dst =>
    dsimp only [Command.proc, brpoplpushCommand]
    split
    · split_ifs <;> exact ⟨_, rfl⟩
    · next hempty => exact absurd hempty (h.noEmpty _ src)
    · split_ifs <;> exact ⟨_, rfl⟩
    · exact ⟨_, rfl⟩
  | unwatch =>
    obtain ⟨s1, h1, -⟩ := unwatchAllKeys_spec h.watch c
    exact ⟨_, by simp only [Command.proc, unwatchCommand, h1]; rfl⟩
  | _ => exact ⟨_, rfl⟩

theorem call_spec (c : ClientId) (cmd : Command) :
    ∃ s1 s', call O c s cmd = some s' ∧ ProcStep c s s1 ∧ Changes ∅ s1 s' ∧ s'.lookupKey = s1.lookupKey := by
  obtain ⟨r, hr⟩ := proc_isSome (O := O) h c cmd
  unfold call
  rw [hr, map_some]
  split_ifs
  · exact ⟨r.1, _, rfl, proc_step hr, changes_propagate, rfl⟩
  · exact ⟨r.1, _, rfl, proc_step hr, Changes.refl _, rfl⟩

theorem Live.call (hc : (s.clients c).blocked = false) {cmd : Command} (hcall : call O c s cmd = some s') :
    Live s' := by
  obtain ⟨s1, s2, hs2, hstep, hch, hlookup⟩ := call_spec (O := O) h c cmd
  cases hcall.symm.trans hs2
  have h1 := h.procStep hc hstep
  exact h1.of_changes hch (hlookup ▸ h1.noEmpty)

end

/-- A client that is in a transaction does not block. -/
theorem ProcStep.multi (hp : ProcStep c s s') (hw : WatchTables s) (hmulti : (s.clients c).multi = true)
    (hc : (s.clients c).blocked = false) : (s'.clients c).multi = true ∧ (s'.clients c).blocked = false := by
  cases hp with
  | changes hch _ =>
    rw [hch.quiet.clients c]
    exact ⟨hmulti, hc⟩
  | blocks keys target _ hnot _ _ =>
    rw [hmulti] at hnot
    cases hnot
  | selects d hs' =>
    rw [hs']
    simpa [Server.setClient, Server.addReply] using ⟨hmulti, hc⟩
  | unwatches s1 h1 hs' =>
    obtain ⟨s2, h2, hu, -⟩ := unwatchAllKeys_spec hw c
    cases h1.symm.trans h2
    rw [hs']
    simp only [Server.addReply, Server.setClient, update_self, hu.client]
    exact ⟨hmulti, hc⟩

/-- One of the commands of a transaction is called. -/
def CallStep (O : IterOrder) (c : ClientId) (cmds : List Command) (s s' : Server n) : Prop :=
  Live s ∧ (s.clients c).multi = true ∧ (s.clients c).blocked = false ∧ ∃ cmd ∈ cmds, call O c s cmd = some s'

theorem callAll_spec (h : Live s) (hmulti : (s.clients c).multi = true) (hc : (s.clients c).blocked = false)
    (cmds : List Command) :
    ∃ s', callAll O c cmds s = some s' ∧ Live s' ∧ Relation.ReflTransGen (CallStep O c cmds) s s' := by
  induction cmds generalizing s with
  | nil => exact ⟨s, rfl, h, .refl⟩
  | cons cmd cmds ih =>
    obtain ⟨s1, s2, hcall, hstep, hch, -⟩ := call_spec (O := O) h c cmd
    obtain ⟨hmulti1, hc1⟩ := hstep.multi h.watch hmulti hc
    have hclient := hch.quiet.clients c
    obtain ⟨s3, hrun, hs3, hsteps⟩ :=
      ih (h.call hc hcall) (by rw [hclient]; exact hmulti1) (by rw [hclient]; exact hc1)
    refine ⟨s3, by rw [callAll, hcall]; exact hrun, hs3, .head ⟨h, hmulti, hc, cmd, by simp, hcall⟩ ?_⟩
    refine Relation.ReflTransGen.mono ?_ _ _ hsteps
    rintro t t' ⟨ht, hm, hb, cmd', hcmd', hcall'⟩
    exact ⟨ht, hm, hb, cmd', mem_cons_of_mem _ hcmd', hcall'⟩

theorem discardTransaction_spec (h : Live s) (c : ClientId) : ∃ s', discardTransaction c s = some s' ∧ Live s' ∧
      Unwatched c (s.setClient c fun cl =>
        { cl with commands := [], multi := false, dirtyCas := false, dirtyExec := false }) s' := by
  have h1 : Live (s.setClient c fun cl =>
      { cl with commands := [], multi := false, dirtyCas := false, dirtyExec := false }) :=
    h.setClient c _ fun cl => ⟨Or.inl rfl, rfl, rfl, rfl⟩
  obtain ⟨s', hs', hu, hw⟩ := unwatchAllKeys_spec h1.watch c
  exact ⟨s', hs', h1.unwatched hu hw, hu⟩

/-- What `EXEC` does when the transaction is not aborted. -/
inductive Executed (O : IterOrder) (c : ClientId) (s : Server n) : Server n → Prop
  | empty {s1 s' : Server n} (hu : Unwatched c s s1) (hl : Live s1)
      (h : discardTransaction c (s1.addReply c (.multiBulkLen 0)) = some s') : Executed O c s s'
  | queue {s1 s3 s4 : Server n} (hu : Unwatched c s s1) (hl : Live s1)
      (hcalls : Relation.ReflTransGen (CallStep O c (s.clients c).commands)
        ((s1.addReply c (.multiBulkLen (s.clients c).commands.length)).propagate (s.clients c).db .multi) s3)
      (hl3 : Live s3) (h : discardTransaction c s3 = some s4) :
      Executed O c s ((s4.addDirty 1).propagate (s4.clients c).db .exec)

theorem execQueue_spec (h : Live s) (hmulti : (s.clients c).multi = true) (hc : (s.clients c).blocked = false) :
    ∃ s', execQueue O c s = some s' ∧ Executed O c s s' := by
  obtain ⟨s1, h1, hu, hw⟩ := unwatchAllKeys_spec h.watch c
  have hlive1 := h.unwatched hu hw
  have hclient : s1.clients c = { s.clients c with watchedKeys := [] } := hu.client
  unfold execQueue
  rw [h1, bind_some]
  dsimp only
  cases hcommands : (s.clients c).commands with
  | nil =>
    obtain ⟨s2, h2, -, -⟩ := discardTransaction_spec (hlive1.addReply c (.multiBulkLen 0)) c
    exact ⟨s2, h2, .empty hu hlive1 h2⟩
  | cons cmd cmds =>
    have hlive2 := (hlive1.addReply c (.multiBulkLen (cmd :: cmds).length)).propagate (s.clients c).db .multi
    obtain ⟨s3, h3, hlive3, hcalls⟩ := callAll_spec (O := O) (c := c) hlive2
      (by change (s1.clients c).multi = true; rw [hclient]; exact hmulti)
      (by change (s1.clients c).blocked = false; rw [hclient]; exact hc) (cmd :: cmds)
    obtain ⟨s4, h4, -, -⟩ := discardTransaction_spec hlive3 c
    refine ⟨_, by dsimp only; rw [h3, bind_some, h4]; rfl, .queue hu hlive1 ?_ hlive3 h4⟩
    rwa [hcommands]

theorem Live.discarded (h : Live s) (hs' : discardTransaction c s = some s') : Live s' := by
  obtain ⟨s1, h1, hlive, -⟩ := discardTransaction_spec h c
  cases hs'.symm.trans h1
  exact hlive

/-- What a request does before clients are served. -/
inductive Requested (O : IterOrder) (c : ClientId) (s : Server n) : Request → Server n → Prop
  | replied (r : Request) (rep : Reply) : Requested O c s r (s.addReply c rep)
  | watched (keys : List Key) : Requested O c s (.watch keys) ((keys.foldl (watchForKey c) s).addReply c .ok)
  | flagged (r : Request) (f : Client n → Client n) (rep : Reply) (hf : ∀ cl, f cl =
        { cl with multi := (f cl).multi, dirtyExec := (f cl).dirtyExec, commands := (f cl).commands })
      (hcommands : ∀ cl, ∀ cmd ∈ (f cl).commands, cmd ∈ cl.commands ∨ r = .command cmd) :
      Requested O c s r ((s.setClient c f).addReply c rep)
  | aborted {s' : Server n} (rep : Reply) (h : discardTransaction c (s.addReply c rep) =
      some s') : Requested O c s .exec s'
  | discarded {s' : Server n} (h : discardTransaction c s = some s') : Requested O c s .discard (s'.addReply c .ok)
  | executed {s' : Server n} (h : Executed O c s s') : Requested O c s .exec s'
  | called {s' : Server n} (cmd : Command) (h : call O c s cmd = some s') : Requested O c s (.command cmd) s'

/-! ### One input -/

theorem watchAll_live (keys : List Key) (h : Live s) (c : ClientId) : Live (keys.foldl (watchForKey c) s) := by
  induction keys generalizing s with
  | nil => exact h
  | cons key keys ih =>
    rw [foldl_cons]
    apply ih
    have hw := h.watch.watchForKey c key
    unfold watchForKey at hw ⊢
    dsimp only at hw ⊢
    cases hnode : listDelNode ((s.clients c).db, key) (s.clients c).watchedKeys with
    | some l => exact h
    | none =>
      rw [hnode] at hw
      exact h.client hw rfl (Or.inl rfl) rfl rfl

theorem processRequest_spec (h : Live s) (hc : (s.clients c).blocked = false) (r : Request) :
    ∃ s', processRequest O c s r = some s' ∧ Requested O c s r s' := by
  cases r with
  | watch keys =>
    refine ⟨_, rfl, ?_⟩
    unfold watchCommand
    split_ifs
    · exact .replied _ _
    · exact .watched keys
  | multi =>
    refine ⟨_, rfl, ?_⟩
    unfold multiCommand
    split_ifs
    · exact .replied _ _
    · exact .flagged _ _ _ (fun _ => rfl) fun _ _ hcmd => Or.inl hcmd
  | exec =>
    dsimp only [processRequest, execCommand]
    split_ifs with hmulti hdirty
    · exact ⟨_, rfl, .replied _ _⟩
    · obtain ⟨s', hs', -⟩ := discardTransaction_spec (h.addReply c .execaborterr) c
      exact ⟨s', hs', .aborted _ hs'⟩
    · obtain ⟨s', hs', -⟩ := discardTransaction_spec (h.addReply c .nullmultibulk) c
      exact ⟨s', hs', .aborted _ hs'⟩
    · obtain ⟨s', hs', hexec⟩ := execQueue_spec (O := O) h (by simpa using hmulti) hc
      exact ⟨s', hs', .executed hexec⟩
  | discard =>
    dsimp only [processRequest, discardCommand]
    split_ifs
    · obtain ⟨s', hs', -⟩ := discardTransaction_spec h c
      exact ⟨_, by rw [hs']; rfl, .discarded hs'⟩
    · exact ⟨_, rfl, .replied _ _⟩
  | command cmd =>
    dsimp only [processRequest]
    split_ifs
    · refine ⟨_, rfl, .flagged _ _ _ (fun _ => rfl) fun cl cmd' hcmd' => ?_⟩
      rcases mem_append.mp hcmd' with hcmd' | hcmd'
      · exact Or.inl hcmd'
      · exact Or.inr (by rw [mem_singleton.mp hcmd'])
    · obtain ⟨-, s', hs', -⟩ := call_spec (O := O) h c cmd
      exact ⟨s', hs', .called cmd hs'⟩
  | refused =>
    refine ⟨_, rfl, ?_⟩
    unfold flagTransaction
    split_ifs
    · exact .flagged _ _ _ (fun _ => rfl) fun _ _ hcmd => Or.inl hcmd
    · exact .replied _ _

theorem Live.requested {r : Request} (h : Live s) (hc : (s.clients c).blocked = false) (hr : Requested O c s r s') :
    Live s' := by
  cases hr with
  | replied _ rep => exact h.addReply c rep
  | watched keys => exact (watchAll_live keys h c).addReply c .ok
  | flagged _ f rep hf _ =>
    refine Live.addReply (h.setClient c f fun cl => ?_) c rep
    rw [hf cl]
    exact ⟨Or.inl rfl, rfl, rfl, rfl⟩
  | aborted rep hs' => exact (h.addReply c rep).discarded hs'
  | discarded hs' => exact (h.discarded hs').addReply c .ok
  | executed hs' =>
    cases hs' with
    | empty hu hl hs' => exact (hl.addReply c _).discarded hs'
    | queue hu hl hcalls hl3 hs4 =>
      have hl4 := hl3.discarded hs4
      exact (hl4.of_changes changes_addDirty hl4.noEmpty).propagate _ _
  | called cmd hs' => exact h.call hc hs'

structure Resting (s : Server n) : Prop where
  live : Live s
  ready : s.readyKeys = []

theorem resting_start (D : Dataset n) : Resting (Server.start D.dict) where
  ready := rfl
  live := by
    refine ⟨⟨blockTables_start D.dict, fun _ h => h, ⟨nodup_nil, fun d k => ?_⟩,
      fun _ d k l _ hblocked => ?_⟩,
      watchTables_start D.dict, D.noEmpty⟩
    · simp [Server.start]
    · simp [Server.start] at hblocked

theorem handle_spec (h : Live s) :
    ∃ s', handleClientsBlockedOnKeys s = some s' ∧ Resting s' ∧ Watchful {p | p ∈ s.readyKeys} s s' ∧
      ServeSteps s s' := by
  obtain ⟨s', hs', hserving, hready, hwatch, hempty, hsteps⟩ := handleClientsBlockedOnKeys_spec h.serving
  refine ⟨s', hs', ⟨⟨hserving, h.watch.congr hwatch.watchedKeys hwatch.own, fun d k => ?_⟩, hready⟩,
    hwatch, hsteps⟩
  exact hempty (fun d k _ => h.noEmpty d k) d k (Set.notMem_empty _)

theorem Live.unblocked (h : Live s) (hc : (s.clients c).blocked = true) (hu : Unblocked c s s') : Live s' := by
  refine ⟨h.serving.unblocked hc hu,
    h.watch.congr (watchful_unblocked hu).watchedKeys (watchful_unblocked hu).own, ?_⟩
  rw [hu.lookupKey]
  exact h.noEmpty

/-- A client that is blocked stops waiting; the others are not concerned. -/
theorem release_spec (h : Live s) (hc : (s.clients c).blocked = true) :
    ∃ s' s1, (unblockClient c s).map (record (.released c)) = some s' ∧ Unblocked c s s1 ∧
      s' = s1.record (.released c) ∧ Live s' := by
  obtain ⟨s1, h1, hu⟩ := unblockClient_spec h.serving.block hc
  have hlive := h.unblocked hc hu
  exact ⟨_, s1, by rw [h1]; rfl, hu, rfl, hlive.of_changes changes_record hlive.noEmpty⟩

theorem Live.reset (h : Live s) (hc : (s.clients c).blocked = false) (hw : (s.clients c).watchedKeys = []) :
    Live (s.setClient c fun _ => createClient) := by
  refine h.client (h.watch.congr rfl fun x => ?_) rfl (Or.inr hc) (h.serving.block.bpopKeys_eq hc).symm hc.symm
  by_cases hx : x = c
  · subst hx
    simp [Server.setClient, createClient, hw]
  · simp [Server.setClient, hx]

/-- What one input does. -/
inductive Stepped (O : IterOrder) (s : Server n) : Input → Server n → Prop
  | ignored (i : Input) : Stepped O s i s
  | requested (c : ClientId) (r : Request) {s1 s' : Server n} (hc : (s.clients c).blocked = false)
      (hlive : Live (s.setClient c fun cl => { cl with lastcmd := some r }))
      (hr : Requested O c (s.setClient c fun cl => { cl with lastcmd := some r }) r s1)
      (hwatch : Watchful {p | p ∈ s1.readyKeys} s1 s') (hserve : ServeSteps s1 s') : Stepped O s (.request c r) s'
  | timedOut (c : ClientId) {s1 : Server n} (hu : Unblocked c (s.addReply c .nullmultibulk) s1) :
      Stepped O s (.timeout c) (s1.record (.released c))
  | freed (c : ClientId) {s1 s2 : Server n} (h1 : s1 = s ∨ ∃ s0, Unblocked c s s0 ∧ s1 = s0.record (.released c))
      (hu : Unwatched c s1 s2) : Stepped O s (.disconnect c) (s2.setClient c fun _ => createClient)

theorem processCommand_spec (h : Live s) (hc : (s.clients c).blocked = false) (r : Request) :
    ∃ s', processCommand O c s r = some s' ∧ Resting s' ∧ Stepped O s (.request c r) s' := by
  have h0 : Live (s.setClient c fun cl => { cl with lastcmd := some r }) :=
    h.setClient c _ fun cl => ⟨Or.inl rfl, rfl, rfl, rfl⟩
  have hc0 : ((s.setClient c fun cl => { cl with lastcmd := some r }).clients c).blocked = false := by
    simpa [Server.setClient] using hc
  obtain ⟨s1, h1, hreq⟩ := processRequest_spec (O := O) h0 hc0 r
  obtain ⟨s2, h2, hrest, hwatch, hserve⟩ := handle_spec (h0.requested hc0 hreq)
  refine ⟨s2, ?_, hrest, .requested c r hc h0 hreq hwatch hserve⟩
  unfold processCommand
  rw [h1]
  exact h2

theorem timeoutClient_spec (h : Resting s) (c : ClientId) :
    ∃ s', timeoutClient c s = some s' ∧ Resting s' ∧ Stepped O s (.timeout c) s' := by
  unfold timeoutClient
  split_ifs with hc
  · obtain ⟨s', s1, hrun, hu, rfl, hlive⟩ := release_spec (h.live.addReply c .nullmultibulk) hc
    refine ⟨_, hrun, ⟨hlive, ?_⟩, .timedOut c hu⟩
    rw [hu.same]
    exact h.ready
  · exact ⟨s, rfl, h, .ignored _⟩

theorem freeClient_spec (h : Resting s) (c : ClientId) :
    ∃ s', freeClient c s = some s' ∧ Resting s' ∧ Stepped O s (.disconnect c) s' := by
  have hfirst : ∃ s1, (if (s.clients c).blocked then (unblockClient c s).map (record (.released c))
      else some s) = some s1 ∧ Live s1 ∧ (s1.clients c).blocked = false ∧ s1.readyKeys = [] ∧
      (s1 = s ∨ ∃ s0, Unblocked c s s0 ∧ s1 = s0.record (.released c)) := by
    split_ifs with hc
    · obtain ⟨s', s1, hrun, hu, hs', hlive⟩ := release_spec h.live hc
      refine ⟨s', hrun, hlive, ?_, ?_, Or.inr ⟨s1, hu, hs'⟩⟩
      · rw [hs', hu.same]
        simp [Server.record]
      · rw [hs', hu.same]
        exact h.ready
    · exact ⟨s, rfl, h.live, by simpa using hc, h.ready, Or.inl rfl⟩
  obtain ⟨s1, h1, hlive1, hc1, hready1, hreleased⟩ := hfirst
  obtain ⟨s2, h2, hu, hw⟩ := unwatchAllKeys_spec hlive1.watch c
  refine ⟨s2.setClient c fun _ => createClient, ?_, ⟨(hlive1.unwatched hu hw).reset ?_ ?_, ?_⟩,
    .freed c hreleased hu⟩
  · unfold freeClient
    rw [h1, bind_some, h2]
    rfl
  · rw [hu.client]
    exact hc1
  · rw [hu.client]
  · change s2.readyKeys = []
    rw [hu.same]
    exact hready1

theorem exec_spec (h : Resting s) (i : Input) : ∃ s', i.exec O s = some s' ∧ Resting s' ∧ Stepped O s i s' := by
  cases i with
  | request c r =>
    dsimp only [Input.exec]
    split_ifs with hc
    · exact ⟨s, rfl, h, .ignored _⟩
    · exact processCommand_spec h.live (by simpa using hc) r
  | timeout c => exact timeoutClient_spec h c
  | disconnect c => exact freeClient_spec h c

theorem run_append (is js : List Input) (s : Server n) : run O (is ++ js) s = (run O is s).bind (run O js) := by
  induction is generalizing s with
  | nil => rfl
  | cons i is ih =>
    simp only [cons_append, run]
    cases i.exec O s with
    | none => rfl
    | some s' => exact ih s'

/-- The server never ends at an assertion. -/
theorem run_spec (h : Resting s) (is : List Input) : ∃ s', run O is s = some s' ∧ Resting s' := by
  induction is generalizing s with
  | nil => exact ⟨s, rfl, h⟩
  | cons i is ih =>
    obtain ⟨s1, h1, hrest, -⟩ := exec_spec (O := O) h i
    obtain ⟨s2, h2, hrest2⟩ := ih hrest
    exact ⟨s2, by rw [run, h1]; exact h2, hrest2⟩

/-- Between any two inputs the tables of blocked and of watching clients agree with the clients,
`server.blocked_clients` counts them, no key is left to be served, and none holds an empty list. -/
theorem tables_agree_between_inputs (order : IterOrder) (D : Dataset n) (is : List Input) :
    ∃ s, run order is (Server.start D.dict) = some s ∧ BlockTables s ∧ WatchTables s ∧ s.readyKeys = [] ∧
      NoEmpty s.lookupKey := by
  obtain ⟨s, hs, h⟩ := run_spec (resting_start D) is
  exact ⟨s, hs, h.live.serving.block, h.live.watch, h.ready, h.live.noEmpty⟩

end RedisIR.Clients
