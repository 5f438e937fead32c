import RedisIR.Proofs.ClientRuns

/-! A transaction that is executed has found its watched keys as they were, unless a key was moved
or its database exchanged: `MOVE` and `SWAPDB` tell nobody. -/

namespace RedisIR.Clients

open CLib Server List Function Option

variable {n : ℕ} {s s' s'' : Server n} {c w : ClientId} {d : DbId n} {k : Key} {O : IterOrder} {v : Option Value}
  {H0 : List (Event n)}
variable {keys : List Key}

def MovedSince (H0 : List (Event n)) (d : DbId n) (k : Key) (s : Server n) : Prop :=
  ∃ H, s.history = H0 ++ H ∧ ∃ e ∈ H, e.Moves d k

theorem MovedSince.of_isPrefix (h : MovedSince H0 d k s) (hhistory : s.history <+: s'.history) :
    MovedSince H0 d k s' := by
  obtain ⟨H, hH, e, he, hmoves⟩ := h
  obtain ⟨H', hH'⟩ := hhistory
  exact ⟨H ++ H', by rw [← hH', hH, append_assoc], e, mem_append_left _ he, hmoves⟩

/-- A client watches the key, and the key still has the value `v` and is not about to be served,
or the client knows that it may have changed. -/
structure Guarded (w : ClientId) (d : DbId n) (k : Key) (v : Option Value) (H0 : List (Event n)) (s : Server n) :
    Prop where
  watching : Watches s w d k
  since : H0 <+: s.history
  kept : (s.lookupKey d k = v ∧ (d, k) ∉ s.readyKeys) ∨ (s.clients w).dirtyCas = true ∨ MovedSince H0 d k s

def Lost (w : ClientId) (d : DbId n) (k : Key) (s : Server n) : Prop := (d, k) ∉ (s.clients w).watchedKeys

def Tracked (w : ClientId) (d : DbId n) (k : Key) (v : Option Value) (H0 : List (Event n)) (s : Server n) : Prop :=
  Guarded w d k v H0 s ∨ Lost w d k s

theorem Guarded.watchful {T : Set (DbId n × Key)} (h : Guarded w d k v H0 s) (hw : Watchful T s s')
    (hT : (d, k) ∈ T → (d, k) ∈ s.readyKeys) : Guarded w d k v H0 s' := by
  have hexcused : Excused s s' d k → (s'.clients w).dirtyCas = true ∨ MovedSince H0 d k s' := by
    rintro (htold | ⟨H, hH, e, he, hmoves⟩)
    · exact Or.inl (htold w h.watching)
    · obtain ⟨H1, hH1⟩ := h.since
      exact Or.inr ⟨H1 ++ H, by rw [hH, ← hH1, append_assoc], e, mem_append_right _ he, hmoves⟩
  refine ⟨?_, h.since.trans hw.history, ?_⟩
  · have hwatch := h.watching
    unfold Watches at hwatch ⊢
    rwa [hw.watchedKeys, hw.own]
  · rcases h.kept with ⟨hv, hready⟩ | hdirty | hmoved
    · have hnot : (d, k) ∉ T := fun hmem => hready (hT hmem)
      rcases hw.settled d k hnot with hsame | hex
      · by_cases hnew : (d, k) ∈ s'.readyKeys
        · rcases hw.ready d k hnot hnew with hold | hex
          · exact absurd hold hready
          · exact Or.inr (hexcused hex)
        · exact Or.inl ⟨hsame.trans hv, hnew⟩
      · exact Or.inr (hexcused hex)
    · exact Or.inr (Or.inl (hw.dirtyCas w hdirty))
    · exact Or.inr (Or.inr (hmoved.of_isPrefix hw.history))

/-- The watching client itself keeps its watches and what it was told. -/
def Keeps (w c : ClientId) (s : Server n) (f : Client n → Client n) : Prop :=
  c = w → (f (s.clients c)).watchedKeys = (s.clients c).watchedKeys ∧
    (f (s.clients c)).dirtyCas = (s.clients c).dirtyCas

theorem Keeps.client {f : Client n → Client n} (hf : Keeps w c s f) :
    ((s.setClient c f).clients w).watchedKeys = (s.clients w).watchedKeys ∧
      ((s.setClient c f).clients w).dirtyCas = (s.clients w).dirtyCas := by
  by_cases hw : c = w
  · subst hw
    simpa [Server.setClient] using hf rfl
  · simp [Server.setClient, Ne.symm hw]

theorem Guarded.setClient {f : Client n → Client n} (h : Guarded w d k v H0 s) (hf : Keeps w c s f) :
    Guarded w d k v H0 (s.setClient c f) := by
  refine ⟨⟨h.watching.1, ?_⟩, h.since, ?_⟩
  · rw [hf.client.1]
    exact h.watching.2
  · rw [hf.client.2]
    exact h.kept

section

variable (h : Tracked w d k v H0 s)
include h

theorem Tracked.watchful {T : Set (DbId n × Key)} (hw : Watchful T s s')
    (hT : (d, k) ∈ T → (d, k) ∈ s.readyKeys) : Tracked w d k v H0 s' := by
  rcases h with h | h
  · exact Or.inl (h.watchful hw hT)
  · refine Or.inr ?_
    unfold Lost
    rw [hw.own]
    exact h

theorem Tracked.changes (hc : Changes ∅ s s') : Tracked w d k v H0 s' :=
  h.watchful hc.watchful fun hmem => absurd hmem (Set.notMem_empty _)

theorem Tracked.setClient {f : Client n → Client n} (hf : Keeps w c s f) : Tracked w d k v H0 (s.setClient c f) := by
  refine h.imp (fun h => h.setClient hf) fun h => ?_
  unfold Lost
  rwa [hf.client.1]

theorem Tracked.unwatched (hu : Unwatched c s s') : Tracked w d k v H0 s' := by
  by_cases hw : w = c
  · subst hw
    refine Or.inr ?_
    unfold Lost
    rw [hu.client]
    simp
  · rcases h with h | h
    · refine Or.inl ⟨⟨?_, ?_⟩, ?_, ?_⟩
      · change w ∈ watchers s' d k
        rw [hu.watchers]
        exact (mem_erase_of_ne hw).mpr h.watching.1
      · rw [hu.client_of_ne hw]
        exact h.watching.2
      · rw [hu.same]
        exact h.since
      · have hlookup : s'.lookupKey = s.lookupKey := by
          rw [hu.same]
          rfl
        have hready : s'.readyKeys = s.readyKeys := by rw [hu.same]
        have hhistory : s'.history = s.history := by rw [hu.same]
        rw [hlookup, hready, hu.client_of_ne hw]
        refine h.kept.imp id (Or.imp id fun hmoved => hmoved.of_isPrefix ?_)
        rw [hhistory]
    · refine Or.inr ?_
      unfold Lost
      rw [hu.client_of_ne hw]
      exact h

/-- A client that gives up its watches may forget what it was told. -/
theorem Tracked.unwatched_setClient (hu : Unwatched c s s') (f : Client n → Client n)
    (hown : ∀ cl, (f cl).watchedKeys = cl.watchedKeys) : Tracked w d k v H0 (s'.setClient c f) := by
  by_cases hw : c = w
  · subst hw
    refine Or.inr ?_
    unfold Lost
    simp [Server.setClient, hown, hu.client]
  · exact (h.unwatched hu).setClient fun heq => absurd heq hw

end

theorem watchful_blockedOn {target : Option Key} (hb : BlockedOn c keys target s s') : Watchful ∅ s s' := by
  obtain ⟨B, -, hsame⟩ := hb.same
  have hclient : ∀ x, (s'.clients x).watchedKeys = (s.clients x).watchedKeys ∧
      (s'.clients x).dirtyCas = (s.clients x).dirtyCas := by
    intro x
    rw [hsame]
    by_cases hx : x = c
    · subst hx
      simp
    · simp [hx]
  refine ⟨by rw [hsame], fun x => (hclient x).1, fun x hx => by rw [(hclient x).2]; exact hx,
    fun x hx => Or.inl (by rw [← (hclient x).2]; exact hx), by rw [hsame]; exact prefix_append _ _,
      fun d k _ => Or.inl (by rw [hsame]; rfl), fun d k _ hready => ?_⟩
  rw [hsame] at hready
  exact Or.inl hready

section

variable (h : Tracked w d k v H0 s) (hl : Live s)
include h hl

theorem Tracked.procStep (hc : (s.clients c).blocked = false) (hp : ProcStep c s s') : Tracked w d k v H0 s' := by
  cases hp with
  | changes hch _ => exact h.changes hch
  | blocks keys target _ _ _ hs' =>
    rw [hs']
    exact h.watchful (watchful_blockedOn (blockForKeys_spec hl.serving.block hc keys target))
      fun hmem => absurd hmem (Set.notMem_empty _)
  | selects d hs' =>
    rw [hs']
    refine Tracked.changes (h.setClient ?_) changes_addReply
    exact fun _ => ⟨rfl, rfl⟩
  | unwatches s1 h1 hs' =>
    obtain ⟨s2, h2, hu, -⟩ := unwatchAllKeys_spec hl.watch c
    cases h1.symm.trans h2
    rw [hs']
    refine Tracked.changes (Tracked.unwatched_setClient h hu _ ?_) changes_addReply
    exact fun cl => rfl

theorem Tracked.call (hc : (s.clients c).blocked = false) {cmd : Command}
    (hcall : call O c s cmd = some s') : Tracked w d k v H0 s' := by
  obtain ⟨s1, s2, hs2, hstep, hch, -⟩ := call_spec (O := O) hl c cmd
  cases hcall.symm.trans hs2
  exact (h.procStep hl hc hstep).changes hch

theorem Tracked.discardTransaction (hrun : discardTransaction c s = some s') : Tracked w d k v H0 s' := by
  obtain ⟨s1, h1, -, hu⟩ := discardTransaction_spec hl c
  cases hrun.symm.trans h1
  by_cases hw : c = w
  · subst hw
    refine Or.inr ?_
    unfold Lost
    rw [hu.client]
    simp
  · refine Tracked.unwatched (h.setClient ?_) hu
    exact fun heq => absurd heq hw

omit hl in
theorem Tracked.executed (hs' : Executed O c s s') : Tracked w d k v H0 s' := by
  cases hs' with
  | empty hu hl1 hs' => exact ((h.unwatched hu).changes changes_addReply).discardTransaction (hl1.addReply c _) hs'
  | @queue s1 s3 s4 hu hl1 hcalls hl3 hs4 =>
    have h2 := ((h.unwatched hu).changes
      (changes_addReply (c := c) (r := .multiBulkLen (s.clients c).commands.length))).changes
      (changes_propagate (d := (s.clients c).db) (p := .multi))
    have h3 : Tracked w d k v H0 s3 := by
      clear hl3 hs4
      induction hcalls with
      | refl => exact h2
      | tail _ hcall ih =>
        obtain ⟨hl, -, hc, cmd, -, hcall⟩ := hcall
        exact Tracked.call ih hl hc hcall
    exact ((h3.discardTransaction hl3 hs4).changes changes_addDirty).changes changes_propagate

end

theorem Guarded.watchForKey (h : Guarded w d k v H0 s) (c : ClientId) (key : Key) :
    Guarded w d k v H0 (watchForKey c s key) := by
  unfold Clients.watchForKey
  dsimp only
  cases listDelNode ((s.clients c).db, key) (s.clients c).watchedKeys with
  | some l => exact h
  | none =>
    refine ⟨⟨?_, ?_⟩, h.since, ?_⟩
    · have hmem := h.watching.1
      dsimp only
      by_cases hd : d = (s.clients c).db
      · subst hd
        rw [update_self]
        by_cases hk : k = key
        · subst hk
          rw [AList.lookup_insert]
          exact mem_append_left _ hmem
        · rw [AList.lookup_insert_ne hk]
          exact hmem
      · rw [update_of_ne hd]
        exact hmem
    · have hown := h.watching.2
      by_cases hw : w = c
      · subst hw
        simp [Server.setClient, hown]
      · simp [Server.setClient, hw, hown]
    · have hdirty : ((s.setClient c fun cl =>
          { cl with watchedKeys := cl.watchedKeys ++ [((s.clients c).db, key)] }).clients w).dirtyCas =
          (s.clients w).dirtyCas := by
        by_cases hw : w = c
        · subst hw
          simp [Server.setClient]
        · simp [Server.setClient, hw]
      rw [hdirty]
      exact h.kept

theorem Guarded.watchAll (keys : List Key) (h : Guarded w d k v H0 s) (c : ClientId) :
    Guarded w d k v H0 (keys.foldl (Clients.watchForKey c) s) := by
  induction keys generalizing s with
  | nil => exact h
  | cons key keys ih => exact ih (h.watchForKey c key)

theorem Guarded.requested (h : Guarded w d k v H0 s) (hl : Live s) (hc : (s.clients c).blocked = false) {r : Request}
    (hr : Requested O c s r s') : Tracked w d k v H0 s' := by
  have ht : Tracked w d k v H0 s := Or.inl h
  cases hr with
  | replied _ rep => exact ht.changes changes_addReply
  | watched keys => exact Tracked.changes (Or.inl (h.watchAll keys c)) changes_addReply
  | flagged _ f rep hf _ =>
    refine Tracked.changes (ht.setClient fun _ => ?_) changes_addReply
    rw [hf]
    exact ⟨rfl, rfl⟩
  | aborted rep hs' => exact (ht.changes changes_addReply).discardTransaction (hl.addReply c _) hs'
  | discarded hs' => exact (ht.discardTransaction hl hs').changes changes_addReply
  | executed hs' => exact ht.executed hs'
  | called cmd hs' => exact ht.call hl hc hs'

/-- One input; whatever it is, the client is told, or has given up the watch by it. -/
theorem Guarded.stepped (h : Guarded w d k v H0 s) {i : Input} (hi : Stepped O s i s') : Tracked w d k v H0 s' := by
  have ht : Tracked w d k v H0 s := Or.inl h
  have hnone {t : Server n} (hmem : (d, k) ∈ (∅ : Set (DbId n × Key))) : (d, k) ∈ t.readyKeys :=
    absurd hmem (Set.notMem_empty _)
  cases hi with
  | ignored => exact ht
  | @requested c r s1 _ hc hlive hr hwatch hserve =>
    have h0 : Guarded w d k v H0 (s.setClient c fun cl => { cl with lastcmd := some r }) :=
      h.setClient fun _ => ⟨rfl, rfl⟩
    exact (h0.requested hlive (by simpa [Server.setClient] using hc) hr).watchful hwatch fun hmem => hmem
  | timedOut c hu =>
    exact ((ht.changes changes_addReply).watchful (watchful_unblocked hu) hnone).changes
      changes_record
  | @freed c s1 s2 h1 hu =>
    have ht1 : Tracked w d k v H0 s1 := by
      rcases h1 with rfl | ⟨s0, hu0, rfl⟩
      · exact ht
      · exact (ht.watchful (watchful_unblocked hu0) hnone).changes changes_record
    by_cases hw : w = c
    · subst hw
      exact Or.inr (by simp [Lost, Server.setClient, createClient])
    -- otherwise the record of another client is replaced
    · exact (ht1.unwatched hu).setClient fun heq => absurd heq.symm hw

theorem Guarded.run (is : List Input) (h : Guarded w d k v H0 s) (hr : Resting s) (hrun : run O is s = some s')
    (hwatched : ∀ js, js <+: is → ∀ t, Clients.run O js s = some t → (d, k) ∈ (t.clients w).watchedKeys) :
    Guarded w d k v H0 s' := by
  induction is generalizing s with
  | nil =>
    cases hrun
    exact h
  | cons i is ih =>
    obtain ⟨s1, h1, hr1, hstep⟩ := exec_spec (O := O) hr i
    have htail : Clients.run O is s1 = some s' := by
      rw [Clients.run, h1] at hrun
      exact hrun
    have hstill : (d, k) ∈ (s1.clients w).watchedKeys := by
      refine hwatched [i] (prefix_append [i] is) s1 ?_
      rw [Clients.run, h1]
      rfl
    refine ih ((h.stepped hstep).resolve_right fun hlost => hlost hstill) hr1 htail fun js hjs t ht => ?_
    refine hwatched (i :: js) ((prefix_cons_inj i).mpr hjs) t ?_
    rw [Clients.run, h1]
    exact ht

/-! ### `WATCH` and `EXEC` -/

section

variable (c : ClientId) (key : Key) (s : Server n)

theorem watchForKey_same : ∃ clients watchedKeys, watchForKey c s key =
    { s with clients := clients, watchedKeys := watchedKeys } ∧ (clients c).db = (s.clients c).db := by
  unfold watchForKey
  dsimp only
  split
  · exact ⟨_, _, rfl, rfl⟩
  · exact ⟨_, _, rfl, by simp [Server.setClient]⟩

theorem watchAll_same (keys : List Key) (c : ClientId) (s : Server n) :
    let s' := keys.foldl (watchForKey c) s
    s'.lookupKey = s.lookupKey ∧ s'.readyKeys = s.readyKeys ∧ s'.history = s.history := by
  induction keys generalizing s with
  | nil => exact ⟨rfl, rfl, rfl⟩
  | cons key keys ih =>
    obtain ⟨clients, watchedKeys, heq, -⟩ := watchForKey_same c key s
    rw [foldl_cons, heq]
    exact ih _

theorem mem_watchedKeys_watchForKey : ((s.clients c).db, key) ∈ ((watchForKey c s key).clients c).watchedKeys := by
  unfold watchForKey
  dsimp only
  cases hnode : listDelNode ((s.clients c).db, key) (s.clients c).watchedKeys with
  | some l => exact mem_of_listDelNode hnode
  | none => simp [Server.setClient]

theorem watchedKeys_subset_watchForKey :
    ∀ p ∈ (s.clients c).watchedKeys, p ∈ ((watchForKey c s key).clients c).watchedKeys := by
  intro p hp
  unfold watchForKey
  dsimp only
  split
  · exact hp
  · simp [Server.setClient, hp]

end

theorem mem_watchedKeys_watchAll (hk : k ∈ keys) (c : ClientId) (s : Server n) :
    ((s.clients c).db, k) ∈ ((keys.foldl (watchForKey c) s).clients c).watchedKeys := by
  have hgrows : ∀ (keys : List Key) (s : Server n), ∀ p ∈ (s.clients c).watchedKeys,
      p ∈ ((keys.foldl (watchForKey c) s).clients c).watchedKeys := by
    intro keys
    induction keys with
    | nil => exact fun s p hp => hp
    | cons key keys ih => exact fun s p hp => ih _ p (watchedKeys_subset_watchForKey c key s p hp)
  induction keys generalizing s with
  | nil => cases hk
  | cons key keys ih =>
    rw [foldl_cons]
    rcases mem_cons.mp hk with rfl | hk
    · exact hgrows keys _ _ (mem_watchedKeys_watchForKey c k s)
    · obtain ⟨clients, watchedKeys, heq, hdb⟩ := watchForKey_same c key s
      have := ih hk (watchForKey c s key)
      rwa [heq, hdb, ← heq] at this

theorem guarded_watch (hr : Resting s) (hmulti : (s.clients w).multi = false)
    (hblocked : (s.clients w).blocked = false) (hk : k ∈ keys)
    (hrun : (Input.request w (.watch keys)).exec O s = some s') :
    Guarded w (s.clients w).db k (s.lookupKey (s.clients w).db k) s.history s' := by
  set s0 : Server n := s.setClient w fun cl => { cl with lastcmd := some (.watch keys) } with hs0
  have hclient : s0.clients w = { s.clients w with lastcmd := some (.watch keys) } := by simp [hs0, Server.setClient]
  have hs' : s' = (keys.foldl (watchForKey w) s0).addReply w .ok := by
    have hready : ((keys.foldl (watchForKey w) s0).addReply w .ok).readyKeys = [] :=
      (watchAll_same keys w s0).2.1.trans hr.ready
    have hnot : (s0.clients w).multi ≠ true := by
      rw [hclient]
      simpa using hmulti
    dsimp only [Input.exec] at hrun
    rw [if_neg (by simpa using hblocked)] at hrun
    unfold Clients.processCommand Clients.processRequest watchCommand at hrun
    rw [← hs0] at hrun
    dsimp only at hrun
    rw [if_neg hnot, bind_some, handle_of_nil hready] at hrun
    exact (some.inj hrun).symm
  obtain ⟨hlookup, -, hhistory⟩ := watchAll_same keys w s0
  have hown : ((s.clients w).db, k) ∈ (s'.clients w).watchedKeys := by
    have hmem := mem_watchedKeys_watchAll hk w s0
    rw [hclient] at hmem
    rw [hs']
    exact hmem
  obtain ⟨s'', h'', hr', -⟩ := exec_spec (O := O) hr (.request w (.watch keys))
  cases hrun.symm.trans h''
  refine ⟨⟨(hr'.live.watch.mem w _ k).mpr hown, hown⟩, ?_, Or.inl ⟨?_, ?_⟩⟩
  · rw [hs']
    change s.history <+: (keys.foldl (watchForKey w) s0).history
    rw [hhistory]
    exact prefix_refl _
  · rw [hs']
    change (keys.foldl (watchForKey w) s0).lookupKey _ k = _
    rw [hlookup]
    rfl
  · rw [hr'.ready]
    exact not_mem_nil

theorem discardTransaction_same (hl : Live s) (hrun : discardTransaction c s = some s') :
    s'.replies = s.replies ∧ s'.readyKeys = s.readyKeys := by
  obtain ⟨s1, h1, -, hu⟩ := discardTransaction_spec hl c
  cases hrun.symm.trans h1
  rw [hu.same]
  exact ⟨rfl, rfl⟩

/-- A transaction is executed only if its client was not told of a change. -/
theorem not_dirtyCas_of_exec (hr : Resting s) (hrun : (Input.request w .exec).exec O s = some s') {count : ℕ}
    {rest : List (ClientId × Reply)} (hreply : s'.replies = s.replies ++ (w, .multiBulkLen count) :: rest) :
    (s.clients w).dirtyCas = false := by
  by_contra hdirty
  rw [Bool.not_eq_false] at hdirty
  dsimp only [Input.exec] at hrun
  split_ifs at hrun with hblocked
  · cases hrun
    simp at hreply
  · set s0 : Server n := s.setClient w fun cl => { cl with lastcmd := some .exec } with hs0
    have hclient : s0.clients w = { s.clients w with lastcmd := some .exec } := by simp [hs0, Server.setClient]
    have hl0 : Live s0 := hr.live.setClient w _ fun cl => ⟨Or.inl rfl, rfl, rfl, rfl⟩
    obtain ⟨s1, h1, h2⟩ := bind_eq_some_iff.mp hrun
    have hs1 : s1.readyKeys = [] ∧ ∃ r, s1.replies = s.replies ++ [(w, r)] ∧ r ≠ .multiBulkLen count := by
      unfold Clients.processRequest Clients.execCommand at h1
      rw [← hs0, hclient] at h1
      dsimp only at h1
      split_ifs at h1 with hmulti hcas hexec
      · cases h1
        exact ⟨hr.ready, _, rfl, by simp⟩
      · obtain ⟨hreplies, hready⟩ := discardTransaction_same (hl0.addReply w _) h1
        exact ⟨hready.trans hr.ready, _, hreplies, by simp⟩
      · obtain ⟨hreplies, hready⟩ := discardTransaction_same (hl0.addReply w _) h1
        exact ⟨hready.trans hr.ready, _, hreplies, by simp⟩
      · rw [hdirty] at hcas
        simp at hcas
    obtain ⟨hready, r, hreplies, hne⟩ := hs1
    rw [handle_of_nil hready] at h2
    cases h2
    rw [hreplies] at hreply
    have heq := append_cancel_left hreply
    simp only [List.cons.injEq, Prod.mk.injEq, true_and] at heq
    exact hne heq.1

/-- A key that is watched until the transaction is executed has the value that it had when it was
watched, if it was not moved and its database not exchanged in between. -/
theorem executed_transaction_finds_watched_value (order : IterOrder) (D : Dataset n) (is js : List Input) (w : ClientId)
    (keys : List Key) (k : Key) (s₀ s₁ s₂ s₃ : Server n)
    (hstart : run order is (Server.start D.dict) = some s₀)
    (hmulti : (s₀.clients w).multi = false) (hblocked : (s₀.clients w).blocked = false) (hk : k ∈ keys)
    (hwatch : (Input.request w (.watch keys)).exec order s₀ = some s₁) (hrun : run order js s₁ = some s₂)
    (hwatched : ∀ js', js' <+: js → ∀ t, run order js' s₁ = some t →
      ((s₀.clients w).db, k) ∈ (t.clients w).watchedKeys)
    (hexec : (Input.request w .exec).exec order s₂ = some s₃)
    (hreply : ∃ count rest, s₃.replies = s₂.replies ++ (w, .multiBulkLen count) :: rest)
    (hmoved : ∀ H, s₂.history = s₀.history ++ H → ∀ e ∈ H, ¬ e.Moves (s₀.clients w).db k) :
    s₂.lookupKey (s₀.clients w).db k = s₀.lookupKey (s₀.clients w).db k := by
  obtain ⟨s, hs, hr₀⟩ := run_spec (O := order) (resting_start D) is
  cases hstart.symm.trans hs
  obtain ⟨s, hs, hr₁, -⟩ := exec_spec (O := order) hr₀ (.request w (.watch keys))
  cases hwatch.symm.trans hs
  obtain ⟨s, hs, hr₂⟩ := run_spec (O := order) hr₁ js
  cases hrun.symm.trans hs
  have hguard := (guarded_watch hr₀ hmulti hblocked hk hwatch).run js hr₁ hrun hwatched
  rcases hguard.kept with ⟨hv, -⟩ | hdirty | ⟨H, hH, e, he, hmoves⟩
  · exact hv
  · obtain ⟨count, rest, hreply⟩ := hreply
    rw [not_dirtyCas_of_exec hr₂ hexec hreply] at hdirty
    cases hdirty
  · exact absurd hmoves (hmoved H hH e he)

/-! ### Examples -/

def watchedKey : Key := [107]
def otherKey : Key := [111]

def oneString : Dataset 1 where
  dict d := if d = 0 then AList.singleton watchedKey (.string [118]) else ∅
  noEmpty d key := by
    by_cases hd : d = 0
    · by_cases h : key = watchedKey
      · subst h
        simp [hd, AList.singleton, AList.lookup]
      · simp [hd, AList.singleton, AList.lookup, List.dlookup, Ne.symm h]
    · simp [hd]

/-- What can be read off a state can be read off the run that leads to it. -/
theorem eval_eq {α : Type} {o : Option (Server n)} (f : Server n → α) {a : α} (h : o = some s)
    (he : o.map f = some a) : f s = a := by
  rw [h] at he
  exact some.inj he

def otherSet : List Input :=
  [.request 1 .multi, .request 1 (.command (.append watchedKey [49])), .request 2 (.command (.set .none otherKey [48]))]

theorem otherSet_finds_watched_value :
    ∃ s₁ s₂, (Input.request 1 (.watch [watchedKey])).exec .ofTable (Server.start oneString.dict) = some s₁ ∧
      run .ofTable otherSet s₁ = some s₂ ∧ s₂.lookupKey 0 watchedKey = some (.string [118]) := by
  have hr₀ : Resting (Server.start oneString.dict) := resting_start oneString
  obtain ⟨s₁, h₁, hr₁, -⟩ := exec_spec (O := IterOrder.ofTable) hr₀ (.request 1 (.watch [watchedKey]))
  obtain ⟨s₂, h₂, hr₂⟩ := run_spec (O := IterOrder.ofTable) hr₁ otherSet
  obtain ⟨s₃, h₃, -⟩ := exec_spec (O := IterOrder.ofTable) hr₂ (.request 1 .exec)
  have hall : ∀ js t, run .ofTable js s₁ = some t →
      run .ofTable (.request 1 (.watch [watchedKey]) :: js) (Server.start oneString.dict) = some t := by
    intro js t ht
    rw [run, h₁]
    exact ht
  have hprefixes : ∀ js ∈ otherSet.inits,
      (run .ofTable (.request 1 (.watch [watchedKey]) :: js) (Server.start oneString.dict)).map
        (fun t => decide ((0, watchedKey) ∈ (t.clients 1).watchedKeys)) = some true := by decide +kernel
  have hreplies : (run .ofTable (.request 1 (.watch [watchedKey]) :: (otherSet ++ [.request 1 .exec]))
      (Server.start oneString.dict)).map (·.replies) =
      some [(1, .ok), (1, .ok), (1, .queued), (2, .ok), (1, .multiBulkLen 1), (1, .longLong 2)] := by decide +kernel
  have hreplies₂ : (run .ofTable (.request 1 (.watch [watchedKey]) :: otherSet)
      (Server.start oneString.dict)).map (·.replies) = some [(1, .ok), (1, .ok), (1, .queued), (2, .ok)] := by
    decide +kernel
  have hhistory : (run .ofTable (.request 1 (.watch [watchedKey]) :: otherSet)
      (Server.start oneString.dict)).map (·.history) = some [] := by decide +kernel
  have hrun₃ : run .ofTable (otherSet ++ [.request 1 .exec]) s₁ = some s₃ := by
    rw [run_append, h₂, bind_some, run, h₃]
    rfl
  refine ⟨s₁, s₂, h₁, h₂, ?_⟩
  exact executed_transaction_finds_watched_value .ofTable oneString [] otherSet 1 [watchedKey] watchedKey
    (Server.start oneString.dict) s₁ s₂ s₃ rfl rfl rfl (mem_singleton_self _) h₁ h₂
    (fun js hjs t ht => of_decide_eq_true (eval_eq _ (hall js t ht) (hprefixes js (mem_inits js otherSet |>.mpr hjs))))
    h₃ ⟨1, [(1, .longLong 2)], by
      rw [eval_eq _ (hall _ _ hrun₃) hreplies, eval_eq _ (hall _ _ h₂) hreplies₂]
      rfl⟩
    fun H hH e he => by
      rw [eval_eq _ (hall _ _ h₂) hhistory] at hH
      have hnil : H = [] := by simpa [Server.start] using hH.symm
      rw [hnil] at he
      cases he

/-- The key is moved away, or the databases are exchanged, between `WATCH` and `EXEC`. -/
def moveAway : List Input :=
  [.request 1 (.watch [watchedKey]), .request 1 .multi, .request 2 (.command (.move watchedKey 1))]

def swapAway : List Input :=
  [.request 1 (.watch [watchedKey]), .request 1 .multi, .request 2 (.command (.swapdb 0 1))]

/-- The transaction is executed all the same. -/
theorem move_and_swapdb_unnoticed : (Server.start oneString.dict).lookupKey 0 watchedKey = some (.string [118]) ∧
      (run .ofTable moveAway (Server.start oneString.dict)).map
        (fun s => (s.lookupKey 0 watchedKey, s.replies.drop 2)) = some (none, [(2, .cone)]) ∧
      (run .ofTable (moveAway ++ [.request 1 .exec]) (Server.start oneString.dict)).map
        (fun s => s.replies.drop 2) = some [(2, .cone), (1, .multiBulkLen 0)] ∧
      (run .ofTable swapAway (Server.start oneString.dict)).map
        (fun s => (s.lookupKey 0 watchedKey, s.replies.drop 2)) = some (none, [(2, .ok)]) ∧
      (run .ofTable (swapAway ++ [.request 1 .exec]) (Server.start oneString.dict)).map
        (fun s => s.replies.drop 2) = some [(2, .ok), (1, .multiBulkLen 0)] := by
  refine ⟨?_, ?_, ?_, ?_, ?_⟩
  all_goals decide +kernel

end RedisIR.Clients
