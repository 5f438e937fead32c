import RedisIR.Proofs.BlockTables

/-! `handleClientsBlockedOnKeys`: the list of a ready key is given out until it is empty or nobody
waits for it any more, and what is pushed on the way makes other keys ready. -/

namespace RedisIR.Clients

open CLib Server Keyspace List Function

variable {n : ℕ} {s s' s'' : Server n} {c : ClientId} {d d' : DbId n} {k k' key : Key} {l : List Bytes}
  {P : List (DbId n × Key)}
variable {Q : List (DbId n × Key)}

/-- No list was put in the place of another value while clients waited for it. -/
def NoHides (s : Server n) : Prop := ∀ e ∈ s.history, ¬ e.Hides

theorem NoHides.of_isPrefix (h : NoHides s') (hhistory : s.history <+: s'.history) : NoHides s :=
  fun e he => h e (hhistory.subset he)

/-- What holds while the keys `P` are still to be served, and those of `Q` are covered. -/
structure Serving (P Q : List (DbId n × Key)) (s : Server n) : Prop where
  block : BlockTables s
  subset : P ⊆ Q
  tables : ReadyTables P s
  covered : NoHides s → Covered Q s

theorem Serving.quiet (h : Serving P Q s) (hq : Quiet s s') : Serving P Q s' where
  block := h.block.quiet hq
  subset := h.subset
  tables := hq.tables P h.tables
  covered hhides := hq.covered P Q h.subset h.tables (h.covered (hhides.of_isPrefix hq.history)) hhides

theorem Unblocked.lookupKey (h : Unblocked c s s') : s'.lookupKey = s.lookupKey := by
  rw [h.same]
  rfl

theorem Unblocked.history (h : Unblocked c s s') : s'.history = s.history := by rw [h.same]

theorem Unblocked.db (h : Unblocked c s s') (x : ClientId) : (s'.clients x).db = (s.clients x).db := by
  rw [h.same]
  by_cases hx : x = c
  · subst hx
    simp
  · simp [hx]

theorem Serving.unblocked (h : Serving P Q s) (hc : (s.clients c).blocked = true) (hu : Unblocked c s s') :
    Serving P Q s' where
  block := h.block.unblocked hc hu
  subset := h.subset
  tables := by
    have hready : s'.readyKeys = s.readyKeys := by rw [hu.same]
    have hdb : s'.dbReadyKeys = s.dbReadyKeys := by rw [hu.same]
    unfold ReadyTables
    rw [hready, hdb]
    exact h.tables
  covered hhides d k l hl hblocked := by
    have hready : s'.readyKeys = s.readyKeys := by rw [hu.same]
    rw [hu.lookupKey] at hl
    rw [(h.block.unblocked hc hu).lookup_ne_none, hu.waiting] at hblocked
    rw [hready]
    refine h.covered (hhides.of_isPrefix (by rw [hu.history])) d k l hl ?_
    rw [h.block.lookup_ne_none]
    intro hnil
    rw [hnil] at hblocked
    exact hblocked rfl

theorem watchful_unblocked (hu : Unblocked c s s') : Watchful ∅ s s' := by
  have hclient : ∀ x, (s'.clients x).watchedKeys = (s.clients x).watchedKeys ∧
      (s'.clients x).dirtyCas = (s.clients x).dirtyCas := by
    intro x
    rw [hu.same]
    by_cases hxc : x = c
    · subst hxc
      simp
    · simp [hxc]
  refine ⟨by rw [hu.same], fun x => (hclient x).1, fun x hx => by rw [(hclient x).2]; exact hx,
    fun x hx => Or.inl (by rw [← (hclient x).2]; exact hx), by rw [hu.history], fun d k _ => ?_,
      fun d k _ hready => ?_⟩
  · exact Or.inl (by rw [hu.lookupKey])
  · rw [hu.same] at hready
    exact Or.inl hready

/-! ### One client -/

/-- What serving a client can do: it gets the element, the element goes to its destination, or back
to where it came from. -/
theorem serveOrUndo_cases (receiver : ClientId) (key : Key) (dstkey : Option Key) (d : DbId n) (value : Bytes)
    (side : Side) (l : List Bytes) (s : Server n) : dstkey = none ∧ serveOrUndo receiver key dstkey d value side l s =
        ((s.propagate d (.command (.pop side key))).addReply receiver (.keyAndBulk key value)).record
          (.returned value) ∨
      (∃ dst dstobj, dstkey = some dst ∧ s.lookupKey (s.clients receiver).db dst = dstobj.map .list ∧
        serveOrUndo receiver key dstkey d value side l s =
          (rpoplpushHandlePush receiver dst dstobj value (s.propagate d (.command (.pop .tail key)))).propagate d
            (.command (.push .head dst [value]))) ∨
      ∃ dst v, dstkey = some dst ∧ s.lookupKey (s.clients receiver).db dst = some v ∧ v.isList = false ∧
        serveOrUndo receiver key dstkey d value side l s =
          (s.addReply receiver .wrongtypeerr).store d key (.list (listTypePush side value l)) := by
  unfold serveOrUndo serveClientBlockedOnList
  cases dstkey with
  | none => exact Or.inl ⟨rfl, rfl⟩
  | some dst =>
    refine Or.inr ?_
    cases hdst : s.lookupKey (s.clients receiver).db dst with
    | none => exact Or.inl ⟨dst, none, rfl, hdst, by simp only [hdst]; rfl⟩
    | some v =>
      cases v with
      | list m => exact Or.inl ⟨dst, some m, rfl, hdst, by simp only [hdst]; rfl⟩
      | _ => exact Or.inr ⟨dst, _, rfl, hdst, rfl, by simp only [hdst]; rfl⟩

theorem changes_serveOrUndo (receiver : ClientId) (hl : s.lookupKey d key = some (.list l)) (dstkey : Option Key)
    (value : Bytes) (side : Side) : Changes {(d, key)} s (serveOrUndo receiver key dstkey d value side l s) := by
  rcases serveOrUndo_cases receiver key dstkey d value side l s with
    ⟨-, heq⟩ | ⟨dst, dstobj, -, hdst, heq⟩ | ⟨dst, v, -, -, -, heq⟩
  · rw [heq]
    exact ((changes_propagate.andThen changes_addReply).andThen
      changes_record).mono (Set.empty_subset _)
  · rw [heq]
    have hlist : ∀ m, dstobj = some m → ∃ m', s.lookupKey (s.clients receiver).db dst = some (.list m') := by
      intro m hm
      exact ⟨m, by rw [hdst, hm]; rfl⟩
    exact ((changes_propagate.rpoplpushHandlePush (c := receiver) dst dstobj
      hlist value).andThen changes_propagate).mono (Set.empty_subset _)
  · rw [heq]
    refine (changes_addReply.trans
      (changes_store _ d key (.list (listTypePush side value l)) fun _ _ => ⟨l, hl⟩)).mono ?_
    simp

/-- The destination of `rpoplpushHandlePush` is the only key that changes. -/
@[simp] theorem lookupKey_rpoplpushHandlePush (c : ClientId) (dst : Key) (dstobj : Option (List Bytes)) (value : Bytes)
    (s : Server n) : (rpoplpushHandlePush c dst dstobj value s).lookupKey =
      Keyspace.set s.lookupKey (s.clients c).db dst (some (.list (value :: dstobj.getD []))) := by
  cases dstobj <;> simp [rpoplpushHandlePush, listTypePush]

/-- No key but these holds an empty list. -/
def NoEmptyBut (T : Set (DbId n × Key)) (s : Server n) : Prop :=
  ∀ d k, (d, k) ∉ T → s.lookupKey d k ≠ some (.list [])

theorem serveOrUndo_keys (receiver : ClientId) (hl : s.lookupKey d key = some (.list l)) (dstkey : Option Key)
    (value : Bytes) (side : Side) :
    (∃ l', (serveOrUndo receiver key dstkey d value side l s).lookupKey d key = some (.list l')) ∧
      (NoEmptyBut {(d, key)} s → NoEmptyBut {(d, key)} (serveOrUndo receiver key dstkey d value side l s)) := by
  rcases serveOrUndo_cases receiver key dstkey d value side l s with
    ⟨-, heq⟩ | ⟨dst, dstobj, -, -, heq⟩ | ⟨dst, v, -, -, -, heq⟩
  · rw [heq]
    exact ⟨⟨l, hl⟩, fun h => h⟩
  · simp only [heq, NoEmptyBut, lookupKey_propagate, lookupKey_rpoplpushHandlePush]
    refine ⟨?_, fun h d' k' hk => set_ne (h d' k' hk) (by simp)⟩
    unfold Keyspace.set
    split_ifs
    · exact ⟨_, rfl⟩
    · exact ⟨l, hl⟩
  · simp only [heq, NoEmptyBut, lookupKey_store]
    exact ⟨⟨_, set_self ..⟩, fun h d' k' hk => by rw [set_of_ne _ _ hk]; exact h d' k' hk⟩

theorem listTypePop_eq_none (side : Side) : listTypePop side l = none ↔ l = [] := by
  cases side <;> simp [listTypePop]

structure FirstServed (d : DbId n) (key : Key) (l : List Bytes) (s s' : Server n) : Prop where
  intro ::
  steps : ∃ receiver rest value l' s1, waiting s d key = receiver :: rest ∧
    listTypePop (popSide (s.clients receiver).lastcmd) l = some (value, l') ∧
    Unblocked receiver (s.store d key (.list l')) s1 ∧
    s' = serveOrUndo receiver key (s.clients receiver).bpopTarget d value (popSide (s.clients receiver).lastcmd) l'
      (s1.record (.served receiver d key))

theorem serveFirst_spec (hb : BlockTables s) (hl : s.lookupKey d key = some (.list l)) (hw : waiting s d key ≠ []) :
    l = [] ∧ serveFirst d key s = some (s, false) ∨
      ∃ s', serveFirst d key s = some (s', true) ∧ FirstServed d key l s s' := by
  unfold waiting ClientTable.get at hw
  unfold serveFirst
  cases ht : (s.blockingKeys d).lookup key with
  | none => simp [ht] at hw
  | some cs =>
    cases cs with
    | nil => simp [ht] at hw
    | cons receiver rest =>
      simp only [hl]
      cases hpop : listTypePop (popSide (s.clients receiver).lastcmd) l with
      | none => exact Or.inl ⟨(listTypePop_eq_none _).mp hpop, rfl⟩
      | some p =>
        obtain ⟨value, l'⟩ := p
        have hwait : waiting s d key = receiver :: rest := by simp [waiting, ClientTable.get, ht]
        have hstore := (changes_store s d key (.list l') fun _ _ => ⟨l, hl⟩).quiet
        have hblocked : ((s.store d key (.list l')).clients receiver).blocked = true := by
          rw [(hb.quiet hstore).blocked]
          have hmem : receiver ∈ waiting (s.store d key (.list l')) d key := by
            change receiver ∈ waiting s d key
            simp [hwait]
          exact ne_nil_of_mem (((hb.quiet hstore).mem receiver d key).mp hmem).2
        obtain ⟨s1, hunblock, hu⟩ := unblockClient_spec (hb.quiet hstore) hblocked
        refine Or.inr ⟨_, ?_, receiver, rest, value, l', s1, hwait, hpop, hu, rfl⟩
        simp only [hunblock]
        rfl

theorem FirstServed.kept (h : FirstServed d key l s s') (hs : Serving P Q s) (hl : s.lookupKey d key = some (.list l)) :
    Serving P Q s' ∧ Watchful {(d, key)} s s' ∧ (NoEmptyBut {(d, key)} s → NoEmptyBut {(d, key)} s') ∧
      (∃ l', s'.lookupKey d key = some (.list l')) ∧
      (waiting s' d key).length + 1 = (waiting s d key).length ∧ s'.blockedClients < s.blockedClients := by
  obtain ⟨receiver, rest, value, l', s1, hwait, -, hu, rfl⟩ := h.steps
  have hstore := changes_store s d key (.list l') fun _ _ => ⟨l, hl⟩
  have hs0 := hs.quiet hstore.quiet
  have hmem : receiver ∈ waiting s d key := by simp [hwait]
  have hblocked : ((s.store d key (.list l')).clients receiver).blocked = true :=
    (hs.block.blocked receiver).mpr (ne_nil_of_mem ((hs.block.mem receiver d key).mp hmem).2)
  have hs1 := hs0.unblocked hblocked hu
  have hrecord := changes_record (s := s1) (e := .served receiver d key)
  have hl1 : (s1.record (.served receiver d key)).lookupKey d key = some (.list l') := by
    change s1.lookupKey d key = _
    rw [hu.lookupKey, lookupKey_store, set_self]
  have hserve := changes_serveOrUndo receiver hl1 (s.clients receiver).bpopTarget value
    (popSide (s.clients receiver).lastcmd)
  have hquiet := hrecord.quiet.trans hserve.quiet
  have hkeys :=
    serveOrUndo_keys receiver hl1 (s.clients receiver).bpopTarget value (popSide (s.clients receiver).lastcmd)
  refine ⟨hs1.quiet hquiet, ?_, fun hempty => hkeys.2 fun d' k' hk => ?_, hkeys.1, ?_, ?_⟩
  · refine (((hstore.watchful.trans (watchful_unblocked hu)).trans hrecord.watchful).trans hserve.watchful).mono ?_
    simp
  · change s1.lookupKey d' k' ≠ _
    rw [hu.lookupKey, lookupKey_store, set_of_ne _ _ hk]
    exact hempty d' k' hk
  · have hw : waiting (serveOrUndo receiver key (s.clients receiver).bpopTarget d value
        (popSide (s.clients receiver).lastcmd) l' (s1.record (.served receiver d key))) d key = waiting s1 d key := by
      unfold waiting
      rw [hquiet.blockingKeys]
    have hrest : waiting s1 d key = rest := by
      rw [hu.waiting]
      change (waiting s d key).erase receiver = rest
      simp [hwait]
    rw [hw, hrest, hwait]
    rfl
  · rw [hquiet.blockedClients, hu.same]
    have hpos := hs0.block.blockedClients_pos hblocked
    change s.blockedClients - 1 < s.blockedClients
    change 0 < s.blockedClients at hpos
    omega

inductive ServeStep (s s' : Server n) : Prop
  | first (d : DbId n) (key : Key) (l : List Bytes) (hb : BlockTables s) (hl : s.lookupKey d key = some (.list l))
      (h : FirstServed d key l s s')
  | dropped (d : DbId n) (key : Key) (hl : s.lookupKey d key = some (.list [])) (h : s' = dbDelete d key s)
  | tables (h : s' = { s with readyKeys := s'.readyKeys, dbReadyKeys := s'.dbReadyKeys })

abbrev ServeSteps (s s' : Server n) : Prop := Relation.ReflTransGen ServeStep s s'

/-! ### One key -/

def Progress (s s' : Server n) : Prop :=
  s'.blockedClients ≤ s.blockedClients ∧ (s'.blockedClients = s.blockedClients → s'.readyKeys = s.readyKeys)

theorem Progress.trans (h : Progress s s') (h' : Progress s' s'') : Progress s s'' := by
  refine ⟨h'.1.trans h.1, fun heq => ?_⟩
  have h1 : s'.blockedClients = s.blockedClients := le_antisymm h.1 (heq ▸ h'.1)
  exact (h'.2 (heq.trans h1.symm)).trans (h.2 h1)

theorem serveLoop_spec (m : ℕ) (hs : Serving P Q s) (hl : s.lookupKey d key = some (.list l))
    (hm : (waiting s d key).length = m) :
    ∃ s' l', serveLoop d key m s = some s' ∧ Serving P Q s' ∧ Watchful {(d, key)} s s' ∧
      (NoEmptyBut {(d, key)} s → NoEmptyBut {(d, key)} s') ∧ Progress s s' ∧ ServeSteps s s' ∧
      s'.lookupKey d key = some (.list l') ∧ (l' = [] ∨ waiting s' d key = []) := by
  induction m generalizing s l with
  | zero =>
    refine ⟨s, l, rfl, hs, (Watchful.refl s).mono (Set.empty_subset _), fun h => h,
      ⟨le_rfl, fun _ => rfl⟩, .refl, hl, Or.inr ?_⟩
    exact eq_nil_of_length_eq_zero hm
  | succ m ih =>
    have hne : waiting s d key ≠ [] := by
      intro hnil
      rw [hnil] at hm
      cases hm
    rcases serveFirst_spec hs.block hl hne with ⟨rfl, hrun⟩ | ⟨s1, hrun, hfirst⟩
    · refine ⟨s, [], ?_, hs, (Watchful.refl s).mono (Set.empty_subset _), fun h => h, ⟨le_rfl, fun _ => rfl⟩,
        .refl, hl, Or.inl rfl⟩
      simp [serveLoop, hrun]
    · obtain ⟨hs1, hwatch1, hempty1, ⟨l1, hl1⟩, hlen, hlt⟩ := hfirst.kept hs hl
      obtain ⟨s2, l2, hloop, hs2, hwatch2, hempty2, hprogress, hsteps, hl2, hdone⟩ := ih hs1 hl1 (by omega)
      refine ⟨s2, l2, ?_, hs2, (hwatch1.trans hwatch2).mono (by simp), fun h => hempty2 (hempty1 h), ?_,
        .head (.first d key l hs.block hl hfirst) hsteps, hl2, hdone⟩
      · simp only [serveLoop, hrun]
        exact hloop
      · have hle := hprogress.1
        exact ⟨by omega, fun heq => by omega⟩

theorem serving_forget (hs : Serving ((d, key) :: P) ((d, key) :: P) s) : Serving P ((d, key) :: P)
      { s with dbReadyKeys := update s.dbReadyKeys d ((s.dbReadyKeys d).erase key) } := by
  obtain ⟨hnodup, hmem⟩ := hs.tables
  rw [cons_append, nodup_cons] at hnodup
  refine ⟨hs.block.congr rfl (fun _ => Or.inl rfl) (fun _ => rfl) (fun _ => rfl) rfl, subset_cons_self _ _,
    ⟨hnodup.2, ?_⟩, hs.covered⟩
  intro d' k'
  have hold := hmem d' k'
  rw [cons_append, mem_cons] at hold
  dsimp only
  by_cases hk : (d', k') = (d, key)
  · obtain ⟨rfl, rfl⟩ := Prod.mk.inj hk
    simp only [update_self, AList.lookup_erase, ne_eq, not_true_eq_false, false_iff]
    exact hnodup.1
  · rw [or_iff_right hk] at hold
    rw [← hold]
    by_cases hd : d' = d
    · subst hd
      have hkey : k' ≠ key := fun h => hk (by rw [h])
      rw [update_self, AList.lookup_erase_ne hkey]
    · rw [update_of_ne hd]

theorem Serving.done (hs : Serving P ((d, key) :: Q) s) (hsub : P ⊆ Q)
    (hdone : ∀ l, s.lookupKey d key = some (.list l) → waiting s d key = []) : Serving P Q s := by
  refine ⟨hs.block, hsub, hs.tables, fun hhides d' k' l hl hblocked => ?_⟩
  have hmem := hs.covered hhides d' k' l hl hblocked
  rw [cons_append, mem_cons] at hmem
  rcases hmem with heq | hmem
  · obtain ⟨rfl, rfl⟩ := Prod.mk.inj heq
    rw [hs.block.lookup_ne_none] at hblocked
    exact absurd (hdone l hl) hblocked
  · exact hmem

theorem serveKey_spec (hs : Serving ((d, key) :: P) ((d, key) :: P) s) :
    ∃ s', serveKey d key s = some s' ∧ Serving P P s' ∧ Watchful {(d, key)} s s' ∧
      (NoEmptyBut ∅ s → NoEmptyBut ∅ s') ∧ Progress s s' ∧ ServeSteps s s' := by
  have hs0 := serving_forget hs
  unfold serveKey
  dsimp only
  set s0 : Server n := { s with dbReadyKeys := update s.dbReadyKeys d ((s.dbReadyKeys d).erase key) } with hs0def
  have hwatch0 : Watchful {(d, key)} s s0 :=
    ⟨rfl, fun _ => rfl, fun _ h => h, fun _ h => Or.inl h, prefix_refl _, fun _ _ _ => Or.inl rfl,
      fun _ _ _ h => Or.inl h⟩
  have hprogress0 : Progress s s0 := ⟨le_rfl, fun _ => rfl⟩
  have hsteps0 : ServeSteps s s0 := .single (.tables rfl)
  have hother (hnot : ∀ l, s0.lookupKey d key ≠ some (.list l)) :
      ∃ s', some s0 = some s' ∧ Serving P P s' ∧ Watchful {(d, key)} s s' ∧
        (NoEmptyBut ∅ s → NoEmptyBut ∅ s') ∧ Progress s s' ∧ ServeSteps s s' :=
    ⟨s0, rfl, hs0.done (fun _ h => h) fun l hl => absurd hl (hnot l), hwatch0, fun h => h, hprogress0, hsteps0⟩
  cases hl : s0.lookupKey d key with
  | none => exact hother fun l h => by rw [hl] at h; cases h
  | some v =>
    cases v with
    | list l =>
      obtain ⟨s1, l1, hloop, hs1, hwatch1, hempty1, hprogress1, hsteps1, hl1, hdone⟩ := serveLoop_spec _ hs0 hl rfl
      have hempty (h : NoEmptyBut ∅ s) :
        NoEmptyBut {(d, key)} s1 := hempty1 fun d' k' _ => h d' k' (Set.notMem_empty _)
      have hrun : serveLoop d key (((s0.blockingKeys d).lookup key).getD []).length s0 = some s1 := hloop
      have hwatch := (hwatch0.trans hwatch1).mono (Set.union_self _).subset
      rw [hrun, Option.map_some, hl1]
      cases l1 with
      | nil =>
        have hdel := changes_dbDelete s1 d key
        refine ⟨_, rfl, (hs1.quiet hdel.quiet).done (fun _ h => h) ?_, (hwatch.trans hdel.watchful).mono (by simp),
          fun h d' k' _ => ?_, hprogress0.trans hprogress1, .tail (hsteps0.trans hsteps1) (.dropped d key hl1 rfl)⟩
        · intro l hl
          simp at hl
        · by_cases hk : (d', k') = (d, key)
          · obtain ⟨rfl, rfl⟩ := Prod.mk.inj hk
            simp
          · rw [lookupKey_dbDelete, set_of_ne _ _ hk]
            exact hempty h d' k' hk
      | cons x l1 =>
        have hnobody : waiting s1 d key = [] := hdone.resolve_left (by simp)
        refine ⟨s1, rfl, hs1.done (fun _ h => h) fun _ _ => hnobody, hwatch, fun h d' k' _ => ?_,
          hprogress0.trans hprogress1, hsteps0.trans hsteps1⟩
        by_cases hk : (d', k') = (d, key)
        · obtain ⟨rfl, rfl⟩ := Prod.mk.inj hk
          rw [hl1]
          simp
        · exact hempty h d' k' hk
    | _ => exact hother fun l h => by rw [hl] at h; cases h

/-! ### All keys -/

theorem serveKeys_spec (P : List (DbId n × Key)) (hs : Serving P P s) :
    ∃ s', serveKeys P s = some s' ∧ Serving [] [] s' ∧ Watchful {p | p ∈ P} s s' ∧
      (NoEmptyBut ∅ s → NoEmptyBut ∅ s') ∧ Progress s s' ∧ ServeSteps s s' := by
  induction P generalizing s with
  | nil => exact ⟨s, rfl, hs, (Watchful.refl s).mono (Set.empty_subset _), fun h => h,
      ⟨le_rfl, fun _ => rfl⟩, .refl⟩
  | cons p P ih =>
    obtain ⟨d, key⟩ := p
    obtain ⟨s1, hkey, hs1, hwatch1, hempty1, hprogress1, hsteps1⟩ := serveKey_spec hs
    obtain ⟨s2, hkeys, hs2, hwatch2, hempty2, hprogress2, hsteps2⟩ := ih hs1
    refine ⟨s2, ?_, hs2, (hwatch1.trans hwatch2).mono ?_, fun h => hempty2 (hempty1 h), hprogress1.trans hprogress2,
      hsteps1.trans hsteps2⟩
    · rw [serveKeys, hkey]
      exact hkeys
    · intro q hq
      rcases hq with hq | hq
      · exact mem_cons.mpr (Or.inl hq)
      · exact mem_cons_of_mem _ hq

/-- Nobody is told of what changes in this step, the keys that were ready apart. -/
theorem handleLoop_spec (fuel : ℕ) (hs : Serving [] [] s) (hfuel : s.blockedClients < fuel ∨ s.readyKeys = []) :
    ∃ s', handleLoop fuel s = some s' ∧ Serving [] [] s' ∧ s'.readyKeys = [] ∧
      Watchful {p | p ∈ s.readyKeys} s s' ∧ (NoEmptyBut ∅ s → NoEmptyBut ∅ s') ∧ ServeSteps s s' := by
  induction fuel generalizing s with
  | zero =>
    have hnil : s.readyKeys = [] := hfuel.resolve_left (Nat.not_lt_zero _)
    refine ⟨s, ?_, hs, hnil, (Watchful.refl s).mono (Set.empty_subset _), fun h => h, .refl⟩
    unfold handleLoop
    rw [if_pos hnil]
  | succ fuel ih =>
    unfold handleLoop
    split_ifs with hnil
    · exact ⟨s, rfl, hs, hnil, (Watchful.refl s).mono (Set.empty_subset _), fun h => h, .refl⟩
    · set s0 : Server n := { s with readyKeys := [] } with hs0def
      have hs0 : Serving s.readyKeys s.readyKeys s0 := by
        refine ⟨hs.block.congr rfl (fun _ => Or.inl rfl) (fun _ => rfl) (fun _ => rfl) rfl, fun _ h => h, ?_, ?_⟩
        · have := hs.tables
          unfold ReadyTables at this ⊢
          simpa [hs0def] using this
        · intro hhides d k l hl hblocked
          have := hs.covered hhides d k l hl hblocked
          simpa [hs0def] using this
      have hwatch0 : Watchful ∅ s s0 :=
        ⟨rfl, fun _ => rfl, fun _ h => h, fun _ h => Or.inl h, prefix_refl _, fun _ _ _ => Or.inl rfl,
          fun _ _ _ h => by cases h⟩
      obtain ⟨s1, hkeys, hs1, hwatch1, hempty1, hprogress, hsteps1⟩ := serveKeys_spec s.readyKeys hs0
      have hfuel1 : s1.blockedClients < fuel ∨ s1.readyKeys = [] := by
        have hle := hprogress.1
        change s1.blockedClients ≤ s.blockedClients at hle
        by_cases heq : s1.blockedClients = s.blockedClients
        · exact Or.inr (hprogress.2 heq)
        · have := hfuel.resolve_right hnil
          exact Or.inl (by omega)
      obtain ⟨s2, hloop, hs2, hready2, hwatch2, hempty2, hsteps2⟩ := ih hs1 hfuel1
      refine ⟨s2, ?_, hs2, hready2, ?_, fun h => hempty2 (hempty1 h), .head (.tables rfl) (hsteps1.trans hsteps2)⟩
      · rw [hkeys]
        exact hloop
      -- a key that became ready in this round was signalled in this round
      · have hround : Watchful {p | p ∈ s.readyKeys} s s1 := (hwatch0.trans hwatch1).mono (by simp)
        refine (hround.trans hwatch2).told fun d k hmem hnot => ?_
        rcases hmem with hmem | hmem
        · exact absurd hmem hnot
        · rcases hwatch1.ready d k hnot hmem with hold | hexcused
          · cases hold
          · exact (hexcused.trans_right hwatch0.watchedKeys hwatch0.own hwatch0.history).trans_left hwatch2.dirtyCas
              hwatch2.history

theorem handle_of_nil (h : s.readyKeys = []) : handleClientsBlockedOnKeys s = some s := by
  unfold handleClientsBlockedOnKeys handleLoop
  rw [if_pos h]

theorem handleClientsBlockedOnKeys_spec (hs : Serving [] [] s) :
    ∃ s', handleClientsBlockedOnKeys s = some s' ∧ Serving [] [] s' ∧ s'.readyKeys = [] ∧
      Watchful {p | p ∈ s.readyKeys} s s' ∧ (NoEmptyBut ∅ s → NoEmptyBut ∅ s') ∧ ServeSteps s s' :=
  handleLoop_spec _ hs (Or.inl (Nat.lt_succ_self _))

end RedisIR.Clients
