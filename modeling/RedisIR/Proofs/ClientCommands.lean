import RedisIR.Proofs.Clients

/-! Every command that does not block leaves no change behind of which the clients that watch the
key were not told, `MOVE` and `SWAPDB` apart, and no list of which those that are blocked on it
were not told, apart from one that `SORT` stores over a value of another type. -/

namespace RedisIR.Clients

open CLib Server Keyspace List Function

variable {n : ℕ} {s s' s'' : Server n} {c : ClientId} {d d' : DbId n} {k k' key : Key} {val : Value}
  {T T' : Set (DbId n × Key)}
variable {l : List Bytes}

theorem changes_store_same (h : s.lookupKey d k = some val) : Changes ∅ s (s.store d k val) :=
  changes_of_keys rfl (prefix_refl _) ((lookupKey_store s d k val).trans (set_eq_self h))

theorem changes_setKey (d : DbId n) (k : Key) (val : Value) (s : Server n) : Changes ∅ s (setKey d k val s) := by
  unfold setKey
  cases h : s.lookupKey d k with
  | none => exact (changes_dbAdd d k val s).signalled
  | some old => exact (changes_dbOverwrite h val).signalled

/-! ### Lists -/

theorem dbAdd_same (d : DbId n) (k : Key) (val : Value) (s : Server n) : dbAdd d k val s =
    { s.store d k val with
      readyKeys := (dbAdd d k val s).readyKeys, dbReadyKeys := (dbAdd d k val s).dbReadyKeys } := by
  unfold dbAdd
  split
  · exact signalKeyAsReady_same d k _
  · exact signalKeyAsReady_same d k _
  · rfl

@[simp] theorem lookupKey_dbAdd (d : DbId n) (k : Key) (val : Value) (s : Server n) :
    (dbAdd d k val s).lookupKey = Keyspace.set s.lookupKey d k (some val) := by
  rw [dbAdd_same]
  exact lookupKey_store s d k val

theorem db_dbAdd (d : DbId n) (k : Key) (val : Value) (s : Server n) (c : ClientId) :
    ((dbAdd d k val s).clients c).db = (s.clients c).db := (changes_dbAdd d k val s).quiet.db c

theorem Changes.pushValues (h : Changes T s s') (hT : T ⊆ {((s'.clients c).db, key)})
    (hl : s'.lookupKey (s'.clients c).db key = some (.list l)) (side : Side) (v : Bytes) (vs : List Bytes) :
    Changes ∅ s (pushValues c side key (v :: vs) l s') := by
  have hstore :=
    h.trans (changes_store s' (s'.clients c).db key (.list (pushAll side l (v :: vs))) fun _ _ => ⟨l, hl⟩)
  have hreply := (hstore.mono (Set.union_subset hT subset_rfl)).andThen
    (changes_addReply (c := c) (r := .longLong (l.length + (v :: vs).length)))
  exact (hreply.signalled.andThen changes_addDirty).andThen changes_record

theorem changes_pushValues (hl : s.lookupKey (s.clients c).db key = some (.list l)) (side : Side)
    (values : List Bytes) : Changes ∅ s (pushValues c side key values l s) := by
  cases values with
  | nil => exact (changes_store_same hl).andThen changes_addReply
  | cons v vs => exact (Changes.refl s).pushValues (by simp) hl side v vs

section

variable (c : ClientId) (side : Side) (key : Key) (values : List Bytes)

theorem changes_pushGenericCommand (s : Server n) : Changes ∅ s (pushGenericCommand c side key values s) := by
  unfold pushGenericCommand
  dsimp only
  split
  · next l _ hl => exact changes_pushValues hl side _
  · exact changes_addReply
  · exact changes_addReply
  · next v vs _ =>
    refine (changes_dbAdd _ key (.list []) s).pushValues ?_ ?_ side v vs
    · rw [db_dbAdd]
    · rw [db_dbAdd, lookupKey_dbAdd, set_self]

theorem changes_pushxGenericCommand (s : Server n) : Changes ∅ s (pushxGenericCommand c side key values s) := by
  unfold pushxGenericCommand
  split
  · exact changes_addReply
  · next l hl => exact changes_pushValues hl side values
  · exact changes_addReply

theorem changes_storeRest (hl : s.lookupKey d k = some (.list l)) (l' : List Bytes) :
    Changes {(d, k)} s (storeRest d k l' s) := by
  cases l' with
  | nil => exact changes_dbDelete s d k
  | cons x l' => exact changes_store s d k _ fun _ _ => ⟨l, hl⟩

theorem changes_popped (hl : s.lookupKey d k = some (.list l)) (l' : List Bytes) (c : ClientId) (r : Reply)
    (e : Event n) :
    Changes ∅ s (((signalModifiedKey d k (storeRest d k l' (s.addReply c r))).addDirty 1).record e) := by
  have hl' : (s.addReply c r).lookupKey d k = some (.list l) := hl
  have hrest := ((changes_addReply (s := s) (c := c) (r := r)).trans (changes_storeRest hl' l')).mono
    (Set.empty_union _).subset
  exact (hrest.signalled.andThen changes_addDirty).andThen changes_record

theorem changes_popGenericCommand (s : Server n) : Changes ∅ s (popGenericCommand c side key s) := by
  unfold popGenericCommand
  dsimp only
  split
  · exact changes_addReply
  · next l hl =>
    split
    · exact changes_addReply
    · exact changes_popped hl _ _ _ _
  · exact changes_addReply

end

/-- `rpoplpushHandlePush` signals the destination before it changes it. -/
theorem Changes.rpoplpushHandlePush (h : Changes T s s') (dst : Key) (dstobj : Option (List Bytes))
    (hdst : ∀ l, dstobj = some l → ∃ l', s'.lookupKey (s'.clients c).db dst = some (.list l')) (value : Bytes) :
    Changes T s (rpoplpushHandlePush c dst dstobj value s') := by
  unfold Clients.rpoplpushHandlePush
  dsimp only
  refine Changes.andThen (Changes.store_excused ?_ ?_ _ ?_) changes_addReply
  · cases dstobj with
    | none =>
      refine ((h.trans (changes_dbAdd _ dst (.list []) s')).signal (s'.clients c).db dst).mono ?_
      rw [Set.union_sdiff_right]
      exact Set.sdiff_subset
    | some l => exact h.andThen (changes_signalModifiedKey _ _ _)
  · cases dstobj with
    | none => exact excused_signalModifiedKey (h.trans (changes_dbAdd _ dst (.list []) s')).watchful _ _
    | some l => exact excused_signalModifiedKey h.watchful _ _
  · intro _ _
    rw [signalModifiedKey_eq]
    cases dstobj with
    | none => exact ⟨[], (congrFun₂ (lookupKey_dbAdd _ dst (.list []) s') _ _).trans (set_self ..)⟩
    | some l => exact hdst l rfl

theorem Changes.rpopFinish (h : Changes T s s') {src : Key} (hT : T ⊆ {((s'.clients c).db, src)}) :
    Changes ∅ s (rpopFinish c src s') := by
  unfold Clients.rpopFinish
  dsimp only
  refine Changes.andThen (Changes.signalled ?_) changes_addDirty
  split
  · exact (h.trans (changes_dbDelete s' _ src)).mono (by simpa using hT)
  · exact h.mono hT

theorem changes_rpoplpushCommand (c : ClientId) (src dst : Key) (s : Server n) :
    Changes ∅ s (rpoplpushCommand c src dst s) := by
  unfold rpoplpushCommand
  dsimp only
  split
  · exact changes_addReply
  · next l hl =>
    split
    · exact changes_addReply
    · next value l' _ =>
      have hstore := changes_store s (s.clients c).db src (.list l') fun _ _ => ⟨l, hl⟩
      split
      · next hdst =>
        have hpush := hstore.rpoplpushHandlePush (c := c) dst none (fun l h => by cases h) value
        refine hpush.rpopFinish ?_
        rw [hpush.quiet.db c]
      · next m hdst =>
        have hlist :
          ∃ l'', (s.store (s.clients c).db src (.list l')).lookupKey (s.clients c).db dst = some (.list l'') := by
          rw [lookupKey_store]
          by_cases hk : ((s.clients c).db, dst) = ((s.clients c).db, src)
          · obtain ⟨-, rfl⟩ := Prod.mk.inj hk
            exact ⟨l', set_self ..⟩
          · exact ⟨m, (set_of_ne _ _ hk).trans hdst⟩
        have hpush := hstore.rpoplpushHandlePush (c := c) dst (some (if dst = src then l' else m))
          (fun _ _ => hlist) value
        refine hpush.rpopFinish ?_
        rw [hpush.quiet.db c]
      · exact changes_addReply
  · exact changes_addReply

theorem changes_bpopLoop (c : ClientId) (side : Side) (keys : List Key) (s : Server n) :
    ∀ r, bpopLoop c side keys s = some r → Changes ∅ s r.1 := by
  induction keys with
  | nil =>
    intro r hr
    cases hr
  | cons key keys ih =>
    intro r hr
    unfold bpopLoop at hr
    dsimp only at hr
    split at hr
    · exact ih r hr
    · next l hl =>
      split at hr
      · exact ih r hr
      · cases hr
        exact changes_popped hl _ _ _ _
    · cases hr
      exact changes_addReply

/-! ### Strings and sets -/

theorem changes_setGenericCommand (c : ClientId) (flag : SetFlag) (key : Key) (value : Bytes) (s : Server n) :
    Changes ∅ s (setGenericCommand c flag key value s) := by
  unfold setGenericCommand
  dsimp only
  split
  · exact changes_addReply
  · exact changes_addReply
  · exact (changes_setKey _ _ _ s).counted

theorem changes_appendCommand (c : ClientId) (key : Key) (value : Bytes) (s : Server n) :
    Changes ∅ s (appendCommand c key value s) := by
  unfold appendCommand
  dsimp only
  split
  · exact (changes_dbAdd _ _ _ s).signalled.counted
  · split
    · refine (Changes.signalled (changes_store s _ _ _ ?_)).counted
      intro l hl
      cases hl
    · exact changes_addReply
  · exact changes_addReply

theorem addMembers_zero {set members : List Bytes} (h : (addMembers set members).2 = 0) :
    (addMembers set members).1 = set := by
  induction members generalizing set with
  | nil => rfl
  | cons m ms ih =>
    simp only [addMembers] at h ⊢
    have hold : (setTypeAdd m set).1 = set := by
      unfold setTypeAdd at h ⊢
      split
      · rfl
      · next hnone => simp [hnone] at h
    rw [hold] at h ⊢
    exact ih (Nat.eq_zero_of_add_eq_zero_right h)

theorem addMembers_ne_zero (m : Bytes) (ms : List Bytes) : (addMembers [] (m :: ms)).2 ≠ 0 := by
  simp [addMembers, setTypeAdd, listDelNode]

theorem Changes.saddMembers (h : Changes T s s') (hT : T ⊆ {((s'.clients c).db, key)}) {set members : List Bytes}
    (hset : (addMembers set members).2 = 0 → T = ∅ ∧ s'.lookupKey (s'.clients c).db key = some (.set set)) :
    Changes ∅ s (saddMembers c key set members s') := by
  unfold Clients.saddMembers
  dsimp only
  refine Changes.counted ?_
  split
  · next hzero =>
    obtain ⟨rfl, hl⟩ := hset hzero
    rw [addMembers_zero hzero]
    exact h.andThen (changes_store_same hl)
  · refine Changes.signalled ((h.trans (changes_store s' _ key _ ?_)).mono (by simpa using hT))
    intro l hl
    cases hl

section

variable (order : IterOrder) (c : ClientId) (key : Key)

theorem changes_saddCommand (member : Bytes) (members : List Bytes) (s : Server n) :
    Changes ∅ s (saddCommand c key member members s) := by
  unfold saddCommand
  dsimp only
  split
  · refine (changes_dbAdd _ key (.set []) s).saddMembers ?_ ?_
    · rw [db_dbAdd]
    · exact fun hzero => absurd hzero (addMembers_ne_zero member members)
  · next set hset => exact (Changes.refl s).saddMembers (by simp) fun _ => ⟨rfl, hset⟩
  · exact changes_addReply

theorem changes_sremCommand (members : List Bytes) (s : Server n) : Changes ∅ s (sremCommand c key members s) := by
  unfold sremCommand
  dsimp only
  split
  · exact changes_addReply
  · refine Changes.counted ?_
    split
    · exact Changes.refl s
    · split
      · exact (changes_dbDelete s _ _).signalled
      · refine Changes.signalled (changes_store s _ _ _ ?_)
        intro l hl
        cases hl
  · exact changes_addReply

/-! ### Keys of any type -/

theorem changes_delLoop (d : DbId n) (keys : List Key) (numdel : ℕ) (s : Server n) :
    Changes ∅ s (delLoop d keys numdel s).1 := by
  induction keys generalizing numdel s with
  | nil => exact Changes.refl s
  | cons key keys ih =>
    unfold delLoop
    split
    · exact ih numdel s
    · next val _ =>
      exact (((changes_dbDelete s d key).signalled.andThen changes_addDirty).andThen changes_record).andThen (ih _ _)

theorem changes_delGenericCommand (keys : List Key) (s : Server n) : Changes ∅ s (delGenericCommand c keys s) :=
  (changes_delLoop _ keys 0 s).andThen changes_addReply

theorem Changes.renameKey (h : Changes T s s') {src dst : Key} (hT : T ⊆ {(d, dst)}) (val : Value) :
    Changes ∅ s (renameKey d src dst val s') := by
  have hmoved := ((h.trans (changes_dbAdd d dst val s')).trans (changes_dbDelete _ d src)).signal d src |>.signal d dst
  refine Changes.andThen (hmoved.mono ?_) changes_addDirty
  intro p hp
  simp only [Set.mem_sdiff, Set.mem_union, Set.mem_singleton_iff] at hp
  rcases hp with ⟨⟨(hp | hp) | hp, hsrc⟩, hdst⟩
  · exact hdst (hT hp)
  · exact hdst hp
  · exact hsrc hp

theorem changes_renameGenericCommand (nx : Bool) (src dst : Key) (s : Server n) :
    Changes ∅ s (renameGenericCommand c nx src dst s) := by
  unfold renameGenericCommand
  dsimp only
  split
  · exact changes_addReply
  · next val _ =>
    split_ifs with hsame
    · exact changes_addReply
    · exact changes_addReply
    · split
      · exact ((Changes.refl s).renameKey (by simp) val).andThen changes_addReply
      · exact changes_addReply
    · split
      · exact ((Changes.refl s).renameKey (by simp) val).andThen changes_addReply
      · exact ((changes_dbDelete s _ dst).renameKey (by simp) val).andThen changes_addReply

theorem changes_moveCommand (dbid : ℤ) (s : Server n) : Changes ∅ s (moveCommand c key dbid s) := by
  unfold moveCommand
  dsimp only
  split
  · exact changes_addReply
  · next dst _ =>
    split_ifs
    · exact changes_addReply
    · split
      · exact changes_addReply
      · exact changes_addReply
      · next val _ _ =>
        have hmoved := (changes_dbAdd dst key val s).trans (changes_dbDelete _ (s.clients c).db key)
        have hall := (hmoved.counted (c := c) (i := 1) (r := .cone)).andThen
          (changes_record (e := .moved key (s.clients c).db dst))
        -- nobody is told, but the move is on record
        refine hall.told fun d' k' hT _ => Or.inr ?_
        have hhistory : (dbAdd dst key val s).history = s.history := by
          rw [dbAdd_same]
          rfl
        refine ⟨[.moved key (s.clients c).db dst], ?_, _, mem_singleton_self _, ?_⟩
        · exact congrArg (· ++ [Event.moved key (s.clients c).db dst]) hhistory
        · rcases hT with hT | hT
          · obtain ⟨rfl, rfl⟩ := Prod.mk.inj hT
            exact ⟨rfl, Or.inr rfl⟩
          · obtain ⟨rfl, rfl⟩ := Prod.mk.inj hT
            exact ⟨rfl, Or.inl rfl⟩

theorem changes_sortCommand (options : Dict → Value → Option (List Bytes)) (storekey : Key)
    (s : Server n) : Changes ∅ s (sortCommand c key options storekey s) := by
  unfold sortCommand
  dsimp only
  split
  · exact changes_addReply
  · split
    · exact changes_addReply
    · split
      · exact changes_addReply
      · exact (changes_dbDelete s _ storekey).signalled.counted
    · exact (changes_setKey _ _ _ s).counted

/-! ### `SWAPDB` -/

structure Scanned (d : DbId n) (s s' : Server n) : Prop where
  same : s' = { s with readyKeys := s'.readyKeys, dbReadyKeys := s'.dbReadyKeys }
  grows : ∀ p ∈ s.readyKeys, p ∈ s'.readyKeys
  only : ∀ p ∈ s'.readyKeys, p ∈ s.readyKeys ∨ p.1 = d ∧ (s.blockingKeys p.1).lookup p.2 ≠ none
  tables : ∀ P, ReadyTables P s → ReadyTables P s'

theorem scanned_signalKeyAsReady (d : DbId n) (k : Key) (s : Server n) : Scanned d s (signalKeyAsReady d k s) where
  same := signalKeyAsReady_same d k s
  grows := readyKeys_subset_signalKeyAsReady d k s
  only p hp := (readyKeys_signalKeyAsReady d k s p hp).imp id fun h => ⟨by rw [h.1], h.2⟩
  tables _ h := readyTables_signalKeyAsReady h d k

theorem Scanned.trans (h : Scanned d s s') (h' : Scanned d s' s'') : Scanned d s s'' where
  same := by rw [h'.same, h.same]
  grows p hp := h'.grows p (h.grows p hp)
  only p hp := by
    rcases h'.only p hp with hp' | hp'
    · exact h.only p hp'
    · rw [h.same] at hp'
      exact Or.inr hp'
  tables P ht := h'.tables P (h.tables P ht)

theorem Scanned.lookupKey (h : Scanned d s s') : s'.lookupKey = s.lookupKey := by
  rw [h.same]
  rfl

/-- The fold of `scanDatabaseForReadyLists`: all lists that it meets are ready in the end. -/
theorem scan_foldl (d : DbId n) (keys : List Key) (s : Server n) :
    let s' := keys.foldl
      (fun s key => if ((s.lookupKey d key).map Value.wakes).getD false then signalKeyAsReady d key s else s) s
    Scanned d s s' ∧ ∀ P, ReadyTables P s → ∀ k ∈ keys, ∀ l, s.lookupKey d k = some (.list l) →
        (s.blockingKeys d).lookup k ≠ none → (d, k) ∈ P ++ s'.readyKeys := by
  induction keys generalizing s with
  | nil => exact ⟨⟨rfl, fun _ h => h, fun _ h => Or.inl h, fun _ h => h⟩, fun _ _ k hk => by cases hk⟩
  | cons key keys ih =>
    dsimp only [foldl_cons] at ih ⊢
    split_ifs with hwakes
    · have hsignal := scanned_signalKeyAsReady d key s
      obtain ⟨hscan, hready⟩ := ih (signalKeyAsReady d key s)
      refine ⟨hsignal.trans hscan, ?_⟩
      intro P htables k hk l hl hblocked
      rcases mem_cons.mp hk with rfl | hk
      · exact mem_pending (fun _ h => h) hscan.grows (mem_readyKeys_signalKeyAsReady htables hblocked)
      · refine hready P (hsignal.tables P htables) k hk l ?_ ?_
        · rw [hsignal.lookupKey]
          exact hl
        · rw [hsignal.same]
          exact hblocked
    · obtain ⟨hscan, hready⟩ := ih s
      refine ⟨hscan, ?_⟩
      intro P htables k hk l hl hblocked
      rcases mem_cons.mp hk with rfl | hk
      · simp [hl, Value.wakes] at hwakes
      · exact hready P htables k hk l hl hblocked

theorem scanDatabaseForReadyLists_spec (d : DbId n) (s : Server n) :
    Scanned d s (scanDatabaseForReadyLists order d s) ∧
      ∀ P, ReadyTables P s → ∀ k l, s.lookupKey d k = some (.list l) → (s.blockingKeys d).lookup k ≠ none →
        (d, k) ∈ P ++ (scanDatabaseForReadyLists order d s).readyKeys := by
  obtain ⟨hscan, hready⟩ := scan_foldl d (order.val (s.blockingKeys d).keys) s
  refine ⟨hscan, fun P htables k l hl hblocked => hready P htables k ?_ l hl hblocked⟩
  rw [(order.property _).mem_iff, ← AList.mem_keys, ← AList.lookup_isSome, Option.isSome_iff_ne_none]
  exact hblocked

theorem changes_dbSwapDatabases (id1 id2 : ℤ) (s : Server n) : Changes ∅ s (dbSwapDatabases order id1 id2 s).1 := by
  unfold dbSwapDatabases
  split
  · next d1 d2 _ _ =>
    split_ifs
    · exact Changes.refl s
    · dsimp only
      obtain ⟨hscan1, hready1⟩ := scanDatabaseForReadyLists_spec order d1
        (({ s with dict := update (update s.dict d1 (s.dict d2)) d2 (s.dict d1) } : Server n).record
          (.swapped d1 d2))
      set s1 := ({ s with dict := update (update s.dict d1 (s.dict d2)) d2 (s.dict d1) } : Server n).record
        (.swapped d1 d2) with hs1
      set s2 := scanDatabaseForReadyLists order d1 s1 with hs2
      obtain ⟨hscan2, hready2⟩ := scanDatabaseForReadyLists_spec order d2 s2
      set s3 := scanDatabaseForReadyLists order d2 s2
      have hsame : s3 = { s1 with readyKeys := s3.readyKeys, dbReadyKeys := s3.dbReadyKeys } := by
        rw [hscan2.same, hscan1.same]
      have hlookup : s3.lookupKey = s1.lookupKey := by rw [hscan2.lookupKey, hscan1.lookupKey]
      have hother : ∀ d k, d ≠ d1 → d ≠ d2 → s1.lookupKey d k = s.lookupKey d k := by
        intro d k h1 h2
        simp [hs1, Server.lookupKey, record, update_of_ne h1, update_of_ne h2]
      have hexcused : ∀ d k, d = d1 ∨ d = d2 → Excused s s3 d k := by
        intro d k hd
        refine Or.inr ⟨[.swapped d1 d2], by rw [hsame]; rfl, _, mem_singleton_self _, ?_⟩
        exact hd.imp Eq.symm Eq.symm
      refine ⟨⟨by rw [hsame]; rfl, fun c => by rw [hsame]; rfl, fun c hc => by rw [hsame]; exact hc,
        fun c hc => Or.inl (by rw [hsame] at hc; exact hc), by rw [hsame]; exact prefix_append _ _, ?_, ?_⟩,
          ⟨by rw [hsame]; rfl, fun c => by rw [hsame]; rfl,
        by rw [hsame]; rfl, by rw [hsame]; exact prefix_append _ _,
        ?_, fun P ht => hscan2.tables P (hscan1.tables P ht), ?_⟩⟩
      · intro d k _
        by_cases hd : d = d1 ∨ d = d2
        · exact Or.inr (hexcused d k hd)
        · rw [not_or] at hd
          exact Or.inl (by rw [hlookup, hother d k hd.1 hd.2])
      · intro d k _ hready
        by_cases hd : d = d1 ∨ d = d2
        · exact Or.inr (hexcused d k hd)
        · rw [not_or] at hd
          rcases hscan2.only _ hready with h | h
          · rcases hscan1.only _ h with h | h
            · exact Or.inl h
            · exact absurd h.1 hd.1
          · exact absurd h.1 hd.2
      · intro p hp
        rcases hscan2.only p hp with hp | hp
        · exact (hscan1.only p hp).imp id And.right
        · rw [hscan1.same] at hp
          exact Or.inr hp.2
      · intro P Q hPQ htables hcovered _ d k l hl hblocked
        rw [hlookup] at hl
        have hblocked1 : (s1.blockingKeys d).lookup k ≠ none := by
          rw [hsame] at hblocked
          exact hblocked
        have htables1 : ReadyTables P s1 := htables
        by_cases h1 : d = d1
        · subst h1
          exact mem_pending hPQ hscan2.grows (hready1 P htables1 k l hl hblocked1)
        · by_cases h2 : d = d2
          · subst h2
            refine mem_pending hPQ (fun _ h => h) (hready2 P (hscan1.tables P htables1) k l ?_ ?_)
            · rw [hscan1.lookupKey]
              exact hl
            · rw [hscan1.same]
              exact hblocked1
          · rw [hother d k h1 h2] at hl
            exact mem_pending (fun _ h => h) (fun p hp => hscan2.grows p (hscan1.grows p hp))
              (hcovered d k l hl hblocked1)
  · exact Changes.refl s

theorem changes_swapdbCommand (id1 id2 : ℤ) (s : Server n) : Changes ∅ s (swapdbCommand order c id1 id2 s) := by
  unfold swapdbCommand
  dsimp only
  have h := changes_dbSwapDatabases order id1 id2 s
  split_ifs
  · exact h.counted
  · exact h.andThen changes_addReply

/-! ### `FLUSHDB` and `FLUSHALL` -/

theorem changes_flush (dbid : Option (DbId n)) (s : Server n) :
    Changes ∅ s (emptyDb dbid (touchWatchedKeysOnFlush dbid s)) := by
  refine ⟨⟨rfl, fun c => ?_, fun c hc => ?_, fun c hc => ?_, prefix_refl _, ?_, fun _ _ _ h => Or.inl h⟩,
    ⟨rfl, fun c => ?_, rfl, prefix_refl _, fun _ h => Or.inl h, fun _ h => h, ?_⟩⟩
  · dsimp only [emptyDb, touchWatchedKeysOnFlush]
    split <;> rfl
  · dsimp only [emptyDb, touchWatchedKeysOnFlush]
    split
    · rfl
    · exact hc
  · dsimp only [emptyDb, touchWatchedKeysOnFlush] at hc
    split at hc
    · next hany =>
      obtain ⟨wk, hwk, -⟩ := any_eq_true.mp hany
      exact Or.inr ⟨wk.1, wk.2, Or.inr hwk⟩
    · exact Or.inl hc
  · intro d k _
    cases hflush : Flushes dbid d with
    | false => exact Or.inl (by simp [emptyDb, touchWatchedKeysOnFlush, Server.lookupKey, hflush])
    | true =>
      cases hk : s.lookupKey d k with
      | none => exact Or.inl (by simp [emptyDb, Server.lookupKey, hflush])
      | some val =>
        -- the key was there, so the clients that have it in their list were flagged
        refine Or.inr (Or.inl fun c hc => ?_)
        have hany : ((s.clients c).watchedKeys.any fun wk =>
            Flushes dbid wk.1 && (s.lookupKey wk.1 wk.2).isSome) = true :=
          any_eq_true.mpr ⟨(d, k), hc.2, by simp [hflush, hk]⟩
        dsimp only [emptyDb, touchWatchedKeysOnFlush]
        rw [if_pos hany]
  · dsimp only [emptyDb, touchWatchedKeysOnFlush]
    split <;> rfl
  · intro _ _ _ _ hcovered _ d k l hl hblocked
    cases hflush : Flushes dbid d with
    | false =>
      refine hcovered d k l ?_ hblocked
      simpa [emptyDb, touchWatchedKeysOnFlush, Server.lookupKey, hflush] using hl
    | true => simp [emptyDb, Server.lookupKey, hflush] at hl

theorem changes_flushdbCommand (s : Server n) : Changes ∅ s (flushdbCommand c s) :=
  (changes_flush _ s).counted

theorem changes_flushallCommand (s : Server n) : Changes ∅ s (flushallCommand c s) :=
  (changes_flush none s).counted

end

end RedisIR.Clients
