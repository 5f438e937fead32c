import RedisIR.Proofs.Serving
import RedisIR.Spec.Keyspace

/-! The keys of all databases as a function, and what the commands make of it. No command leaves an
empty list behind. -/

namespace RedisIR.Clients

open CLib Server Function

variable {n : ℕ} {s s' s'' : Server n} {c : ClientId} {d d' : DbId n} {k k' key : Key} {val : Value}

namespace Keyspace

variable {K : Keyspace n}

def NoEmpty (K : Keyspace n) : Prop := ∀ d k, K d k ≠ some (.list [])

theorem NoEmpty.set {o : Option Value} (h : NoEmpty K) (ho : o ≠ some (.list [])) : NoEmpty (K.set d k o) :=
  fun d' k' => set_ne (h d' k') ho

end Keyspace

open Keyspace

@[simp] theorem lookupKey_setKey (d : DbId n) (k : Key) (val : Value) (s : Server n) :
    (setKey d k val s).lookupKey = Keyspace.set s.lookupKey d k (some val) := by
  unfold setKey
  split
  · simp
  · simp [dbOverwrite]

/-- `SET` does to the client's database what it does to a database of strings, whatever `f` makes
of the other values. -/
theorem setGenericCommand_strings {f : Value → Bytes} (hf : ∀ b, f (.string b) = b) (c : ClientId) (flag : SetFlag)
    (key : Key) (value : Bytes) (cmd : Cmd) (s : Server n) :
    (fun k => ((setGenericCommand c flag key value s).lookupKey (s.clients c).db k).map f) =
      (RedisIR.setGenericCommand (flag = .nx) (flag = .xx) key value cmd fun k =>
        (s.lookupKey (s.clients c).db k).map f).db := by
  have hset : ∀ k, (Keyspace.set s.lookupKey (s.clients c).db key (some (.string value)) (s.clients c).db k).map f =
      RedisIR.setKey (fun k => (s.lookupKey (s.clients c).db k).map f) key value k := by
    intro k
    by_cases hk : k = key <;> simp [Keyspace.set, RedisIR.setKey, hk, hf]
  funext k
  unfold setGenericCommand RedisIR.setGenericCommand
  cases flag <;> cases hl : s.lookupKey (s.clients c).db key <;> simp [hl, hset]

/-! ### Lists -/

def listKey : List Bytes → Option Value
  | [] => none
  | x :: l => some (.list (x :: l))

theorem listKey_ne (l : List Bytes) : listKey l ≠ some (.list []) := by
  cases l <;> simp [listKey]

section

variable (s : Server n) (c : ClientId) (side : Side) (d : DbId n) (key : Key)

theorem pushAll_ne_nil (l : List Bytes) {values : List Bytes} (h : l ≠ [] ∨ values ≠ []) :
    pushAll side l values ≠ [] := by
  induction values generalizing l with
  | nil => simpa [pushAll] using h
  | cons v vs ih =>
    refine ih _ (Or.inl ?_)
    cases side <;> simp [listTypePush]

@[simp] theorem lookupKey_pushValues (values l : List Bytes) (s : Server n) :
    (pushValues c side key values l s).lookupKey =
      Keyspace.set s.lookupKey (s.clients c).db key (some (.list (pushAll side l values))) := by
  unfold pushValues
  cases values <;> simp

@[simp] theorem lookupKey_storeRest (l : List Bytes) (s : Server n) :
    (storeRest d key l s).lookupKey = Keyspace.set s.lookupKey d key (listKey l) := by
  cases l <;> simp [storeRest, listKey]

end

def pushEffect (d : DbId n) (side : Side) (key : Key) (values : List Bytes) (K : Keyspace n) : Keyspace n :=
  match K d key, values with
  | some (.list l), _ => K.set d key (some (.list (pushAll side l values)))
  | some _, _ => K
  | none, [] => K
  | none, _ :: _ => K.set d key (some (.list (pushAll side [] values)))

def pushxEffect (d : DbId n) (side : Side) (key : Key) (values : List Bytes) (K : Keyspace n) : Keyspace n :=
  match K d key with
  | some (.list l) => K.set d key (some (.list (pushAll side l values)))
  | _ => K

def popEffect (d : DbId n) (side : Side) (key : Key) (K : Keyspace n) : Keyspace n :=
  match K d key with
  | some (.list l) =>
    match listTypePop side l with
    | none => K
    | some (_, l') => K.set d key (listKey l')
  | _ => K

/-- The source has lost its element when the destination is looked up. -/
def rpoplpushEffect (d : DbId n) (src dst : Key) (K : Keyspace n) : Keyspace n :=
  match K d src with
  | some (.list l) =>
    match listTypePop .tail l with
    | none => K
    | some (value, l') =>
      match K d dst with
      | none | some (.list _) => pushEffect d .head dst [value] (K.set d src (listKey l'))
      | some _ => K
  | _ => K

def delEffect (d : DbId n) (keys : List Key) (K : Keyspace n) : Keyspace n :=
  keys.foldl (fun K key => K.set d key none) K

section

variable (c : ClientId) (side : Side) (src dst key : Key) (values : List Bytes) (s : Server n)

theorem lookupKey_pushGenericCommand :
    (pushGenericCommand c side key values s).lookupKey = pushEffect (s.clients c).db side key values s.lookupKey := by
  cases hl : s.lookupKey (s.clients c).db key with
  | none => cases values <;> simp [pushGenericCommand, pushEffect, hl, db_dbAdd]
  | some v => cases v <;> simp [pushGenericCommand, pushEffect, hl]

theorem lookupKey_pushxGenericCommand :
    (pushxGenericCommand c side key values s).lookupKey = pushxEffect (s.clients c).db side key values s.lookupKey := by
  cases hl : s.lookupKey (s.clients c).db key with
  | none => simp [pushxGenericCommand, pushxEffect, hl]
  | some v => cases v <;> simp [pushxGenericCommand, pushxEffect, hl]

theorem lookupKey_popGenericCommand :
    (popGenericCommand c side key s).lookupKey = popEffect (s.clients c).db side key s.lookupKey := by
  cases hl : s.lookupKey (s.clients c).db key with
  | none => simp [popGenericCommand, popEffect, hl]
  | some v =>
    cases v with
    | list l => cases hpop : listTypePop side l <;> simp [popGenericCommand, popEffect, hl, hpop]
    | _ => simp [popGenericCommand, popEffect, hl]

theorem db_rpoplpushHandlePush {dstobj : Option (List Bytes)} (value : Bytes) {s : Server n}
    (hdst : ∀ l, dstobj = some l → ∃ l', s.lookupKey (s.clients c).db dst = some (.list l')) :
    ((rpoplpushHandlePush c dst dstobj value s).clients c).db = (s.clients c).db :=
  ((Changes.refl s).rpoplpushHandlePush dst dstobj hdst value).quiet.db c

def dropEmpty (d : DbId n) (k : Key) (K : Keyspace n) : Keyspace n :=
  if K d k = some (.list []) then K.set d k none else K

theorem lookupKey_rpopFinish : (rpopFinish c src s).lookupKey = dropEmpty (s.clients c).db src s.lookupKey := by
  cases hl : s.lookupKey (s.clients c).db src with
  | none => simp [rpopFinish, dropEmpty, hl]
  | some v =>
    cases v with
    | list l => cases l <;> simp [rpopFinish, dropEmpty, hl]
    | _ => simp [rpopFinish, dropEmpty, hl]

/-- The source is emptied and deleted at the end of the command, or before the push. -/
theorem dropEmpty_rpoplpush (K : Keyspace n) (d : DbId n) (src dst : Key) (value : Bytes) (l' m : List Bytes) :
    dropEmpty d src
      ((K.set d src (some (.list l'))).set d dst (some (.list (value :: (if dst = src then l' else m))))) =
      (K.set d src (listKey l')).set d dst (some (.list (value :: (if dst = src then l' else m)))) := by
  unfold dropEmpty
  by_cases hk : dst = src
  · subst hk
    simp
  · have hne : (d, src) ≠ (d, dst) := fun h => hk (Prod.mk.inj h).2.symm
    rw [set_of_ne _ _ hne, set_self]
    cases l' with
    | nil => rw [if_pos rfl, set_comm _ _ _ hne.symm, set_set, listKey, set_comm _ _ _ hne]
    | cons x l' => rw [if_neg (by simp), listKey]

theorem lookupKey_rpoplpushCommand :
    (rpoplpushCommand c src dst s).lookupKey = rpoplpushEffect (s.clients c).db src dst s.lookupKey := by
  unfold rpoplpushCommand rpoplpushEffect
  dsimp only
  cases hl : s.lookupKey (s.clients c).db src with
  | none => rfl
  | some v =>
    cases v with
    | list l =>
      dsimp only
      cases hpop : listTypePop .tail l with
      | none => rfl
      | some p =>
        obtain ⟨value, l'⟩ := p
        have hfinish (m : List Bytes) := dropEmpty_rpoplpush s.lookupKey (s.clients c).db src dst value l' m
        dsimp only
        cases hdst : s.lookupKey (s.clients c).db dst with
        | none =>
          have hne : dst ≠ src := fun h => by
            rw [h, hl] at hdst
            cases hdst
          have hdb : ((rpoplpushHandlePush c dst none value (s.store (s.clients c).db src (.list l'))).clients c).db =
              (s.clients c).db := db_rpoplpushHandlePush c dst value fun l h => by cases h
          have hrest : Keyspace.set s.lookupKey (s.clients c).db src (listKey l') (s.clients c).db dst = none := by
            rw [set_of_ne _ _ fun h => hne (Prod.mk.inj h).2]
            exact hdst
          dsimp only
          rw [lookupKey_rpopFinish, hdb, lookupKey_rpoplpushHandlePush, lookupKey_store]
          have := hfinish []
          simp only [hne, if_false] at this
          refine this.trans ?_
          simp [pushEffect, hrest, pushAll, listTypePush]
        | some v =>
          cases v with
          | list m =>
            have hlist : ∃ l'', (s.store (s.clients c).db src (.list l')).lookupKey (s.clients c).db dst =
                some (.list l'') := by
              rw [lookupKey_store]
              by_cases hk : dst = src
              · subst hk
                exact ⟨l', set_self ..⟩
              · exact ⟨m, (set_of_ne _ _ fun h => hk (Prod.mk.inj h).2).trans hdst⟩
            have hdb : ((rpoplpushHandlePush c dst (some (if dst = src then l' else m)) value
                (s.store (s.clients c).db src (.list l'))).clients c).db = (s.clients c).db :=
              db_rpoplpushHandlePush c dst value fun _ _ => hlist
            dsimp only
            rw [lookupKey_rpopFinish, hdb, lookupKey_rpoplpushHandlePush, lookupKey_store]
            refine (hfinish m).trans ?_
            by_cases hk : dst = src
            · subst hk
              cases l' <;> simp [pushEffect, listKey, pushAll, listTypePush]
            · have hrest : Keyspace.set s.lookupKey (s.clients c).db src (listKey l') (s.clients c).db dst =
                  some (.list m) := by
                rw [set_of_ne _ _ fun h => hk (Prod.mk.inj h).2]
                exact hdst
              simp [pushEffect, hrest, hk, pushAll, listTypePush]
          | _ => rfl
    | _ => rfl

end

theorem lookupKey_delLoop (d : DbId n) (keys : List Key) (numdel : ℕ) (s : Server n) :
    (delLoop d keys numdel s).1.lookupKey = delEffect d keys s.lookupKey := by
  induction keys generalizing numdel s with
  | nil => rfl
  | cons key keys ih =>
    unfold delLoop
    cases hl : s.lookupKey d key with
    | none =>
      refine (ih numdel s).trans ?_
      rw [delEffect, delEffect, List.foldl_cons, set_eq_self hl]
    | some v =>
      refine (ih _ _).trans ?_
      simp [delEffect]

/-! ### No empty lists -/

section NoEmpty

variable {K : Keyspace n}

theorem noEmpty_pushEffect (h : NoEmpty K) (d : DbId n) (side : Side) (key : Key) (values : List Bytes) :
    NoEmpty (pushEffect d side key values K) := by
  have hpush :
    ∀ l values, l ≠ [] ∨ values ≠ [] → NoEmpty (K.set d key (some (.list (pushAll side l values)))) :=
    fun l values hne => h.set (by simpa using pushAll_ne_nil side l hne)
  cases hl : K d key with
  | none =>
    cases values with
    | nil => simpa only [pushEffect, hl] using h
    | cons v vs => simpa only [pushEffect, hl] using hpush [] (v :: vs) (Or.inr (by simp))
  | some v =>
    cases v with
    | list l => simpa only [pushEffect, hl] using hpush l values (Or.inl fun hnil => h d key (hnil ▸ hl))
    | _ => simpa only [pushEffect, hl] using h

theorem noEmpty_pushxEffect (h : NoEmpty K) (d : DbId n) (side : Side) (key : Key) (values : List Bytes) :
    NoEmpty (pushxEffect d side key values K) := by
  unfold pushxEffect
  split
  · next l hl =>
    refine h.set ?_
    have hne : l ≠ [] := fun hnil => h d key (hnil ▸ hl)
    simpa using pushAll_ne_nil side l (Or.inl hne)
  · exact h

theorem noEmpty_popEffect (h : NoEmpty K) (d : DbId n) (side : Side) (key : Key) :
    NoEmpty (popEffect d side key K) := by
  unfold popEffect
  split
  · split
    · exact h
    · exact h.set (listKey_ne _)
  · exact h

theorem noEmpty_rpoplpushEffect (h : NoEmpty K) (d : DbId n) (src dst : Key) :
    NoEmpty (rpoplpushEffect d src dst K) := by
  unfold rpoplpushEffect
  split
  · split
    · exact h
    · split
      · exact noEmpty_pushEffect (h.set (listKey_ne _)) _ _ _ _
      · exact noEmpty_pushEffect (h.set (listKey_ne _)) _ _ _ _
      · exact h
  · exact h

theorem noEmpty_delEffect (h : NoEmpty K) (d : DbId n) (keys : List Key) : NoEmpty (delEffect d keys K) := by
  induction keys generalizing K with
  | nil => exact h
  | cons key keys ih => exact ih (h.set (by simp))

variable (h : NoEmpty s.lookupKey)
include h

section

variable (c : ClientId) (key : Key)

theorem noEmpty_renameKey {src : Key} (hval : val ≠ .list []) (dst : Key) :
    NoEmpty (renameKey d src dst val s).lookupKey := by
  have hdst : NoEmpty (Keyspace.set s.lookupKey d dst (some val)) := h.set (by simpa using hval)
  simpa [renameKey] using hdst.set (by simp)

theorem noEmpty_renameGenericCommand (nx : Bool) (src dst : Key) :
    NoEmpty (renameGenericCommand c nx src dst s).lookupKey := by
  unfold renameGenericCommand
  dsimp only
  split
  · exact h
  · next val hval =>
    have hne : val ≠ .list [] := fun he => h _ src (he ▸ hval)
    split_ifs
    · exact h
    · exact h
    · split
      · exact noEmpty_renameKey h hne dst
      · exact h
    · split
      · exact noEmpty_renameKey h hne dst
      · refine noEmpty_renameKey ?_ hne dst
        rw [lookupKey_dbDelete]
        exact h.set (by simp)

theorem noEmpty_moveCommand (dbid : ℤ) : NoEmpty (moveCommand c key dbid s).lookupKey := by
  unfold moveCommand
  dsimp only
  split
  · exact h
  · split_ifs
    · exact h
    · split
      · exact h
      · exact h
      · next val hval _ =>
        have hne : val ≠ .list [] := fun he => h _ key (he ▸ hval)
        simp only [lookupKey_record, lookupKey_addReply, lookupKey_addDirty, lookupKey_dbDelete, lookupKey_dbAdd]
        exact (h.set (by simpa using hne)).set (by simp)

theorem noEmpty_swapdbCommand (order : IterOrder) (c : ClientId) (id1 id2 : ℤ) :
    NoEmpty (swapdbCommand order c id1 id2 s).lookupKey := by
  have hswap : NoEmpty (dbSwapDatabases order id1 id2 s).1.lookupKey := by
    unfold dbSwapDatabases
    split
    · next d1 d2 _ _ =>
      split_ifs
      · exact h
      · dsimp only
        rw [(scanDatabaseForReadyLists_spec order d2 _).1.lookupKey,
          (scanDatabaseForReadyLists_spec order d1 _).1.lookupKey]
        intro d k
        change AList.lookup k (update (update s.dict d1 (s.dict d2)) d2 (s.dict d1) d) ≠ _
        by_cases h2 : d = d2
        · subst h2
          rw [update_self]
          exact h d1 k
        · rw [update_of_ne h2]
          by_cases h1 : d = d1
          · subst h1
            rw [update_self]
            exact h d2 k
          · rw [update_of_ne h1]
            exact h d k
    · exact h
  unfold swapdbCommand
  dsimp only
  split_ifs <;> exact hswap

theorem noEmpty_flush (dbid : Option (DbId n)) : NoEmpty (emptyDb dbid (touchWatchedKeysOnFlush dbid s)).lookupKey := by
  intro d k
  cases hflush : Flushes dbid d with
  | false =>
    have := h d k
    simpa [emptyDb, touchWatchedKeysOnFlush, Server.lookupKey, hflush] using this
  | true => simp [emptyDb, Server.lookupKey, hflush]

theorem noEmpty_setGenericCommand (flag : SetFlag) (key : Key) (value : Bytes) :
    NoEmpty (setGenericCommand c flag key value s).lookupKey := by
  unfold setGenericCommand
  dsimp only
  split
  · exact h
  · exact h
  · simpa using h.set (by simp)

theorem noEmpty_appendCommand (value : Bytes) : NoEmpty (appendCommand c key value s).lookupKey := by
  unfold appendCommand
  dsimp only
  split
  · simpa using h.set (by simp)
  · split_ifs
    · simpa using h.set (by simp)
    · exact h
  · exact h

theorem noEmpty_saddCommand (member : Bytes) (members : List Bytes) :
    NoEmpty (saddCommand c key member members s).lookupKey := by
  have hmembers : ∀ (s' : Server n) (set : List Bytes), NoEmpty s'.lookupKey →
      NoEmpty (saddMembers c key set (member :: members) s').lookupKey := by
    intro s' set h'
    unfold saddMembers
    dsimp only
    split_ifs <;> simpa using h'.set (by simp)
  unfold saddCommand
  dsimp only
  split
  · refine hmembers _ _ ?_
    rw [lookupKey_dbAdd]
    exact h.set (by simp)
  · exact hmembers _ _ h
  · exact h

theorem noEmpty_sremCommand (members : List Bytes) : NoEmpty (sremCommand c key members s).lookupKey := by
  unfold sremCommand
  dsimp only
  split
  · exact h
  · split_ifs
    · exact h
    · split
      · simpa using h.set (by simp)
      · simpa using h.set (by simp)
  · exact h

theorem noEmpty_sortCommand (options : Dict → Value → Option (List Bytes)) (storekey : Key) :
    NoEmpty (sortCommand c key options storekey s).lookupKey := by
  unfold sortCommand
  dsimp only
  split
  · exact h
  · split
    · exact h
    · split
      · exact h
      · simpa using h.set (by simp)
    · simpa using h.set (by simp)

end

end NoEmpty

end RedisIR.Clients
