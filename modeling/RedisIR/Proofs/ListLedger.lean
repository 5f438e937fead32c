import RedisIR.Lib.TableSum
import RedisIR.Proofs.ClientRuns

/-! The books of the list commands: which elements have come and gone, who waits for a key, and what
the propagated commands make of the first databases. Each step of the server keeps them. -/

namespace RedisIR.Clients

open CLib Server Keyspace TableSum List

variable {n : ℕ} {s s' s'' : Server n} {c : ClientId} {d d' : DbId n} {k k' key : Key} {O : IterOrder}
  {l l' : List Bytes}
variable {H : List (Event n)} {side : Side} {value : Bytes}

/-! ### What the history says -/

def elements : Value → Multiset Bytes
  | .list l => l
  | _ => 0

def contents (dict : DbId n → Dict) : Multiset Bytes := grandTotal elements dict

def Event.pushedElements : Event n → Multiset Bytes
  | .pushed values => values
  | _ => 0

def Event.returnedElements : Event n → Multiset Bytes
  | .returned value => {value}
  | _ => 0

def Event.removedElements : Event n → Multiset Bytes
  | .removed values => values
  | _ => 0

def sumOver (f : Event n → Multiset Bytes) (H : List (Event n)) : Multiset Bytes := (H.map f).sum

variable (f : Event n → Multiset Bytes)

@[simp] theorem sumOver_nil : sumOver f [] = 0 := rfl

@[simp] theorem sumOver_cons (e : Event n) (H : List (Event n)) :
    sumOver f (e :: H) = f e + sumOver f H := by simp [sumOver]

@[simp] theorem sumOver_append (H H' : List (Event n)) :
    sumOver f (H ++ H') = sumOver f H + sumOver f H' := by simp [sumOver]

/-- What an event does to the queue of those that wait for a key. -/
def queueStep (d : DbId n) (k : Key) (queue : List ClientId) : Event n → List ClientId
  | .blocked c d' keys => if d = d' ∧ keys.contains k = true then queue ++ [c] else queue
  | .served c _ _ | .released c => queue.erase c
  | _ => queue

/-- Who waits for a key, in the order in which they were blocked. -/
def waitingOf (d : DbId n) (k : Key) (H : List (Event n)) : List ClientId := H.foldl (queueStep d k) []

theorem waitingOf_append (d : DbId n) (k : Key) (H H' : List (Event n)) :
    waitingOf d k (H ++ H') = H'.foldl (queueStep d k) (waitingOf d k H) := foldl_append

def InOrder (H : List (Event n)) : Prop :=
  ∀ before c d k after, H = before ++ .served c d k :: after → (waitingOf d k before).head? = some c

/-- The event is not about clients that wait. -/
def Event.Plain : Event n → Prop
  | .blocked _ _ _ | .served _ _ _ | .released _ => False
  | _ => True

theorem queue_plain (h : ∀ e ∈ H, e.Plain) (queue : List ClientId) : H.foldl (queueStep d k) queue = queue := by
  induction H generalizing queue with
  | nil => rfl
  | cons e H ih =>
    have hstep : queueStep d k queue e = queue := by
      have he := h e (by simp)
      cases e with
      | blocked c d' keys => exact absurd he id
      | served c d' k' => exact absurd he id
      | released c => exact absurd he id
      | _ => rfl
    rw [foldl_cons, hstep]
    exact ih (forall_mem_cons.mp h).2 queue

theorem InOrder.append {H' : List (Event n)} (h : InOrder H)
    (h' : ∀ before c d k after, H' = before ++ .served c d k :: after →
    (waitingOf d k (H ++ before)).head? = some c) : InOrder (H ++ H') := by
  intro before c d k after heq
  rcases append_eq_append_iff.mp heq with ⟨mid, hbefore, hH'⟩ | ⟨mid, hH, hmid⟩
  · rw [hbefore]
    exact h' mid c d k after hH'
  · cases mid with
    | nil =>
      rw [append_nil] at hH
      have := h' [] c d k after hmid.symm
      rwa [append_nil, hH] at this
    | cons e mid =>
      obtain ⟨rfl, -⟩ := List.cons.inj hmid
      exact h before c d k mid hH

theorem InOrder.plain {H' : List (Event n)} (h : InOrder H) (h' : ∀ e ∈ H', e.Plain) : InOrder (H ++ H') := by
  refine h.append fun before c d k after heq => ?_
  exact absurd (h' (.served c d k) (by simp [heq])) id

/-! ### What the commands make of the keys -/

/-- A list that is about to be deleted does not count. -/
def shownValue (o : Option Value) : Option Value := if o = some (.list []) then none else o

def Keyspace.shown (K : Keyspace n) : Keyspace n := fun d k => shownValue (K d k)

theorem shownValue_list (l : List Bytes) : shownValue (some (.list l)) = listKey l := by
  cases l <;> simp [shownValue, listKey]

theorem Keyspace.shown_set (K : Keyspace n) (d : DbId n) (k : Key) (o : Option Value) :
    (K.set d k o).shown = K.shown.set d k (shownValue o) := by
  funext d' k'
  unfold Keyspace.shown Keyspace.set
  split_ifs <;> rfl

theorem Keyspace.NoEmpty.shown_eq {K : Keyspace n} (h : NoEmpty K) : K.shown = K := by
  funext d k
  exact if_neg (h d k)

def Command.Replayable : Command → Prop
  | .push _ _ _ | .pushx _ _ _ | .pop _ _ | .rpoplpush _ _ | .del _ => True
  | _ => False

def Command.effect (d : DbId n) (K : Keyspace n) : Command → Keyspace n
  | .push side key values => pushEffect d side key values K
  | .pushx side key values => pushxEffect d side key values K
  | .pop side key => popEffect d side key K
  | .rpoplpush src dst => rpoplpushEffect d src dst K
  | .del keys => delEffect d keys K
  | _ => K

/-- `MULTI` and `EXEC` only bracket the commands. -/
def propagatedEffect (K : Keyspace n) (p : DbId n × Propagated) : Keyspace n :=
  match p.2 with
  | .command cmd => cmd.effect p.1 K
  | .multi | .exec => K

def replayed (L : List (DbId n × Propagated)) (K : Keyspace n) : Keyspace n := L.foldl propagatedEffect K

theorem replayed_append (L L' : List (DbId n × Propagated)) (K : Keyspace n) :
    replayed (L ++ L') K = replayed L' (replayed L K) := foldl_append

/-! ### The books -/

/-- The books of a server that was started with the keys `K` and the elements `E`. -/
structure Ledger (K : Keyspace n) (E : Multiset Bytes) (s : Server n) : Prop where
  balance : E + sumOver Event.pushedElements s.history =
    contents s.dict + sumOver Event.returnedElements s.history + sumOver Event.removedElements s.history
  queue : ∀ d k, waiting s d k = waitingOf d k s.history
  order : InOrder s.history
  keys : Keyspace.shown s.lookupKey = replayed s.propagated K

variable {K : Keyspace n} {E : Multiset Bytes}

theorem ledger_start (D : Dataset n) :
    Ledger (fun d k => (D.dict d).lookup k) (contents D.dict) (Server.start D.dict) where
  balance := by simp [Server.start]
  queue d k := rfl
  order before c d k after h := by simp [Server.start] at h
  keys := Keyspace.NoEmpty.shown_eq D.noEmpty

theorem Ledger.congr (h : Ledger K E s) (hdict : s'.dict = s.dict) (hblocking : s'.blockingKeys = s.blockingKeys)
    (hpropagated : s'.propagated = s.propagated) (hhistory : s'.history = s.history) : Ledger K E s' where
  balance := by
    rw [hdict, hhistory]
    exact h.balance
  queue d k := by
    have hqueue := h.queue d k
    unfold waiting at hqueue ⊢
    rw [hblocking, hhistory, hqueue]
  order := by
    rw [hhistory]
    exact h.order
  keys := by
    have hlookup : s'.lookupKey = s.lookupKey := by
      unfold Server.lookupKey
      rw [hdict]
    rw [hlookup, hpropagated]
    exact h.keys

theorem balance_append {A B C : Multiset Bytes} {H' : List (Event n)} (h : A + sumOver Event.pushedElements H =
      B + sumOver Event.returnedElements H + sumOver Event.removedElements H)
      (h' : B + sumOver Event.pushedElements H' =
      C + sumOver Event.returnedElements H' + sumOver Event.removedElements H') :
    A + sumOver Event.pushedElements (H ++ H') =
      C + sumOver Event.returnedElements (H ++ H') + sumOver Event.removedElements (H ++ H') := by
  simp only [sumOver_append]
  calc A + (sumOver Event.pushedElements H + sumOver Event.pushedElements H')
      = B + sumOver Event.pushedElements H' +
          (sumOver Event.returnedElements H + sumOver Event.removedElements H) := by
        rw [← add_assoc, h]
        abel
    _ = _ := by
        rw [h']
        abel

def Booked (s s' : Server n) : Prop :=
  ∃ H, s'.history = s.history ++ H ∧ (∀ e ∈ H, e.Plain) ∧ contents s.dict + sumOver Event.pushedElements H =
      contents s'.dict + sumOver Event.returnedElements H + sumOver Event.removedElements H

theorem Booked.of_eq (hhistory : s'.history = s.history) (hcontents : contents s'.dict = contents s.dict) :
    Booked s s' :=
  ⟨[], by simpa using hhistory, by simp, by simp [hcontents]⟩

theorem Booked.trans (h : Booked s s') (h' : Booked s' s'') : Booked s s'' := by
  obtain ⟨H, hH, hplain, hsum⟩ := h
  obtain ⟨H', hH', hplain', hsum'⟩ := h'
  refine ⟨H ++ H', by rw [hH', hH, append_assoc], ?_, balance_append hsum hsum'⟩
  intro e he
  rcases mem_append.mp he with he | he
  · exact hplain e he
  · exact hplain' e he

theorem Ledger.booked (h : Ledger K E s) (hbooked : Booked s s') (hblocking : s'.blockingKeys = s.blockingKeys)
    (hkeys : Keyspace.shown s'.lookupKey = replayed s'.propagated K) : Ledger K E s' := by
  obtain ⟨H, hH, hplain, hsum⟩ := hbooked
  refine ⟨?_, fun d k => ?_, ?_, hkeys⟩
  · rw [hH]
    exact balance_append h.balance hsum
  · have hqueue := h.queue d k
    unfold waiting at hqueue ⊢
    rw [hblocking, hH, waitingOf_append, queue_plain hplain, hqueue]
  · rw [hH]
    exact h.order.plain hplain

/-! ### The functions of `db.c` -/

section

variable (d : DbId n) (k : Key) (l : List Bytes) (s : Server n)

theorem contents_store (d : DbId n) (k : Key) (v : Value) :
    contents (s.store d k v).dict + part elements (s.lookupKey d k) = contents s.dict + elements v :=
  grandTotal_insert elements s.dict d k v

theorem contents_dbDelete (d : DbId n) (k : Key) :
    contents (dbDelete d k s).dict + part elements (s.lookupKey d k) = contents s.dict :=
  grandTotal_erase elements s.dict d k

@[simp] theorem signalModifiedKey_same : (signalModifiedKey d k s).dict = s.dict ∧
    (signalModifiedKey d k s).dirty = s.dirty ∧ (signalModifiedKey d k s).history = s.history ∧
      (signalModifiedKey d k s).propagated = s.propagated := by
  rw [signalModifiedKey_eq]
  exact ⟨rfl, rfl, rfl, rfl⟩

@[simp] theorem dbAdd_list_same : (dbAdd d k (.list l) s).dict = (s.store d k (.list l)).dict ∧
    (dbAdd d k (.list l) s).dirty = s.dirty ∧ (dbAdd d k (.list l) s).history = s.history ∧
      (dbAdd d k (.list l) s).propagated = s.propagated := by
  rw [dbAdd_same]
  exact ⟨rfl, rfl, rfl, rfl⟩

end

theorem contents_store_list {m : Multiset Bytes} (hl : s.lookupKey d key = some (.list l))
    (h : (l' : Multiset Bytes) = (l : Multiset Bytes) + m) :
    contents (s.store d key (.list l')).dict = contents s.dict + m := by
  have hstore := contents_store s d key (.list l')
  rw [hl] at hstore
  apply add_right_cancel (b := (l : Multiset Bytes))
  refine hstore.trans ?_
  change contents s.dict + (l' : Multiset Bytes) = _
  rw [h]
  abel

theorem contents_storeRest (hl : s.lookupKey d key = some (.list l)) (l' : List Bytes) :
    contents (storeRest d key l' s).dict + (l : Multiset Bytes) = contents s.dict + (l' : Multiset Bytes) := by
  cases l' with
  | nil =>
    have h := contents_dbDelete s d key
    rw [hl] at h
    simpa [storeRest, part, elements] using h
  | cons x l' =>
    have h := contents_store s d key (.list (x :: l'))
    rw [hl] at h
    simpa [storeRest, part, elements] using h

@[simp] theorem storeRest_same (d : DbId n) (key : Key) (l : List Bytes) (s : Server n) :
    (storeRest d key l s).dirty = s.dirty ∧ (storeRest d key l s).history = s.history ∧
      (storeRest d key l s).propagated = s.propagated := by
  cases l <;> exact ⟨rfl, rfl, rfl⟩

/-! ### Pushes and pops of one list -/

theorem coe_listTypePush (side : Side) (v : Bytes) (l : List Bytes) :
    ((listTypePush side v l : List Bytes) : Multiset Bytes) = (l : Multiset Bytes) + {v} := by
  cases side with
  | head => exact (Multiset.singleton_add v (l : Multiset Bytes)).symm.trans (add_comm _ _)
  | tail => rfl

theorem coe_pushAll (side : Side) (l values : List Bytes) :
    ((pushAll side l values : List Bytes) : Multiset Bytes) = (l : Multiset Bytes) + (values : Multiset Bytes) := by
  induction values generalizing l with
  | nil => simp [pushAll]
  | cons v vs ih =>
    change ((pushAll side (listTypePush side v l) vs : List Bytes) : Multiset Bytes) = _
    rw [ih, coe_listTypePush, add_assoc]
    rfl

theorem listTypePush_of_pop (h : listTypePop side l = some (value, l')) : listTypePush side value l' = l := by
  cases side with
  | head =>
    cases l with
    | nil => cases h
    | cons x l =>
      cases h
      rfl
  | tail =>
    cases hlast : l.getLast? with
    | none => simp [listTypePop, hlast] at h
    | some x =>
      simp only [listTypePop, hlast, Option.map_some, Option.some.injEq, Prod.mk.injEq] at h
      obtain ⟨rfl, rfl⟩ := h
      obtain ⟨l'', rfl⟩ := List.getLast?_eq_some_iff.mp hlast
      simp [listTypePush]

theorem coe_listTypePop (h : listTypePop side l = some (value, l')) :
    (l : Multiset Bytes) = (l' : Multiset Bytes) + {value} := by
  rw [← listTypePush_of_pop h, coe_listTypePush]

theorem contents_store_popped (hl : s.lookupKey d key = some (.list l)) (hpop : listTypePop side l = some (value, l')) :
    contents s.dict = contents (s.store d key (.list l')).dict + {value} := by
  have hstore := contents_store s d key (.list l')
  rw [hl] at hstore
  apply add_right_cancel (b := (l' : Multiset Bytes))
  refine hstore.symm.trans ?_
  change _ + (l : Multiset Bytes) = _
  rw [coe_listTypePop hpop]
  abel

/-! ### The commands -/

/-- What a command does that is propagated as `cmd`, if it has changed anything. -/
structure ListStep (d : DbId n) (cmd : Command) (s s' : Server n) : Prop where
  propagated : s'.propagated = s.propagated
  booked : Booked s s'
  effect : s'.dirty = s.dirty ∧ s'.lookupKey = s.lookupKey ∨
    s.dirty < s'.dirty ∧ s'.lookupKey = cmd.effect d s.lookupKey

theorem listStep_addReply (d : DbId n) (cmd : Command) (s : Server n) (c : ClientId) (r : Reply) :
    ListStep d cmd s (s.addReply c r) := ⟨rfl, .of_eq rfl rfl, Or.inl ⟨rfl, rfl⟩⟩

theorem booked_pushValues (side : Side) (values : List Bytes) (hl : s.lookupKey (s.clients c).db key = some (.list l)) :
    Booked s (pushValues c side key values l s) := by
  have hsum := contents_store_list hl (coe_pushAll side l values)
  cases values with
  | nil => exact .of_eq rfl (hsum.trans (add_zero _))
  | cons v vs =>
    refine ⟨[.pushed (v :: vs)], ?_, ?_, ?_⟩
    · simp [pushValues, Server.record, addDirty, Server.addReply, Server.store, setDict]
    · simp [Event.Plain]
    · simp only [sumOver_cons, sumOver_nil, Event.pushedElements, Event.returnedElements,
        Event.removedElements, add_zero]
      rw [← hsum]
      simp [pushValues, Server.record, addDirty, Server.addReply]

theorem pushValues_same (c : ClientId) (side : Side) (key : Key) (values l : List Bytes) (s : Server n) :
    (pushValues c side key values l s).propagated = s.propagated ∧
      (pushValues c side key values l s).dirty = s.dirty + values.length := by
  cases values with
  | nil => exact ⟨rfl, rfl⟩
  | cons v vs => simp [pushValues, Server.record, addDirty, Server.addReply, Server.store, setDict]

theorem listStep_pushValues {cmd : Command} (side : Side) (values : List Bytes)
    (hl : s.lookupKey (s.clients c).db key = some (.list l)) (hcmd : s' = pushValues c side key values l s)
    (hlookup : s'.lookupKey = cmd.effect (s.clients c).db s.lookupKey) :
    ListStep (s.clients c).db cmd s s' := by
  subst hcmd
  obtain ⟨hpropagated, hdirty⟩ := pushValues_same c side key values l s
  refine ⟨hpropagated, booked_pushValues side values hl, ?_⟩
  cases values with
  | nil => exact Or.inl ⟨rfl, (lookupKey_pushValues c side key [] l s).trans (set_eq_self hl)⟩
  | cons v vs =>
    rw [length_cons] at hdirty
    exact Or.inr ⟨by omega, hlookup⟩

theorem listStep_push (c : ClientId) (side : Side) (key : Key) (values : List Bytes) (s : Server n) :
    ListStep (s.clients c).db (.push side key values) s (pushGenericCommand c side key values s) := by
  have hlookup := lookupKey_pushGenericCommand c side key values s
  cases hl : s.lookupKey (s.clients c).db key with
  | none =>
    cases values with
    | nil => simpa [pushGenericCommand, hl] using listStep_addReply _ _ s c (.longLong 0)
    | cons v vs =>
      set s1 := dbAdd (s.clients c).db key (.list []) s with hs1
      have hcmd : pushGenericCommand c side key (v :: vs) s = pushValues c side key (v :: vs) [] s1 := by
        simp [pushGenericCommand, hl, hs1]
      have hdb : (s1.clients c).db = (s.clients c).db := db_dbAdd _ _ _ _ _
      have hl1 : s1.lookupKey (s1.clients c).db key = some (.list []) := by
        rw [hdb, hs1, lookupKey_dbAdd, set_self]
      have hcontents : contents s1.dict = contents s.dict := by
        have hstore := contents_store s (s.clients c).db key (.list [])
        rw [hl] at hstore
        simpa [hs1, part, elements] using hstore
      obtain ⟨-, hdirty, hhistory, hpropagated⟩ := dbAdd_list_same (s.clients c).db key [] s
      obtain ⟨hpropagated1, hdirty1⟩ := pushValues_same c side key (v :: vs) [] s1
      rw [hcmd] at hlookup ⊢
      refine ⟨hpropagated1.trans hpropagated, ?_, Or.inr ⟨?_, hlookup⟩⟩
      · exact (Booked.of_eq hhistory hcontents).trans (booked_pushValues side _ hl1)
      · rw [hdirty1, hs1, hdirty]
        simp
  | some v =>
    cases v with
    | list l =>
      exact listStep_pushValues side values hl (by simp [pushGenericCommand, hl]) hlookup
    | _ => simpa [pushGenericCommand, hl] using listStep_addReply _ _ s c .wrongtypeerr

theorem listStep_pushx (c : ClientId) (side : Side) (key : Key) (values : List Bytes) (s : Server n) :
    ListStep (s.clients c).db (.pushx side key values) s (pushxGenericCommand c side key values s) := by
  have hlookup := lookupKey_pushxGenericCommand c side key values s
  cases hl : s.lookupKey (s.clients c).db key with
  | none => simpa [pushxGenericCommand, hl] using listStep_addReply _ _ s c .czero
  | some v =>
    cases v with
    | list l =>
      exact listStep_pushValues side values hl (by simp [pushxGenericCommand, hl]) hlookup
    | _ => simpa [pushxGenericCommand, hl] using listStep_addReply _ _ s c .wrongtypeerr

theorem listStep_taken (hl : s.lookupKey d key = some (.list l)) (hpop : listTypePop side l = some (value, l'))
    (c : ClientId) (r : Reply) : ListStep d (.pop side key) s
      (((signalModifiedKey d key (storeRest d key l' (s.addReply c r))).addDirty 1).record (.returned value)) := by
  refine ⟨?_, ⟨[.returned value], ?_, ?_, ?_⟩, Or.inr ⟨?_, ?_⟩⟩
  · simp [Server.record, addDirty, Server.addReply]
  · simp [Server.record, addDirty, Server.addReply]
  · simp [Event.Plain]
  · have hsum := contents_storeRest (s := s.addReply c r) hl l'
    rw [coe_listTypePop hpop] at hsum
    simp only [sumOver_cons, sumOver_nil, Event.pushedElements, Event.returnedElements, Event.removedElements, add_zero]
    apply add_right_cancel (b := (l' : Multiset Bytes))
    refine hsum.symm.trans ?_
    simp only [Server.record, addDirty, signalModifiedKey_same]
    abel
  · simp [Server.record, addDirty, Server.addReply]
  · simp [Command.effect, popEffect, hl, hpop]

theorem listStep_pop (c : ClientId) (side : Side) (key : Key) (s : Server n) :
    ListStep (s.clients c).db (.pop side key) s (popGenericCommand c side key s) := by
  cases hl : s.lookupKey (s.clients c).db key with
  | none => simpa [popGenericCommand, hl] using listStep_addReply _ _ s c .nullbulk
  | some v =>
    cases v with
    | list l =>
      cases hpop : listTypePop side l with
      | none => simpa [popGenericCommand, hl, hpop] using listStep_addReply _ _ s c .nullbulk
      | some p => simpa [popGenericCommand, hl, hpop] using listStep_taken hl hpop c (.bulk p.1)
    | _ => simpa [popGenericCommand, hl] using listStep_addReply _ _ s c .wrongtypeerr

theorem listStep_bpopLoop {keys : List Key} {o : Option Key} (h : bpopLoop c side keys s = some (s', o)) :
    o = none ∧ s' = s.addReply c .wrongtypeerr ∨
      ∃ popped, o = some popped ∧ ListStep (s.clients c).db (.pop side popped) s s' ∧ s.dirty < s'.dirty := by
  induction keys with
  | nil => cases h
  | cons key keys ih =>
    cases hl : s.lookupKey (s.clients c).db key with
    | none =>
      simp only [bpopLoop, hl] at h
      exact ih h
    | some v =>
      cases v with
      | list l =>
        cases hpop : listTypePop side l with
        | none =>
          simp only [bpopLoop, hl, hpop] at h
          exact ih h
        | some p =>
          simp only [bpopLoop, hl, hpop] at h
          cases h
          refine Or.inr ⟨key, rfl, listStep_taken hl hpop c (.keyAndBulk key p.1), ?_⟩
          simp [Server.record, addDirty, Server.addReply]
      | _ =>
        simp only [bpopLoop, hl] at h
        cases h
        exact Or.inl ⟨rfl, rfl⟩

/-! ### An element goes from one list to another -/

theorem contents_rpoplpushHandlePush {dstobj : Option (List Bytes)} (dst : Key) (value : Bytes)
    (hdst : s.lookupKey (s.clients c).db dst = dstobj.map .list) :
    contents (rpoplpushHandlePush c dst dstobj value s).dict = contents s.dict + {value} := by
  cases dstobj with
  | none =>
    have hstore := contents_store s (s.clients c).db dst (.list [])
    rw [hdst] at hstore
    refine (contents_store_list ?_ (coe_listTypePush .head value [])).trans ?_
    · simp
    · rw [(signalModifiedKey_same _ _ _).1, (dbAdd_list_same _ _ _ _).1]
      simpa [part, elements] using hstore
  | some l =>
    refine (contents_store_list ?_ (coe_listTypePush .head value l)).trans ?_
    · rw [lookupKey_signalModifiedKey]
      exact hdst
    · rw [(signalModifiedKey_same _ _ _).1]

theorem rpoplpushHandlePush_same (c : ClientId) (dst : Key) (dstobj : Option (List Bytes)) (value : Bytes)
    (s : Server n) : (rpoplpushHandlePush c dst dstobj value s).dirty = s.dirty ∧
      (rpoplpushHandlePush c dst dstobj value s).history = s.history ∧
      (rpoplpushHandlePush c dst dstobj value s).propagated = s.propagated := by
  cases dstobj <;> simp [rpoplpushHandlePush, Server.addReply, Server.store, setDict]

theorem rpopFinish_same (c : ClientId) (src : Key) (s : Server n) :
    (rpopFinish c src s).dirty = s.dirty + 1 ∧ (rpopFinish c src s).history = s.history ∧
      (rpopFinish c src s).propagated = s.propagated ∧ contents (rpopFinish c src s).dict = contents s.dict := by
  cases hl : s.lookupKey (s.clients c).db src with
  | none => simp [rpopFinish, hl, addDirty]
  | some v =>
    cases v with
    | list l =>
      cases l with
      | nil =>
        have hdelete := contents_dbDelete s (s.clients c).db src
        rw [hl] at hdelete
        have hcontents : contents (dbDelete (s.clients c).db src s).dict = contents s.dict := by
          simpa [part, elements] using hdelete
        simp only [rpopFinish, hl, addDirty, signalModifiedKey_same]
        exact ⟨rfl, rfl, rfl, hcontents⟩
      | cons x l => simp [rpopFinish, hl, addDirty]
    | _ => simp [rpopFinish, hl, addDirty]

theorem listStep_moved (dstobj : Option (List Bytes)) {src dst : Key}
    (hl : s.lookupKey (s.clients c).db src = some (.list l)) (hpop : listTypePop .tail l = some (value, l'))
    (hdst : (s.store (s.clients c).db src (.list l')).lookupKey (s.clients c).db dst = dstobj.map .list)
    (hcmd : rpoplpushCommand c src dst s =
      rpopFinish c src (rpoplpushHandlePush c dst dstobj value (s.store (s.clients c).db src (.list l'))))
    : ListStep (s.clients c).db (.rpoplpush src dst) s (rpoplpushCommand c src dst s) ∧
      s.dirty < (rpoplpushCommand c src dst s).dirty := by
  set s1 := s.store (s.clients c).db src (.list l')
  obtain ⟨hdirty2, hhistory2, hpropagated2⟩ := rpoplpushHandlePush_same c dst dstobj value s1
  obtain ⟨hdirty3, hhistory3, hpropagated3, hcontents3⟩ :=
    rpopFinish_same c src (rpoplpushHandlePush c dst dstobj value s1)
  have hdirty : s.dirty < (rpoplpushCommand c src dst s).dirty := by
    rw [hcmd, hdirty3, hdirty2]
    exact Nat.lt_succ_self _
  refine ⟨⟨?_, .of_eq ?_ ?_, Or.inr ⟨hdirty, lookupKey_rpoplpushCommand c src dst s⟩⟩, hdirty⟩
  · rw [hcmd, hpropagated3, hpropagated2]
    rfl
  · rw [hcmd, hhistory3, hhistory2]
    rfl
  · rw [hcmd, hcontents3, contents_rpoplpushHandlePush dst value hdst]
    exact (contents_store_popped hl hpop).symm

theorem listStep_rpoplpush (c : ClientId) (src dst : Key) (s : Server n) :
    ListStep (s.clients c).db (.rpoplpush src dst) s (rpoplpushCommand c src dst s) := by
  cases hl : s.lookupKey (s.clients c).db src with
  | none => simpa [rpoplpushCommand, hl] using listStep_addReply _ _ s c .nullbulk
  | some v =>
    cases v with
    | list l =>
      cases hpop : listTypePop .tail l with
      | none => simpa [rpoplpushCommand, hl, hpop] using listStep_addReply _ _ s c .nullbulk
      | some p =>
        obtain ⟨value, l'⟩ := p
        cases hdst : s.lookupKey (s.clients c).db dst with
        | none =>
          have hne : ((s.clients c).db, dst) ≠ ((s.clients c).db, src) := fun h => by
            rw [(Prod.mk.inj h).2, hl] at hdst
            cases hdst
          refine (listStep_moved none hl hpop ?_ ?_).1
          · rw [lookupKey_store, set_of_ne _ _ hne]
            exact hdst
          · simp [rpoplpushCommand, hl, hpop, hdst]
        | some v =>
          cases v with
          | list m =>
            refine (listStep_moved (some (if dst = src then l' else m)) hl hpop ?_ ?_).1
            · by_cases hk : dst = src
              · subst hk
                simp
              · rw [lookupKey_store, set_of_ne _ _ fun h => hk (Prod.mk.inj h).2, if_neg hk]
                exact hdst
            · simp [rpoplpushCommand, hl, hpop, hdst]
          | _ => simpa [rpoplpushCommand, hl, hpop, hdst] using listStep_addReply _ _ s c .wrongtypeerr
    | _ => simpa [rpoplpushCommand, hl] using listStep_addReply _ _ s c .wrongtypeerr

/-! ### `DEL` -/

theorem coe_removedElements (v : Value) : ((removedElements v : List Bytes) : Multiset Bytes) = elements v := by
  cases v <;> rfl

theorem delLoop_spec (d : DbId n) (keys : List Key) (numdel : ℕ) (s : Server n) :
    (delLoop d keys numdel s).1.propagated = s.propagated ∧ Booked s (delLoop d keys numdel s).1 ∧
      s.dirty ≤ (delLoop d keys numdel s).1.dirty ∧
      ((delLoop d keys numdel s).1.dirty = s.dirty → (delLoop d keys numdel s).1.lookupKey = s.lookupKey) := by
  induction keys generalizing numdel s with
  | nil => exact ⟨rfl, .of_eq rfl rfl, le_rfl, fun _ => rfl⟩
  | cons key keys ih =>
    cases hl : s.lookupKey d key with
    | none =>
      simp only [delLoop, hl]
      exact ih numdel s
    | some v =>
      set s1 := ((signalModifiedKey d key (dbDelete d key s)).addDirty 1).record (.removed (removedElements v)) with hs1
      have hdel : delLoop d (key :: keys) numdel s = delLoop d keys (numdel + 1) s1 := by simp only [delLoop, hl, hs1]
      obtain ⟨hpropagated, hbooked, hdirty, hsame⟩ := ih (numdel + 1) s1
      have hdirty1 : s1.dirty = s.dirty + 1 := by
        simp [hs1, Server.record, addDirty, dbDelete, setDict]
      rw [hdel]
      refine ⟨?_, Booked.trans ⟨[.removed (removedElements v)], ?_, ?_, ?_⟩ hbooked, by omega, fun heq => ?_⟩
      · rw [hpropagated]
        simp [hs1, Server.record, addDirty, dbDelete, setDict]
      · simp [hs1, Server.record, addDirty, dbDelete, setDict]
      · simp [Event.Plain]
      · have hdelete := contents_dbDelete s d key
        rw [hl] at hdelete
        simp only [sumOver_cons, sumOver_nil, Event.pushedElements, Event.returnedElements, Event.removedElements,
          add_zero, coe_removedElements]
        simpa [hs1, Server.record, addDirty, part] using hdelete.symm
      · omega

theorem listStep_del (c : ClientId) (keys : List Key) (s : Server n) :
    ListStep (s.clients c).db (.del keys) s (delGenericCommand c keys s) := by
  obtain ⟨hpropagated, hbooked, hdirty, hsame⟩ := delLoop_spec (s.clients c).db keys 0 s
  refine ⟨hpropagated, hbooked, ?_⟩
  rcases Nat.eq_or_lt_of_le hdirty with heq | hlt
  · exact Or.inl ⟨heq.symm, hsame heq.symm⟩
  · exact Or.inr ⟨hlt, lookupKey_delLoop _ keys 0 s⟩

end RedisIR.Clients
