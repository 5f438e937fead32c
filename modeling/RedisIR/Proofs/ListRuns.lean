import RedisIR.Proofs.ListLedger

/-! The books of the list commands along whole runs. -/

namespace RedisIR.Clients

open CLib Server Keyspace TableSum Option Function

variable {n : ℕ} {s s' s'' : Server n} {c : ClientId} {d d' : DbId n} {k k' key : Key} {O : IterOrder}
  {l l' : List Bytes} {K : Keyspace n} {E : Multiset Bytes}
variable {cmd : Command}

/-- The commands on lists, `DEL`, and those that do not touch a key. -/
def Command.OnLists : Command → Prop
  | .push _ _ _ | .pushx _ _ _ | .pop _ _ | .rpoplpush _ _ | .bpop _ _ _ | .brpoplpush _ _ | .del _
  | .select _ | .unwatch =>
    True
  | _ => False

def Request.OnLists : Request → Prop
  | .command cmd => cmd.OnLists
  | _ => True

def Input.OnLists : Input → Prop
  | .request _ r => r.OnLists
  | _ => True

/-- A client that has a destination is one that `BRPOPLPUSH` has blocked, and what it has queued are
commands on lists. -/
structure Sound (cl : Client n) : Prop where
  target : cl.bpopTarget ≠ none → cl.blocked = true ∧ popSide cl.lastcmd = .tail
  commands : ∀ cmd ∈ cl.commands, cmd.OnLists

theorem sound_createClient : Sound (createClient : Client n) := ⟨fun h => absurd rfl h, fun _ h => by cases h⟩

theorem Sound.congr {cl cl' : Client n} (h : Sound cl) (htarget : cl'.bpopTarget = cl.bpopTarget)
    (hblocked : cl'.blocked = cl.blocked) (hlast : cl'.lastcmd = cl.lastcmd) (hcommands : cl'.commands = cl.commands) :
    Sound cl' := by
  refine ⟨fun hne => ?_, fun cmd hcmd => h.commands cmd (hcommands ▸ hcmd)⟩
  rw [hblocked, hlast]
  exact h.target (htarget ▸ hne)

theorem Quiet.sound (hq : Quiet s s') (x : ClientId) (h : Sound (s.clients x)) : Sound (s'.clients x) := by
  rw [hq.clients x]
  exact h.congr rfl rfl rfl rfl

theorem sound_update {cl : Client n} (h : ∀ x, Sound (s.clients x)) (hclients : s'.clients = update s.clients c cl)
    (hcl : Sound cl) (x : ClientId) : Sound (s'.clients x) := by
  rw [hclients]
  by_cases hx : x = c
  · subst hx
    rwa [update_self]
  · rw [update_of_ne hx]
    exact h x

def asPropagated (B : List (DbId n × Command)) : List (DbId n × Propagated) := B.map fun q => (q.1, .command q.2)

/-- Only commands are propagated, and only those of which the effect is known. -/
def Emits (s s' : Server n) : Prop :=
  ∃ B : List (DbId n × Command), s'.propagated = s.propagated ++ asPropagated B ∧ ∀ q ∈ B, q.2.Replayable

theorem Emits.of_eq (h : s'.propagated = s.propagated) :
    Emits s s' := ⟨[], by simpa [asPropagated] using h, by simp⟩

theorem Emits.trans (h : Emits s s') (h' : Emits s' s'') : Emits s s'' := by
  obtain ⟨B, hB, hcmd⟩ := h
  obtain ⟨B', hB', hcmd'⟩ := h'
  refine ⟨B ++ B', ?_, fun q hq => ?_⟩
  · rw [hB', hB, List.append_assoc]
    simp [asPropagated]
  · rcases List.mem_append.mp hq with hq | hq
    · exact hcmd q hq
    · exact hcmd' q hq

/-! ### Steps that leave the books alone -/

structure Idle (s s' : Server n) : Prop where
  dict : s'.dict = s.dict
  blockingKeys : s'.blockingKeys = s.blockingKeys
  dirty : s'.dirty = s.dirty
  propagated : s'.propagated = s.propagated
  history : s'.history = s.history
  sound : ∀ x, Sound (s.clients x) → Sound (s'.clients x)

theorem Idle.refl (s : Server n) : Idle s s := ⟨rfl, rfl, rfl, rfl, rfl, fun _ h => h⟩

theorem Idle.trans (h : Idle s s') (h' : Idle s' s'') : Idle s s'' :=
  ⟨h'.dict.trans h.dict, h'.blockingKeys.trans h.blockingKeys, h'.dirty.trans h.dirty,
    h'.propagated.trans h.propagated, h'.history.trans h.history, fun x hx => h'.sound x (h.sound x hx)⟩

theorem idle_addReply (s : Server n) (c : ClientId) (r : Reply) : Idle s (s.addReply c r) :=
  ⟨rfl, rfl, rfl, rfl, rfl, fun _ h => h⟩

theorem idle_setClient (s : Server n) (c : ClientId) (f : Client n → Client n)
    (hf : Sound (s.clients c) → Sound (f (s.clients c))) : Idle s (s.setClient c f) := by
  refine ⟨rfl, rfl, rfl, rfl, rfl, fun x hx => ?_⟩
  by_cases hxc : x = c
  · subst hxc
    simpa [Server.setClient] using hf hx
  · simpa [Server.setClient, hxc] using hx

theorem idle_unwatched (h : Unwatched c s s') : Idle s s' := by
  refine ⟨by rw [h.same], by rw [h.same], by rw [h.same], by rw [h.same], by rw [h.same], fun x hx => ?_⟩
  by_cases hxc : x = c
  · subst hxc
    rw [h.client]
    exact hx.congr rfl rfl rfl rfl
  · rwa [h.client_of_ne hxc]

theorem idle_watchForKey (c : ClientId) (s : Server n) (key : Key) : Idle s (watchForKey c s key) := by
  unfold watchForKey
  dsimp only
  cases listDelNode ((s.clients c).db, key) (s.clients c).watchedKeys with
  | some _ => exact .refl s
  | none =>
    have hclient :=
      idle_setClient s c (fun cl => { cl with watchedKeys := cl.watchedKeys ++ [((s.clients c).db, key)] })
      fun h => h.congr rfl rfl rfl rfl
    exact ⟨rfl, rfl, rfl, rfl, rfl, hclient.sound⟩

theorem idle_watchAll (c : ClientId) (keys : List Key) (s : Server n) : Idle s (keys.foldl (watchForKey c) s) := by
  induction keys generalizing s with
  | nil => exact .refl s
  | cons key keys ih => exact (idle_watchForKey c s key).trans (ih _)

theorem idle_discardTransaction (h : Live s) (hs' : discardTransaction c s = some s') : Idle s s' := by
  obtain ⟨s1, h1, -, hu⟩ := discardTransaction_spec h c
  cases hs'.symm.trans h1
  refine (idle_setClient s c _ fun hsound => ?_).trans (idle_unwatched hu)
  exact ⟨hsound.target, fun _ hcmd => by cases hcmd⟩

theorem Ledger.idle (h : Ledger K E s) (hi : Idle s s') : Ledger K E s' :=
  h.congr hi.dict hi.blockingKeys hi.propagated hi.history

theorem Ledger.bracket (h : Ledger K E s) (d : DbId n) {p : Propagated} (hp : ∀ K, propagatedEffect K (d, p) = K) :
    Ledger K E (s.propagate d p) := by
  refine ⟨h.balance, h.queue, h.order, h.keys.trans ?_⟩
  change _ = replayed (s.propagated ++ [(d, p)]) K
  rw [replayed_append]
  exact (hp _).symm

/-! ### One command -/

inductive ListProc (c : ClientId) (cmd : Command) (s : Server n) : Server n × Command → Prop
  | step (s' : Server n) (cmd' : Command) (hcmd : s.dirty < s'.dirty → cmd'.Replayable)
      (h : ListStep (s.clients c).db cmd' s s') (hch : Changes ∅ s s') : ListProc c cmd s (s', cmd')
  | idle (s' : Server n) (cmd' : Command) (h : Idle s s') : ListProc c cmd s (s', cmd')
  | blocks (keys : List Key) (target : Option Key) (cmd' : Command) (hmulti : (s.clients c).multi = false)
      (htarget : target ≠ none → popSide (some (.command cmd)) = .tail) :
      ListProc c cmd s (blockForKeys c keys target s, cmd')

theorem listProc_bpop (c : ClientId) (side : Side) (key : Key) (keys : List Key) (s : Server n) :
    ListProc c (.bpop side key keys) s (blockingPopGenericCommand c side key keys s) := by
  unfold blockingPopGenericCommand
  cases hloop : bpopLoop c side (key :: keys) s with
  | some r =>
    obtain ⟨s', o⟩ := r
    rcases listStep_bpopLoop hloop with ⟨rfl, rfl⟩ | ⟨popped, rfl, hstep, -⟩
    · exact .idle _ _ (idle_addReply s c _)
    · exact .step _ _ (fun _ => trivial) hstep (changes_bpopLoop c side _ s _ hloop)
  | none =>
    dsimp only
    split_ifs with hmulti
    · exact .idle _ _ (idle_addReply s c _)
    · exact .blocks _ none _ (Bool.not_eq_true _ ▸ hmulti) fun h => absurd rfl h

theorem listProc_brpoplpush {src dst : Key} {r : Server n × Command} (h : brpoplpushCommand c src dst s = some r) :
    ListProc c (.brpoplpush src dst) s r := by
  unfold brpoplpushCommand at h
  split at h
  · split_ifs at h with hmulti
    · cases h
      exact .idle _ _ (idle_addReply s c _)
    · cases h
      exact .blocks [src] (some dst) _ (Bool.not_eq_true _ ▸ hmulti) fun _ => rfl
  · cases h
  · have hstep := listStep_rpoplpush c src dst s
    dsimp only at h
    split_ifs at h with hdirty
    · cases h
      have hsame : ListStep (s.clients c).db (.brpoplpush src dst) s (rpoplpushCommand c src dst s) := by
        refine ⟨hstep.propagated, hstep.booked, Or.inl ?_⟩
        exact hstep.effect.resolve_right fun hlt => absurd hdirty hlt.1.ne'
      exact .step _ _ (fun hlt => absurd hdirty hlt.ne') hsame (changes_rpoplpushCommand c src dst s)
    · cases h
      exact .step _ _ (fun _ => trivial) hstep (changes_rpoplpushCommand c src dst s)
  · cases h
    exact .idle _ _ (idle_addReply s c _)

theorem listProc {r : Server n × Command} (hcmd : cmd.OnLists) (hw : WatchTables s) (h : cmd.proc O c s = some r) :
    ListProc c cmd s r := by
  cases cmd with
  | push side key values =>
    cases h
    exact .step _ _ (fun _ => trivial) (listStep_push c side key values s)
      (changes_pushGenericCommand c side key values s)
  | pushx side key values =>
    cases h
    exact .step _ _ (fun _ => trivial) (listStep_pushx c side key values s)
      (changes_pushxGenericCommand c side key values s)
  | pop side key =>
    cases h
    exact .step _ _ (fun _ => trivial) (listStep_pop c side key s) (changes_popGenericCommand c side key s)
  | rpoplpush src dst =>
    cases h
    exact .step _ _ (fun _ => trivial) (listStep_rpoplpush c src dst s) (changes_rpoplpushCommand c src dst s)
  | bpop side key keys =>
    cases h
    exact listProc_bpop c side key keys s
  | brpoplpush src dst => exact listProc_brpoplpush h
  | del keys =>
    cases h
    exact .step _ _ (fun _ => trivial) (listStep_del c keys s) (changes_delGenericCommand c keys s)
  | select id =>
    cases h
    dsimp only [selectCommand]
    cases (selectDb id : Option (DbId n)) with
    | none => exact .idle _ _ (idle_addReply s c _)
    | some d =>
      refine .idle _ _ ((idle_setClient s c _ fun hsound => ?_).trans (idle_addReply _ c _))
      exact hsound.congr rfl rfl rfl rfl
  | unwatch =>
    simp only [Command.proc, unwatchCommand, map_map] at h
    obtain ⟨s1, h1, rfl⟩ := map_eq_some_iff.mp h
    obtain ⟨s2, h2, hu, -⟩ := unwatchAllKeys_spec hw c
    cases h1.symm.trans h2
    refine .idle _ _ (((idle_unwatched hu).trans (idle_setClient s1 c _ fun hsound => ?_)).trans (idle_addReply _ c _))
    exact hsound.congr rfl rfl rfl rfl
  | _ => exact absurd hcmd id

theorem Ledger.blockForKeys (h : Ledger K E s) (hb : BlockTables s) (hc : (s.clients c).blocked = false)
    (keys : List Key) (target : Option Key) : Ledger K E (blockForKeys c keys target s) := by
  have hblocked := blockForKeys_spec hb hc keys target
  obtain ⟨B, -, hsame⟩ := hblocked.same
  have hhistory : (Clients.blockForKeys c keys target s).history =
      s.history ++ [.blocked c (s.clients c).db keys] := by rw [hsame]
  refine ⟨?_, fun d k => ?_, ?_, ?_⟩
  · rw [hhistory]
    have hdict : (Clients.blockForKeys c keys target s).dict = s.dict := by rw [hsame]
    rw [hdict]
    simpa [Event.pushedElements, Event.returnedElements, Event.removedElements] using h.balance
  · rw [hblocked.waiting, hhistory, waitingOf_append, h.queue d k]
    simp [queueStep]
  · rw [hhistory]
    refine h.order.append fun before c' d k after heq => ?_
    cases before with
    | nil => cases heq
    | cons e before => simp at heq
  · rw [hsame]
    exact h.keys

structure Kept (K : Keyspace n) (E : Multiset Bytes) (s : Server n) : Prop where
  ledger : Ledger K E s
  sound : ∀ x, Sound (s.clients x)

theorem Kept.idle (h : Kept K E s) (hi : Idle s s') : Kept K E s' :=
  ⟨h.ledger.idle hi, fun x => hi.sound x (h.sound x)⟩

theorem Kept.step (h : Kept K E s) (hlive : Live s) (hlive' : NoEmpty s'.lookupKey)
    (hstep : ListStep (s.clients c).db cmd s s') (hcmd : s.dirty < s'.dirty → cmd.Replayable)
    (hch : Changes ∅ s s') :
    let s'' := if s.dirty < s'.dirty then s'.propagate (s'.clients c).db (.command cmd) else s'
    Kept K E s'' ∧ Emits s s'' := by
  have hshown := hlive'.shown_eq
  have hold := hlive.noEmpty.shown_eq
  dsimp only
  split_ifs with hdirty
  · have heffect : s'.lookupKey = cmd.effect (s.clients c).db s.lookupKey :=
      (hstep.effect.resolve_left fun heq => absurd heq.1 hdirty.ne').2
    refine ⟨⟨h.ledger.booked ?_ hch.quiet.blockingKeys ?_, fun x => hch.quiet.sound x (h.sound x)⟩,
      [((s'.clients c).db, cmd)], ?_, ?_⟩
    · exact hstep.booked.trans (.of_eq rfl rfl)
    · change Keyspace.shown s'.lookupKey = replayed (s'.propagated ++ [((s'.clients c).db, .command cmd)]) K
      rw [hstep.propagated, replayed_append, ← h.ledger.keys, hshown, hold, hch.quiet.db c]
      exact heffect
    · change s'.propagated ++ _ = _
      rw [hstep.propagated]
      rfl
    · intro q hq
      rw [List.mem_singleton.mp hq]
      exact hcmd hdirty
  · have hsame : s'.lookupKey = s.lookupKey := (hstep.effect.resolve_right fun hlt => hdirty hlt.1).2
    refine ⟨⟨h.ledger.booked hstep.booked hch.quiet.blockingKeys ?_, fun x => hch.quiet.sound x (h.sound x)⟩,
      .of_eq hstep.propagated⟩
    rw [hstep.propagated, hsame]
    exact h.ledger.keys

theorem Kept.blockForKeys (h : Kept K E s) (hb : BlockTables s) (hc : (s.clients c).blocked = false) (keys : List Key)
    (target : Option Key) (htarget : target ≠ none → popSide (s.clients c).lastcmd = .tail) :
    Kept K E (blockForKeys c keys target s) := by
  refine ⟨h.ledger.blockForKeys hb hc keys target, fun x => ?_⟩
  obtain ⟨B, -, hsame⟩ := (blockForKeys_spec hb hc keys target).same
  have hclients : (Clients.blockForKeys c keys target s).clients = update s.clients c
      { s.clients c with bpopKeys := B, bpopTarget := target, blocked := true } := by rw [hsame]
  exact sound_update h.sound hclients ⟨fun hne => ⟨rfl, htarget hne⟩, (h.sound c).commands⟩ x

theorem Kept.call (h : Kept K E s) (hlive : Live s) (hc : (s.clients c).blocked = false) (hcmd : cmd.OnLists)
    (hlast : (s.clients c).multi = true ∨ (s.clients c).lastcmd = some (.command cmd))
    (hcall : call O c s cmd = some s') : Kept K E s' ∧ Emits s s' := by
  obtain ⟨r, hr, hs'⟩ := map_eq_some_iff.mp hcall
  have hproc := listProc hcmd hlive.watch hr
  have hlive1 := hlive.procStep hc (proc_step hr)
  rw [← hs']
  cases hproc with
  | step s1 cmd' hreplay hstep hch => exact h.step hlive hlive1.noEmpty hstep hreplay hch
  | idle s1 cmd' hidle =>
    rw [if_neg (by rw [hidle.dirty]; exact lt_irrefl _)]
    exact ⟨h.idle hidle, .of_eq hidle.propagated⟩
  | blocks keys target cmd' hmulti htarget =>
    have hlast' : (s.clients c).lastcmd = some (.command cmd) := hlast.resolve_left (by simp [hmulti])
    have hkept := h.blockForKeys hlive.serving.block hc keys target (by rw [hlast']; exact htarget)
    obtain ⟨B, -, hsame⟩ := (blockForKeys_spec hlive.serving.block hc keys target).same
    have hdirty : (Clients.blockForKeys c keys target s).dirty = s.dirty := by rw [hsame]
    rw [if_neg (by dsimp only; omega)]
    exact ⟨hkept, .of_eq (by rw [hsame])⟩

/-! ### Serving blocked clients -/

theorem Unblocked.sound (hu : Unblocked c s s') (h : ∀ x, Sound (s.clients x)) (x : ClientId) :
    Sound (s'.clients x) := by
  have hclients : s'.clients = update s.clients c
      { s.clients c with bpopKeys := ∅, bpopTarget := none, blocked := false } := by rw [hu.same]
  exact sound_update h hclients ⟨fun hne => absurd rfl hne, (h c).commands⟩ x

theorem Ledger.served {H : List (Event n)} (h : Ledger K E s) (hhead : (waiting s d key).head? = some c)
    (hhistory : s'.history = s.history ++ .served c d key :: H) (hplain : ∀ e ∈ H, e.Plain)
    (hsum : contents s.dict + sumOver Event.pushedElements H =
      contents s'.dict + sumOver Event.returnedElements H + sumOver Event.removedElements H)
    (hwait : ∀ d k, waiting s' d k = (waiting s d k).erase c)
    (hkeys : Keyspace.shown s'.lookupKey = replayed s'.propagated K) : Ledger K E s' := by
  refine ⟨?_, fun d' k' => ?_, ?_, hkeys⟩
  · rw [hhistory]
    refine balance_append h.balance ?_
    simpa [Event.pushedElements, Event.returnedElements, Event.removedElements] using hsum
  · rw [hwait, hhistory, waitingOf_append, List.foldl_cons, queue_plain hplain, h.queue d' k']
    rfl
  · rw [hhistory]
    refine h.order.append fun before c' d' k' after heq => ?_
    cases before with
    | nil =>
      obtain ⟨he, -⟩ := List.cons.inj heq
      cases he
      rw [List.append_nil, ← h.queue]
      exact hhead
    | cons e before =>
      obtain ⟨-, hH⟩ := List.cons.inj heq
      exact absurd (hplain (.served c' d' k') (by simp [hH])) id

/-- The push that a client has asked for, on lists of which the empty ones do not count. -/
theorem shown_push (K : Keyspace n) {dst : Key} (value : Bytes) {dstobj : Option (List Bytes)}
    (hdst : K d dst = dstobj.map .list) :
    Keyspace.shown (K.set d dst (some (.list (value :: dstobj.getD [])))) = pushEffect d .head dst [value] K.shown := by
  have hshown : K.shown d dst = shownValue (dstobj.map .list) := by
    unfold Keyspace.shown
    rw [hdst]
  rw [shown_set, shownValue_list]
  cases dstobj with
  | none => simp [pushEffect, hshown, shownValue, listKey, pushAll, listTypePush]
  | some m =>
    rw [map_some, shownValue_list] at hshown
    cases m <;> simp [pushEffect, hshown, listKey, pushAll, listTypePush]

theorem shown_pop {side : Side} {value : Bytes} (K : Keyspace n) (hl : K d key = some (.list l))
    (hpop : listTypePop side l = some (value, l')) :
    Keyspace.shown (K.set d key (some (.list l'))) = popEffect d side key K.shown := by
  have hne : l ≠ [] := fun hnil => by
    rw [(listTypePop_eq_none side).mpr hnil] at hpop
    cases hpop
  have hshown : K.shown d key = some (.list l) := by
    unfold Keyspace.shown
    rw [hl, shownValue_list]
    cases l with
    | nil => exact absurd rfl hne
    | cons x l => rfl
  rw [shown_set, shownValue_list]
  simp [popEffect, hshown, hpop]

theorem Kept.firstServed (h : Kept K E s) (hb : BlockTables s) (hl : s.lookupKey d key = some (.list l))
    (hf : FirstServed d key l s s') : Kept K E s' ∧ Emits s s' := by
  obtain ⟨receiver, rest, value, l', s1, hwait, hpop, hu, rfl⟩ := hf.steps
  set side := popSide (s.clients receiver).lastcmd
  set target := (s.clients receiver).bpopTarget
  set s2 := s1.record (.served receiver d key) with hs2
  have hmem : receiver ∈ waiting s d key := by simp [hwait]
  have hhead : (waiting s d key).head? = some receiver := by simp [hwait]
  have hdict2 : s2.dict = (s.store d key (.list l')).dict := by
    rw [hs2, hu.same]
    rfl
  have hlookup2 : s2.lookupKey = Keyspace.set s.lookupKey d key (some (.list l')) :=
    (hu.lookupKey).trans (lookupKey_store s d key (.list l'))
  have hhistory2 : s2.history = s.history ++ [.served receiver d key] := by
    change s1.history ++ _ = _
    rw [hu.history]
    rfl
  have hpropagated2 : s2.propagated = s.propagated := by
    rw [hs2, hu.same]
    rfl
  have hdb2 : (s2.clients receiver).db = d := (hu.db receiver).trans ((hb.mem receiver d key).mp hmem).1.symm
  have hcontents : contents s.dict = contents s2.dict + {value} := by
    rw [hdict2]
    exact contents_store_popped hl hpop
  have hserve := (changes_serveOrUndo receiver (s := s2) (by rw [hlookup2, set_self])
    target value side).quiet
  have hwait2 : ∀ d' k', waiting (serveOrUndo receiver key target d value side l' s2) d' k' =
      (waiting s d' k').erase receiver := by
    intro d' k'
    unfold waiting
    rw [hserve.blockingKeys]
    exact hu.waiting d' k'
  have hsound : ∀ x, Sound ((serveOrUndo receiver key target d value side l' s2).clients x) := by
    intro x
    refine hserve.sound x ?_
    exact hu.sound h.sound x
  rcases serveOrUndo_cases receiver key target d value side l' s2 with
    ⟨-, heq⟩ | ⟨dst, dstobj, htarget, hdst, heq⟩ | ⟨dst, v, -, -, -, heq⟩
  · rw [heq] at hwait2 hsound ⊢
    refine ⟨⟨h.ledger.served (H := [.returned value]) hhead ?_ ?_ ?_ hwait2 ?_, hsound⟩,
      [(d, .pop side key)], ?_, ?_⟩
    · change s2.history ++ _ = _
      rw [hhistory2]
      simp
    · simp [Event.Plain]
    · change _ = contents s2.dict + _ + _
      simpa [Event.pushedElements, Event.returnedElements, Event.removedElements] using hcontents
    · change Keyspace.shown s2.lookupKey = replayed (s2.propagated ++ [(d, .command (.pop side key))]) K
      rw [hpropagated2, replayed_append, ← h.ledger.keys, hlookup2]
      exact shown_pop s.lookupKey hl hpop
    · change s2.propagated ++ _ = _
      rw [hpropagated2]
      rfl
    · intro q hq
      rw [List.mem_singleton.mp hq]
      trivial
  -- the client that has a destination pops at the tail
  · have htail : side = .tail := ((h.sound receiver).target (by change target ≠ none; simp [htarget])).2
    rw [htail] at hpop
    rw [hdb2] at hdst
    obtain ⟨-, hhistory3, hpropagated3⟩ := rpoplpushHandlePush_same receiver dst dstobj value
      (s2.propagate d (.command (.pop .tail key)))
    set s3 := rpoplpushHandlePush receiver dst dstobj value _ with hs3
    rw [heq] at hwait2 hsound ⊢
    refine ⟨⟨h.ledger.served (H := []) hhead ?_ ?_ ?_ hwait2 ?_, hsound⟩,
      [(d, .pop .tail key), (d, .push .head dst [value])], ?_, ?_⟩
    · change s3.history = _
      rw [hhistory3]
      exact hhistory2
    · simp
    · change _ = contents s3.dict + _ + _
      rw [hs3, contents_rpoplpushHandlePush dst value
        (by change s2.lookupKey (s2.clients receiver).db dst = _; rwa [hdb2])]
      change _ = contents s2.dict + {value} + _ + _
      simpa using hcontents
    · change Keyspace.shown s3.lookupKey = replayed (s3.propagated ++ _) K
      rw [hpropagated3, hs3, lookupKey_rpoplpushHandlePush]
      change Keyspace.shown (Keyspace.set s2.lookupKey (s2.clients receiver).db dst _) =
        replayed ((s2.propagated ++ [(d, .command (.pop .tail key))]) ++ [(d, .command (.push .head dst [value]))]) K
      rw [hdb2, shown_push s2.lookupKey value hdst, hpropagated2, replayed_append, replayed_append, ← h.ledger.keys,
        hlookup2, shown_pop s.lookupKey hl hpop]
      rfl
    · change s3.propagated ++ _ = _
      rw [hpropagated3]
      change (s2.propagated ++ _) ++ _ = _
      rw [hpropagated2, List.append_assoc]
      rfl
    · intro q hq
      rcases List.mem_cons.mp hq with rfl | hq
      · trivial
      · rw [List.mem_singleton.mp hq]
        trivial
  · rw [heq, listTypePush_of_pop hpop] at hwait2 hsound ⊢
    have hback : ((s2.addReply receiver .wrongtypeerr).store d key (.list l)).lookupKey = s.lookupKey := by
      rw [lookupKey_store, lookupKey_addReply, hlookup2, set_set, set_eq_self hl]
    refine ⟨⟨h.ledger.served (H := []) hhead hhistory2 (by simp) ?_ hwait2 ?_, hsound⟩, .of_eq hpropagated2⟩
    · have hl2 : (s2.addReply receiver .wrongtypeerr).lookupKey d key = some (.list l') := by
        rw [lookupKey_addReply, hlookup2, set_self]
      simpa using hcontents.trans (contents_store_list hl2 (coe_listTypePop hpop)).symm
    · rw [hback]
      change _ = replayed s2.propagated K
      rw [hpropagated2]
      exact h.ledger.keys

theorem Kept.serveStep (h : Kept K E s) (hstep : ServeStep s s') : Kept K E s' ∧ Emits s s' := by
  cases hstep with
  | first d key l hb hl hf => exact h.firstServed hb hl hf
  | dropped d key hl hs' =>
    have hdelete := contents_dbDelete s d key
    rw [hl] at hdelete
    rw [hs']
    refine ⟨⟨h.ledger.booked (.of_eq rfl ?_) rfl ?_, h.sound⟩, .of_eq rfl⟩
    · simpa [part, elements] using hdelete
    · rw [lookupKey_dbDelete, shown_set]
      rw [set_eq_self (by unfold Keyspace.shown; rw [hl]; rfl)]
      exact h.ledger.keys
  | tables hs' =>
    rw [hs']
    exact ⟨⟨h.ledger.congr rfl rfl rfl rfl, h.sound⟩, .of_eq rfl⟩

theorem Kept.serveSteps (h : Kept K E s) (hsteps : ServeSteps s s') : Kept K E s' ∧ Emits s s' := by
  induction hsteps with
  | refl => exact ⟨h, .of_eq rfl⟩
  | tail _ hstep ih =>
    obtain ⟨hkept, hemits⟩ := ih
    obtain ⟨hkept', hemits'⟩ := hkept.serveStep hstep
    exact ⟨hkept', hemits.trans hemits'⟩

/-! ### Whole runs -/

/-- What has been propagated: commands, and transactions of them. -/
inductive Bracketed : List (DbId n × Propagated) → Prop
  | nil : Bracketed []
  | command {L : List (DbId n × Propagated)} (d : DbId n) (cmd : Command) (hcmd : cmd.Replayable) (h : Bracketed L) :
      Bracketed (L ++ [(d, .command cmd)])
  | transaction {L : List (DbId n × Propagated)} (d d' : DbId n) (B : List (DbId n × Command))
      (hB : ∀ q ∈ B, q.2.Replayable) (h : Bracketed L) :
      Bracketed (L ++ ((d, .multi) :: asPropagated B ++ [(d', .exec)]))

theorem Bracketed.append_commands {L : List (DbId n × Propagated)} {B : List (DbId n × Command)} (h : Bracketed L)
    (hB : ∀ q ∈ B, q.2.Replayable) : Bracketed (L ++ asPropagated B) := by
  induction B generalizing L with
  | nil => rwa [asPropagated, List.map_nil, List.append_nil]
  | cons q B ih =>
    have := ih (h.command q.1 q.2 (hB q (by simp))) (List.forall_mem_cons.mp hB).2
    rwa [List.append_assoc] at this

structure Booking (K : Keyspace n) (E : Multiset Bytes) (s : Server n) : Prop where
  resting : Resting s
  kept : Kept K E s
  bracketed : Bracketed s.propagated

theorem Bracketed.emits (h : Bracketed s.propagated) (he : Emits s s') : Bracketed s'.propagated := by
  obtain ⟨B, hB, hcmd⟩ := he
  rw [hB]
  exact h.append_commands hcmd

theorem Bracketed.idle (h : Bracketed s.propagated) (hi : Idle s s') : Bracketed s'.propagated := by
  rw [hi.propagated]
  exact h

theorem Kept.calls {cmds : List Command} (h : Kept K E s) (hcmds : ∀ cmd ∈ cmds, cmd.OnLists)
    (hcalls : Relation.ReflTransGen (CallStep O c cmds) s s') : Kept K E s' ∧ Emits s s' := by
  induction hcalls with
  | refl => exact ⟨h, .of_eq rfl⟩
  | tail _ hcall ih =>
    obtain ⟨hlive, hmulti, hc, cmd, hcmd, hcall⟩ := hcall
    obtain ⟨hkept, hemits⟩ := ih
    obtain ⟨hkept', hemits'⟩ := hkept.call hlive hc (hcmds cmd hcmd) (Or.inl hmulti) hcall
    exact ⟨hkept', hemits.trans hemits'⟩

theorem Kept.executed (h : Kept K E s) (hbracketed : Bracketed s.propagated) (hs' : Executed O c s s') :
    Kept K E s' ∧ Bracketed s'.propagated := by
  cases hs' with
  | @empty s1 _ hu hl hs' =>
    have hidle := ((idle_unwatched hu).trans (idle_addReply s1 c (.multiBulkLen 0))).trans
      (idle_discardTransaction (hl.addReply c _) hs')
    exact ⟨h.idle hidle, hbracketed.idle hidle⟩
  | @queue s1 s3 s4 hu hl hcalls hl3 h4 =>
    have hidle2 := (idle_unwatched hu).trans (idle_addReply s1 c (.multiBulkLen (s.clients c).commands.length))
    set s2 := s1.addReply c (.multiBulkLen (s.clients c).commands.length)
    have hkept2 : Kept K E (s2.propagate (s.clients c).db .multi) :=
      ⟨(h.idle hidle2).ledger.bracket _ fun _ => rfl, (h.idle hidle2).sound⟩
    obtain ⟨hkept3, B, hB, hcmd⟩ := hkept2.calls (h.sound c).commands hcalls
    have hidle4 := idle_discardTransaction hl3 h4
    have hkept4 := hkept3.idle hidle4
    have hledger5 : Ledger K E (s4.addDirty 1) := hkept4.ledger.congr rfl rfl rfl rfl
    refine ⟨⟨hledger5.bracket _ fun _ => rfl, hkept4.sound⟩, ?_⟩
    have hpropagated : ((s4.addDirty 1).propagate (s4.clients c).db .exec).propagated =
        s.propagated ++ (((s.clients c).db, .multi) :: asPropagated B ++ [((s4.clients c).db, .exec)]) := by
      change s4.propagated ++ _ = _
      rw [hidle4.propagated, hB]
      change ((s2.propagated ++ _) ++ _) ++ _ = _
      rw [hidle2.propagated]
      simp
    rw [hpropagated]
    exact hbracketed.transaction _ _ B hcmd

theorem Kept.requested {r : Request} (h : Kept K E s) (hlive : Live s) (hc : (s.clients c).blocked = false)
    (hbracketed : Bracketed s.propagated) (hr : r.OnLists) (hlast : (s.clients c).lastcmd = some r)
    (hs' : Requested O c s r s') : Kept K E s' ∧ Bracketed s'.propagated := by
  have hidle {s' : Server n} (hi : Idle s s') : Kept K E s' ∧ Bracketed s'.propagated :=
    ⟨h.idle hi, hbracketed.idle hi⟩
  cases hs' with
  | replied _ rep => exact hidle (idle_addReply s c rep)
  | watched keys => exact hidle ((idle_watchAll c keys s).trans (idle_addReply _ c _))
  | flagged _ f rep hf hcommands =>
    refine hidle ((idle_setClient s c f fun hsound => ⟨?_, fun cmd hcmd => ?_⟩).trans (idle_addReply _ c rep))
    · rw [hf]
      exact hsound.target
    · rcases hcommands _ cmd hcmd with hcmd | rfl
      · exact hsound.commands cmd hcmd
      · exact hr
  | aborted rep hs' => exact hidle ((idle_addReply s c rep).trans (idle_discardTransaction (hlive.addReply c rep) hs'))
  | discarded hs' => exact hidle ((idle_discardTransaction hlive hs').trans (idle_addReply _ c .ok))
  | executed hs' => exact h.executed hbracketed hs'
  | called cmd hs' =>
    obtain ⟨hkept, hemits⟩ := h.call hlive hc hr (Or.inr hlast) hs'
    exact ⟨hkept, hbracketed.emits hemits⟩

theorem Kept.released (h : Kept K E s) (hbracketed : Bracketed s.propagated) (hu : Unblocked c s s') :
    Kept K E (s'.record (.released c)) ∧ Bracketed (s'.record (.released c)).propagated := by
  have hdict : s'.dict = s.dict := by rw [hu.same]
  have hpropagated : s'.propagated = s.propagated := by rw [hu.same]
  refine ⟨⟨⟨?_, fun d k => ?_, ?_, ?_⟩, hu.sound h.sound⟩, ?_⟩
  · change E + sumOver _ (s'.history ++ _) = contents s'.dict + sumOver _ (s'.history ++ _) +
      sumOver _ (s'.history ++ _)
    rw [hu.history, hdict]
    simpa [Event.pushedElements, Event.returnedElements, Event.removedElements] using h.ledger.balance
  · change waiting s' d k = waitingOf d k (s'.history ++ [.released c])
    rw [hu.waiting, hu.history, waitingOf_append, h.ledger.queue]
    rfl
  · change InOrder (s'.history ++ [.released c])
    rw [hu.history]
    refine h.ledger.order.append fun before c' d k after heq => ?_
    cases before with
    | nil => cases heq
    | cons e before => simp at heq
  · change Keyspace.shown s'.lookupKey = replayed s'.propagated K
    rw [hu.lookupKey, hpropagated]
    exact h.ledger.keys
  · change Bracketed s'.propagated
    rw [hpropagated]
    exact hbracketed

theorem Booking.stepped {i : Input} (h : Booking K E s) (hi : i.OnLists) (hrest : Resting s') (hs' : Stepped O s i s') :
    Booking K E s' := by
  suffices hboth : Kept K E s' ∧ Bracketed s'.propagated from ⟨hrest, hboth.1, hboth.2⟩
  cases hs' with
  | ignored => exact ⟨h.kept, h.bracketed⟩
  | @requested c r s1 _ hc hlive hr _ hserve =>
    have hidle0 : Idle s (s.setClient c fun cl => { cl with lastcmd := some r }) := by
      refine idle_setClient s c _ fun hsound => ⟨fun hne => ?_, hsound.commands⟩
      exact absurd (hsound.target hne).1 (by simp [hc])
    obtain ⟨hkept1, hbracketed1⟩ := (h.kept.idle hidle0).requested hlive (by simpa [Server.setClient] using hc)
      (h.bracketed.idle hidle0) hi (by simp [Server.setClient]) hr
    obtain ⟨hkept2, hemits⟩ := hkept1.serveSteps hserve
    exact ⟨hkept2, hbracketed1.emits hemits⟩
  | timedOut c hu => exact (h.kept.idle (idle_addReply s c .nullmultibulk)).released h.bracketed hu
  | @freed c s1 s2 h1 hu =>
    have hfirst : Kept K E s1 ∧ Bracketed s1.propagated := by
      rcases h1 with rfl | ⟨s0, hu0, rfl⟩
      · exact ⟨h.kept, h.bracketed⟩
      · exact h.kept.released h.bracketed hu0
    have hidle := (idle_unwatched hu).trans (idle_setClient s2 c (fun _ => createClient) fun _ => sound_createClient)
    exact ⟨hfirst.1.idle hidle, hfirst.2.idle hidle⟩

theorem Booking.run (is : List Input) (h : Booking K E s) (his : ∀ i ∈ is, i.OnLists) :
    ∃ s', run O is s = some s' ∧ Booking K E s' := by
  induction is generalizing s with
  | nil => exact ⟨s, rfl, h⟩
  | cons i is ih =>
    obtain ⟨s1, h1, hrest, hstep⟩ := exec_spec (O := O) h.resting i
    obtain ⟨s2, h2, hbooking⟩ := ih (h.stepped (his i (by simp)) hrest hstep) (List.forall_mem_cons.mp his).2
    exact ⟨s2, by rw [Clients.run, h1]; exact h2, hbooking⟩

end RedisIR.Clients
