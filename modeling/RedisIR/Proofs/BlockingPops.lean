import RedisIR.Proofs.ListRuns

/-! The blocking pops: no element is lost or comes twice, clients are served in the order in which
they were blocked, and the propagated commands lead another server to the same lists. -/

namespace RedisIR.Clients

open CLib Server Keyspace TableSum List Option

variable {n : ℕ} {s s' t t' : Server n} {O : IterOrder} {m : Bool} {cmds : List Command} {cmd : Command}

def Propagated.request : Propagated → Request
  | .multi => .multi
  | .exec => .exec
  | .command cmd => .command cmd

/-- What has been propagated, sent by one client of another server; each command in its database. -/
def replayInputs (L : List (DbId n × Propagated)) : List Input :=
  L.flatMap fun p => [.request 0 (.command (.select p.1.val)), .request 0 p.2.request]

/-! ### A server with one client -/

/-- Nobody is blocked, and the client has only its database and the transaction that it is in. -/
structure Apart (m : Bool) (cmds : List Command) (t : Server n) : Prop where
  live : Live t
  ready : t.readyKeys = []
  nobody : ∀ d k, (t.blockingKeys d).lookup k = none
  client : t.clients 0 =
    { createClient with db := (t.clients 0).db, multi := m, commands := cmds, lastcmd := (t.clients 0).lastcmd }

variable (D : Dataset n) (B : List (DbId n × Command))

theorem apart_start : Apart false [] (Server.start D.dict) :=
  ⟨(resting_start D).live, rfl, fun _ _ => rfl, rfl⟩

section

variable (h : Apart m cmds t)
include h

theorem Apart.blocked : (t.clients 0).blocked = false := by
  rw [h.client]
  rfl

theorem Apart.multi : (t.clients 0).multi = m := by rw [h.client]

/-- A command that blocks nobody: the client is not watching, so it is not touched either. -/
theorem Apart.changes (hch : Changes ∅ t t') (hempty : NoEmpty t'.lookupKey) : Apart m cmds t' := by
  have hready : t'.readyKeys = [] := by
    rw [eq_nil_iff_forall_not_mem]
    intro p hp
    rcases hch.quiet.signals p hp with hp | hp
    · rw [h.ready] at hp
      cases hp
    · exact hp (h.nobody p.1 p.2)
  have hown : (t.clients 0).watchedKeys = [] := by
    rw [h.client]
    rfl
  have hcas : (t'.clients 0).dirtyCas = false := by
    by_contra hne
    rcases hch.watchful.onlyWatchers 0 (by simpa using hne) with hold | ⟨d, k, hmem | hmem⟩
    · rw [h.client] at hold
      cases hold
    · rw [← ClientTable.get, ← watchers, h.live.watch.mem, hown] at hmem
      cases hmem
    · rw [hown] at hmem
      cases hmem
  refine ⟨h.live.of_changes hch hempty, hready, fun d k => ?_, ?_⟩
  · rw [hch.quiet.blockingKeys]
    exact h.nobody d k
  · have hclient := hch.quiet.clients 0
    rw [hcas, h.client] at hclient
    rw [hclient]
    rfl

theorem Apart.addReply (r : Reply) : Apart m cmds (t.addReply 0 r) :=
  h.changes changes_addReply h.live.noEmpty

theorem Apart.setClient {m' : Bool} {cmds' : List Command} (f : Client n → Client n)
    (hf : ∀ cl, (f cl).bpopKeys = cl.bpopKeys ∧ (f cl).blocked = cl.blocked ∧ (f cl).watchedKeys = cl.watchedKeys)
    (hclient : f (t.clients 0) = { createClient with
      db := (f (t.clients 0)).db, multi := m', commands := cmds', lastcmd := (f (t.clients 0)).lastcmd }) :
    Apart m' cmds' (t.setClient 0 f) := by
  refine ⟨h.live.setClient 0 f fun cl => ⟨Or.inr h.blocked, hf cl⟩, h.ready, h.nobody, ?_⟩
  simpa [Server.setClient] using hclient

theorem Apart.lastcmd (r : Request) : Apart m cmds (t.setClient 0 fun cl => { cl with lastcmd := some r }) :=
  h.setClient _ (fun _ => ⟨rfl, rfl, rfl⟩) (by rw [h.client])

theorem Apart.exec {r : Request}
    (ht' : processRequest O 0 (t.setClient 0 fun cl => { cl with lastcmd := some r }) r = some t')
    (hready : t'.readyKeys = []) : (Input.request 0 r).exec O t = some t' := by
  simp only [Input.exec, h.blocked, Bool.false_eq_true, if_false, processCommand, ht', bind_some]
  exact handle_of_nil hready

end

/-! ### The commands of a replay -/

theorem selectDb_val (d : DbId n) : selectDb (d.val : ℤ) = some d := by
  unfold selectDb
  have hlt : 0 ≤ (d.val : ℤ) ∧ (d.val : ℤ) < n + 1 := by
    omega
  rw [dif_pos hlt]
  simp

theorem Apart.call_select (h : Apart m cmds t) (d : DbId n) :
    ∃ t', call O 0 t (.select d.val) = some t' ∧ Apart m cmds t' ∧ (t'.clients 0).db = d ∧
      t'.lookupKey = t.lookupKey := by
  refine ⟨(t.setClient 0 fun cl => { cl with db := d }).addReply 0 .ok, ?_, ?_, ?_, rfl⟩
  · simp [call, Command.proc, selectCommand, selectDb_val, Server.addReply, Server.setClient]
  · refine Apart.addReply (h.setClient _ ?_ ?_) .ok
    · exact fun _ => ⟨rfl, rfl, rfl⟩
    · rw [h.client]
  · simp [Server.setClient, Server.addReply]

theorem proc_replayable (hcmd : cmd.Replayable) (c : ClientId) (t : Server n) :
    ∃ t', cmd.proc O c t = some (t', cmd) ∧ Changes ∅ t t' ∧
      t'.lookupKey = cmd.effect (t.clients c).db t.lookupKey := by
  cases cmd with
  | push side key values =>
    exact ⟨_, rfl, changes_pushGenericCommand c side key values t, lookupKey_pushGenericCommand c side key values t⟩
  | pushx side key values =>
    exact ⟨_, rfl, changes_pushxGenericCommand c side key values t,
      lookupKey_pushxGenericCommand c side key values t⟩
  | pop side key => exact ⟨_, rfl, changes_popGenericCommand c side key t, lookupKey_popGenericCommand c side key t⟩
  | rpoplpush src dst => exact ⟨_, rfl, changes_rpoplpushCommand c src dst t,
      lookupKey_rpoplpushCommand c src dst t⟩
  | del keys => exact ⟨_, rfl, changes_delGenericCommand c keys t, lookupKey_delLoop _ keys 0 t⟩
  | _ => exact absurd hcmd id

theorem Apart.call (h : Apart m cmds t) (hcmd : cmd.Replayable) :
    ∃ t', call O 0 t cmd = some t' ∧ Apart m cmds t' ∧
      t'.lookupKey = cmd.effect (t.clients 0).db t.lookupKey := by
  obtain ⟨t1, hproc, hch, hlookup⟩ := proc_replayable (O := O) hcmd 0 t
  have hlive := h.live.procStep h.blocked (proc_step hproc)
  have h1 := h.changes hch hlive.noEmpty
  unfold Clients.call
  rw [hproc, map_some]
  dsimp only
  split_ifs
  · exact ⟨_, rfl, h1.changes changes_propagate h1.live.noEmpty, hlookup⟩
  · exact ⟨t1, rfl, h1, hlookup⟩

def queuedCommands (B : List (DbId n × Command)) : List Command := B.flatMap fun q => [.select q.1.val, q.2]

/-- The database of `EXEC` is selected as well. -/
def queueOf (B : List (DbId n × Command)) (d : DbId n) : List Command := queuedCommands B ++ [.select d.val]

theorem Apart.callAll (hB : ∀ q ∈ B, q.2.Replayable) (d : DbId n) (h : Apart m cmds t) :
    ∃ t', callAll O 0 (queueOf B d) t = some t' ∧ Apart m cmds t' ∧
      t'.lookupKey = replayed (asPropagated B) t.lookupKey := by
  induction B generalizing t with
  | nil =>
    obtain ⟨t1, h1, hapart, -, hlookup⟩ := h.call_select (O := O) d
    refine ⟨t1, ?_, hapart, hlookup⟩
    simp only [queueOf, queuedCommands, flatMap_nil, nil_append, Clients.callAll, h1]
    rfl
  | cons q B ih =>
    obtain ⟨t1, h1, hapart1, hdb1, hlookup1⟩ := h.call_select (O := O) q.1
    obtain ⟨t2, h2, hapart2, hlookup2⟩ := hapart1.call (O := O) (hB q (by simp))
    obtain ⟨t3, h3, hapart3, hlookup3⟩ := ih (forall_mem_cons.mp hB).2 hapart2
    refine ⟨t3, ?_, hapart3, ?_⟩
    · rw [queueOf, queuedCommands, flatMap_cons, append_assoc]
      simp only [cons_append, nil_append, Clients.callAll, h1, h2, bind_some]
      exact h3
    · rw [hlookup3, hlookup2, hdb1, hlookup1]
      rfl

/-! ### Requests -/

theorem Apart.exec_select (h : Apart false cmds t) (d : DbId n) :
    ∃ t', (Input.request 0 (.command (.select d.val))).exec O t = some t' ∧ Apart false cmds t' ∧
      (t'.clients 0).db = d ∧ t'.lookupKey = t.lookupKey := by
  have h0 := h.lastcmd (.command (.select d.val))
  obtain ⟨t1, h1, hapart, hdb, hlookup⟩ := h0.call_select (O := O) d
  refine ⟨t1, h.exec ?_ hapart.ready, hapart, hdb, hlookup⟩
  simp only [processRequest, h0.multi, Bool.false_eq_true, if_false]
  exact h1

theorem Apart.exec_command (h : Apart false cmds t) (hcmd : cmd.Replayable) :
    ∃ t', (Input.request 0 (.command cmd)).exec O t = some t' ∧ Apart false cmds t' ∧
      t'.lookupKey = cmd.effect (t.clients 0).db t.lookupKey := by
  have h0 := h.lastcmd (.command cmd)
  obtain ⟨t1, h1, hapart, hlookup⟩ := h0.call (O := O) hcmd
  refine ⟨t1, h.exec ?_ hapart.ready, hapart, ?_⟩
  · simp only [processRequest, h0.multi, Bool.false_eq_true, if_false]
    exact h1
  · rw [hlookup]
    simp [Server.setClient]
    rfl

theorem Apart.exec_multi (h : Apart false cmds t) :
    ∃ t', (Input.request 0 .multi).exec O t = some t' ∧ Apart true cmds t' ∧ t'.lookupKey = t.lookupKey := by
  have h0 := h.lastcmd .multi
  have h1 : Apart true cmds (((t.setClient 0 fun cl => { cl with lastcmd := some .multi }).setClient 0
      fun cl => { cl with multi := true }).addReply 0 .ok) := by
    refine Apart.addReply (h0.setClient _ ?_ ?_) .ok
    · exact fun _ => ⟨rfl, rfl, rfl⟩
    · rw [h0.client]
  refine ⟨_, h.exec ?_ h1.ready, h1, rfl⟩
  simp [processRequest, multiCommand, h0.multi, Bool.false_eq_true]

theorem Apart.exec_queue (h : Apart true cmds t) (cmd : Command) :
    ∃ t', (Input.request 0 (.command cmd)).exec O t = some t' ∧ Apart true (cmds ++ [cmd]) t' ∧
      t'.lookupKey = t.lookupKey := by
  have h0 := h.lastcmd (.command cmd)
  have h1 : Apart true (cmds ++ [cmd]) (queueMultiCommand 0 cmd
      (t.setClient 0 fun cl => { cl with lastcmd := some (.command cmd) })) := by
    refine Apart.addReply (h0.setClient _ ?_ ?_) .queued
    · exact fun _ => ⟨rfl, rfl, rfl⟩
    · rw [h0.client]
  refine ⟨_, h.exec ?_ h1.ready, h1, rfl⟩
  simp [processRequest, h0.multi]

theorem Apart.unwatch (h : Apart m cmds t) : unwatchAllKeys 0 t = some t := by
  unfold unwatchAllKeys
  rw [h.client]
  rfl

theorem Apart.discard (h : Apart m cmds t) :
    ∃ t', discardTransaction 0 t = some t' ∧ Apart false [] t' ∧ t'.lookupKey = t.lookupKey := by
  have h1 : Apart false [] (t.setClient 0 fun cl =>
      { cl with commands := [], multi := false, dirtyCas := false, dirtyExec := false }) :=
    h.setClient _ (fun _ => ⟨rfl, rfl, rfl⟩) (by rw [h.client]; rfl)
  exact ⟨_, h1.unwatch, h1, rfl⟩

/-- The transaction is not aborted, and does what its commands do. -/
theorem Apart.exec_exec {B : List (DbId n × Command)} (hB : ∀ q ∈ B, q.2.Replayable) (d : DbId n)
    (h : Apart true (queueOf B d) t) : ∃ t', (Input.request 0 .exec).exec O t = some t' ∧ Apart false [] t' ∧
      t'.lookupKey = replayed (asPropagated B) t.lookupKey := by
  have h0 := h.lastcmd .exec
  set t0 := t.setClient 0 fun cl => { cl with lastcmd := some .exec }
  have h1 := h0.addReply (.multiBulkLen (queueOf B d).length)
  set t1 := t0.addReply 0 (.multiBulkLen (queueOf B d).length) with ht1
  have h2 := h1.changes (changes_propagate (d := (t0.clients 0).db) (p := .multi)) h1.live.noEmpty
  obtain ⟨t3, hrun3, h3, hlookup3⟩ := h2.callAll (O := O) B hB d
  obtain ⟨t4, hrun4, h4, hlookup4⟩ := h3.discard
  have h5 := h4.changes ((changes_addDirty (i := 1)).andThen
    (changes_propagate (d := (t4.clients 0).db) (p := .exec))) h4.live.noEmpty
  refine ⟨_, h.exec ?_ h5.ready, h5, hlookup4.trans hlookup3⟩
  have hcommands : (t0.clients 0).commands = queueOf B d := by rw [h0.client]
  have hflags : (t0.clients 0).dirtyCas = false ∧ (t0.clients 0).dirtyExec = false := by
    rw [h0.client]
    exact ⟨rfl, rfl⟩
  obtain ⟨cmd, cmds, hcons⟩ : ∃ cmd cmds, queueOf B d = cmd :: cmds :=
    exists_cons_of_ne_nil (by simp [queueOf])
  change processRequest O 0 t0 .exec = _
  simp only [processRequest, execCommand, h0.multi, hflags.1, hflags.2, execQueue, h0.unwatch, bind_some,
    hcommands, Bool.or_false, Bool.false_eq_true, Bool.true_eq_false, if_false]
  rw [hcons] at hrun3 ht1 ⊢
  dsimp only
  rw [← ht1, hrun3, bind_some, hrun4]
  rfl

/-! ### Replaying everything -/

theorem Apart.queue (h : Apart true cmds t) :
    ∃ t', run O (replayInputs (asPropagated B)) t = some t' ∧ Apart true (cmds ++ queuedCommands B) t' ∧
      t'.lookupKey = t.lookupKey := by
  induction B generalizing t cmds with
  | nil => exact ⟨t, rfl, by simpa [queuedCommands] using h, rfl⟩
  | cons q B ih =>
    obtain ⟨t1, h1, hapart1, hlookup1⟩ := h.exec_queue (O := O) (.select q.1.val)
    obtain ⟨t2, h2, hapart2, hlookup2⟩ := hapart1.exec_queue (O := O) q.2
    obtain ⟨t3, h3, hapart3, hlookup3⟩ := ih hapart2
    refine ⟨t3, ?_, ?_, ?_⟩
    · simp only [asPropagated, map_cons, replayInputs, flatMap_cons, cons_append, nil_append, run,
        Propagated.request, h1, h2, bind_some]
      exact h3
    · simpa [queuedCommands] using hapart3
    · rw [hlookup3, hlookup2, hlookup1]

theorem replayInputs_append (L L' : List (DbId n × Propagated)) :
    replayInputs (L ++ L') = replayInputs L ++ replayInputs L' := flatMap_append

theorem Apart.transaction {B : List (DbId n × Command)} (hB : ∀ q ∈ B, q.2.Replayable) (d d' : DbId n)
    (h : Apart false [] t) :
    ∃ t', run O (replayInputs ((d, .multi) :: asPropagated B ++ [(d', .exec)])) t = some t' ∧ Apart false [] t' ∧
      t'.lookupKey = replayed ((d, .multi) :: asPropagated B ++ [(d', .exec)]) t.lookupKey := by
  obtain ⟨t1, h1, hapart1, -, hlookup1⟩ := h.exec_select (O := O) d
  obtain ⟨t2, h2, hapart2, hlookup2⟩ := hapart1.exec_multi (O := O)
  obtain ⟨t3, h3, hapart3, hlookup3⟩ := hapart2.queue (O := O) B
  obtain ⟨t4, h4, hapart4, hlookup4⟩ := hapart3.exec_queue (O := O) (.select d'.val)
  rw [nil_append] at hapart4
  obtain ⟨t5, h5, hapart5, hlookup5⟩ := hapart4.exec_exec (O := O) hB d'
  refine ⟨t5, ?_, hapart5, ?_⟩
  · have hmulti : run O (replayInputs [(d, .multi)]) t = some t2 := by
      simp [replayInputs, run, Propagated.request, h1, h2]
    have hexec : run O (replayInputs [(d', .exec)]) t3 = some t5 := by
      simp [replayInputs, run, Propagated.request, h4, h5]
    rw [cons_append, ← singleton_append, replayInputs_append, run_append, hmulti, bind_some,
      replayInputs_append, run_append, h3, bind_some, hexec]
  · rw [replayed_append, hlookup5, hlookup4, hlookup3, hlookup2, hlookup1]
    rfl

theorem Apart.command (hcmd : cmd.Replayable) (d : DbId n) (h : Apart false [] t) :
    ∃ t', run O (replayInputs [(d, .command cmd)]) t = some t' ∧ Apart false [] t' ∧
      t'.lookupKey = replayed [(d, .command cmd)] t.lookupKey := by
  obtain ⟨t1, h1, hapart1, hdb, hlookup1⟩ := h.exec_select (O := O) d
  obtain ⟨t2, h2, hapart2, hlookup2⟩ := hapart1.exec_command (O := O) hcmd
  refine ⟨t2, ?_, hapart2, ?_⟩
  · simp [replayInputs, run, Propagated.request, h1, h2]
  · rw [hlookup2, hdb, hlookup1]
    rfl

theorem Apart.replay {L : List (DbId n × Propagated)} (hL : Bracketed L) (h : Apart false [] t) :
    ∃ t', run O (replayInputs L) t = some t' ∧ Apart false [] t' ∧ t'.lookupKey = replayed L t.lookupKey := by
  induction hL with
  | nil => exact ⟨t, rfl, h, rfl⟩
  | command d cmd hcmd _ ih =>
    obtain ⟨t1, h1, hapart1, hlookup1⟩ := ih
    obtain ⟨t2, h2, hapart2, hlookup2⟩ := hapart1.command (O := O) hcmd d
    refine ⟨t2, ?_, hapart2, ?_⟩
    · rw [replayInputs_append, run_append, h1, bind_some, h2]
    · rw [hlookup2, hlookup1, replayed_append]
  | transaction d d' B hB _ ih =>
    obtain ⟨t1, h1, hapart1, hlookup1⟩ := ih
    obtain ⟨t2, h2, hapart2, hlookup2⟩ := hapart1.transaction (O := O) hB d d'
    refine ⟨t2, ?_, hapart2, ?_⟩
    · rw [replayInputs_append, run_append, h1, bind_some, h2]
    · rw [hlookup2, hlookup1]
      exact (replayed_append _ _ _).symm

theorem booking_start : Booking (fun d k => (D.dict d).lookup k) (contents D.dict) (Server.start D.dict) :=
  ⟨resting_start D, ⟨ledger_start D, fun _ => sound_createClient⟩, .nil⟩

/-- After any commands on lists, timeouts and disconnections the server has not ended at an
assertion; a client is in the list of a key exactly if it has the key among its own. The elements that
were there or were pushed are those in the lists, those that were returned and those that `DEL` has
removed. The clients that wait for a key are those that the history has blocked, in that order, and
whoever was served was the first of them. Another server that executes what was propagated has the
same keys. -/
theorem blocking_pops_deliver_once (order : IterOrder) (D : Dataset n) (is : List Input)
    (his : ∀ i ∈ is, i.OnLists) : ∃ s, run order is (Server.start D.dict) = some s ∧
      (∀ c d k, c ∈ waiting s d k ↔ d = (s.clients c).db ∧ k ∈ (s.clients c).bpopKeys) ∧
      contents D.dict + sumOver Event.pushedElements s.history =
        contents s.dict + sumOver Event.returnedElements s.history + sumOver Event.removedElements s.history ∧
      (∀ d k, waiting s d k = waitingOf d k s.history) ∧
      (∀ before c d k after, s.history = before ++ .served c d k :: after →
        (waitingOf d k before).head? = some c) ∧
      ∃ t, run order (replayInputs s.propagated) (Server.start D.dict) = some t ∧ t.lookupKey = s.lookupKey := by
  obtain ⟨s, hrun, hs⟩ := (booking_start D).run (O := order) is his
  have hledger := hs.kept.ledger
  obtain ⟨t, hreplay, -, hlookup⟩ := (apart_start D).replay (O := order) hs.bracketed
  refine ⟨s, hrun, hs.resting.live.serving.block.mem, hledger.balance, hledger.queue, hledger.order, t, hreplay, ?_⟩
  rw [hlookup, ← hs.resting.live.noEmpty.shown_eq, hledger.keys]
  rfl

/-! ### Two clients that wait -/

def keyA : Key := [97]
def keyB : Key := [98]

/-- `BRPOPLPUSH a b` and `BLPOP b a`, then `RPUSH a 1` in a transaction, and `RPUSH a 2`. -/
def twoWaiting : List Input :=
  [.request 1 (.command (.brpoplpush keyA keyB)), .request 2 (.command (.bpop .head keyB [keyA])),
    .request 3 .multi, .request 3 (.command (.push .tail keyA [[49]])), .request 3 .exec,
    .request 3 (.command (.push .tail keyA [[50]]))]

def noKeys : Dataset 0 where
  dict _ := ∅
  noEmpty d key := by simp

/-- The second client gets what the first has pushed to the other list. -/
theorem twoWaiting_delivered : ∃ s, run .ofTable twoWaiting (Server.start noKeys.dict) = some s ∧
      s.history = [.blocked 1 0 [keyA], .blocked 2 0 [keyB, keyA], .pushed [[49]], .served 1 0 keyA, .served 2 0 keyB,
        .returned [49], .pushed [[50]]] ∧ contents s.dict + {[49]} = {[49]} + {[50]} ∧
      ∃ t, run .ofTable (replayInputs s.propagated) (Server.start noKeys.dict) = some t ∧
        t.lookupKey = s.lookupKey := by
  obtain ⟨s, hrun, -, hbalance, -, -, hreplay⟩ := blocking_pops_deliver_once .ofTable noKeys twoWaiting (by
    intro i hi
    simp only [twoWaiting, mem_cons, not_mem_nil, or_false] at hi
    rcases hi with rfl | rfl | rfl | rfl | rfl | rfl <;> trivial)
  have hhistory : s.history = [.blocked 1 0 [keyA], .blocked 2 0 [keyB, keyA], .pushed [[49]], .served 1 0 keyA,
      .served 2 0 keyB, .returned [49], .pushed [[50]]] := by
    have hmap : (run .ofTable twoWaiting (Server.start noKeys.dict)).map (·.history) =
        some [.blocked 1 0 [keyA], .blocked 2 0 [keyB, keyA], .pushed [[49]], .served 1 0 keyA,
          .served 2 0 keyB, .returned [49], .pushed [[50]]] := by decide +kernel
    rw [hrun] at hmap
    exact some.inj hmap
  refine ⟨s, hrun, hhistory, ?_, hreplay⟩
  have hnone : contents noKeys.dict = 0 := by simp [contents, grandTotal, total, noKeys]
  rw [hhistory, hnone] at hbalance
  simpa [Event.pushedElements, Event.returnedElements, Event.removedElements, add_comm] using hbalance.symm

end RedisIR.Clients
