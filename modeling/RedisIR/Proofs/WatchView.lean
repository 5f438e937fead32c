import RedisIR.Proofs.BlockTables
import RedisIR.Spec.Watch

/-! The server of several clients and the server that only keeps watches: the functions of
`multi.c` that both have do the same. -/

namespace RedisIR.Clients

open CLib Clients.Server List Function AList

variable {n : ℕ} {s : Server n} {w : Watch.Server ClientId Key} {c : ClientId} {f : Command → Watch.Command Key}

def watchedAt (p : DbId n × Key) : Watch.WatchedKey Key := ⟨p.1, p.2⟩

/-- The queued commands are seen through `f`. -/
def Client.watching (f : Command → Watch.Command Key) (cl : Client n) : Watch.Client Key :=
  ⟨cl.db, cl.multi, cl.dirtyCas, cl.dirtyExec, cl.watchedKeys.map watchedAt, cl.commands.map f⟩

/-- The tables of both agree, as far as the databases that the first has are concerned. -/
structure SameTables (f : Command → Watch.Command Key) (clients : ClientId → Client n)
    (watchedKeys : DbId n → ClientTable) (dict : DbId n → Dict) (w : Watch.Server ClientId Key) : Prop where
  clients : ∀ c, w.clients c = (clients c).watching f
  table : ∀ p : DbId n × Key, w.watchedKeys (watchedAt p) = (watchedKeys p.1).lookup p.2
  dict : ∀ p : DbId n × Key, w.dict (watchedAt p) = ((dict p.1).lookup p.2).isSome

def Mirrors (f : Command → Watch.Command Key) (s : Server n) (w : Watch.Server ClientId Key) : Prop :=
  SameTables f s.clients s.watchedKeys s.dict w

theorem watchedAt_injective : Injective (watchedAt : DbId n × Key → Watch.WatchedKey Key) := by
  rintro ⟨d, k⟩ ⟨d', k'⟩ h
  simpa [watchedAt, Fin.ext_iff] using h

section

variable {α β γ δ : Type} {R : α → β → Prop} {S : γ → δ → Prop} {a : Option α} {b : Option β}
  (h : Option.Rel R a b)
include h

theorem rel_bind {g : α → Option γ} {k : β → Option δ} (hg : ∀ x y, R x y → Option.Rel S (g x) (k y)) :
    Option.Rel S (a.bind g) (b.bind k) := by
  cases h with
  | some hr => exact hg _ _ hr
  | none => exact .none

theorem rel_map {g : α → γ} {k : β → δ} (hg : ∀ x y, R x y → S (g x) (k y)) :
    Option.Rel S (a.map g) (b.map k) := by
  cases h with
  | some hr => exact .some (hg _ _ hr)
  | none => exact .none

end

/-- The client's call of the command does the same to both. -/
def CallsAlike (f : Command → Watch.Command Key) (n : ℕ) (order : IterOrder) (c : ClientId)
    (cmd : Command) : Prop :=
  ∀ (s : Server n) w, Mirrors f s w → Option.Rel (Mirrors f) (call order c s cmd) ((f cmd).call (n + 1) c w)

def requested (f : Command → Watch.Command Key) : Request → Watch.Request Key
  | .watch ks => .watch ks
  | .multi => .multi
  | .exec => .exec
  | .discard => .discard
  | .command cmd => .command (f cmd)
  | .refused => .refused

namespace Mirrors

variable (h : Mirrors f s w)
include h

theorem setClient (c : ClientId) (g : Client n → Client n)
    (k : Watch.Client Key → Watch.Client Key)
    (hg : ∀ cl, (g cl).watching f = k (cl.watching f)) : Mirrors f (s.setClient c g) (w.setClient c k) := by
  refine ⟨fun x => ?_, h.table, h.dict⟩
  rcases eq_or_ne x c with rfl | hx
  · simp [Server.setClient, Watch.Server.setClient, hg, h.clients]
  · simp [Server.setClient, Watch.Server.setClient, hx, h.clients]

theorem setTable {p : DbId n × Key} {t : ClientTable} {o : Option (List ClientId)}
    (ho : t.lookup p.2 = o) (ht : ∀ k, k ≠ p.2 → t.lookup k = (s.watchedKeys p.1).lookup k) :
    Mirrors f { s with watchedKeys := update s.watchedKeys p.1 t }
      { w with watchedKeys := update w.watchedKeys (watchedAt p) o } := by
  refine ⟨h.clients, fun q => ?_, h.dict⟩
  rcases eq_or_ne q p with rfl | hne
  · simp [ho]
  · rcases eq_or_ne q.1 p.1 with hd | hd
    · simp [update_of_ne (watchedAt_injective.ne hne), h.table, hd, ht _ fun hk => hne (Prod.ext hd hk)]
    · simp [update_of_ne (watchedAt_injective.ne hne), h.table, hd]

/-! ### Watched keys -/

theorem watchForKey (c : ClientId) (key : Key) :
    Mirrors f (watchForKey c s key) (Watch.watchForKey c w key) := by
  have hmem : watchedAt ((s.clients c).db, key) ∈ (w.clients c).watchedKeys ↔
      ((s.clients c).db, key) ∈ (s.clients c).watchedKeys := by
    rw [h.clients]
    exact mem_map_of_injective watchedAt_injective
  have hwk : (⟨(w.clients c).db, key⟩ : Watch.WatchedKey Key) = watchedAt ((s.clients c).db, key) := by
    rw [h.clients]
    rfl
  simp only [Clients.watchForKey, Watch.watchForKey, hwk]
  cases hnode : listDelNode ((s.clients c).db, key) (s.clients c).watchedKeys with
  | some l => rwa [if_pos (hmem.mpr (mem_of_listDelNode hnode))]
  | none =>
    rw [if_neg fun hold => by rw [listDelNode_of_mem (hmem.mp hold)] at hnode; cases hnode]
    refine (h.setClient c _ _ fun cl => ?_).setTable (p := ((s.clients c).db, key)) ?_ fun k hk => lookup_insert_ne hk
    · simp [Client.watching]
    · rw [lookup_insert, h.table]

theorem unwatchLoop (wks : List (DbId n × Key)) (c : ClientId) :
    Option.Rel (Mirrors f) (unwatchLoop c wks s) (Watch.unwatchLoop c (wks.map watchedAt) w) := by
  induction wks generalizing s w with
  | nil => exact .some h
  | cons wk wks ih =>
    simp only [Clients.unwatchLoop, map_cons, Watch.unwatchLoop, h.table, ClientTable.leave]
    cases (s.watchedKeys wk.1).lookup wk.2 with
    | none => exact .none
    | some l =>
      have hset := h.setClient c (fun cl => { cl with watchedKeys := wks })
        (fun cl => { cl with watchedKeys := wks.map watchedAt }) fun _ => rfl
      by_cases hc : c ∈ l
      · simp only [listDelNode_of_mem hc, if_pos hc]
        cases l.erase c with
        | nil => exact ih (hset.setTable (lookup_erase _ _) fun k hk => lookup_erase_ne hk)
        | cons x l' => exact ih (hset.setTable (lookup_insert _) fun k hk => lookup_insert_ne hk)
      · simp only [if_neg hc, Option.eq_none_iff_forall_ne_some.mpr fun l' hl' => hc (mem_of_listDelNode hl')]
        exact .none

theorem unwatchAllKeys (c : ClientId) :
    Option.Rel (Mirrors f) (unwatchAllKeys c s) (Watch.unwatchAllKeys c w) := by
  rw [Watch.unwatchAllKeys, h.clients]
  exact h.unwatchLoop _ c

theorem touchWatchedKey (p : DbId n × Key) :
    Mirrors f (touchWatchedKey p.1 p.2 s) (Watch.touchWatchedKey w (watchedAt p)) := by
  rw [Watch.touchWatchedKey, h.table, Clients.touchWatchedKey]
  induction ((s.watchedKeys p.1).lookup p.2).getD [] generalizing s w with
  | nil => exact h
  | cons c cs ih => exact ih (h.setClient c _ _ fun _ => rfl)

theorem flush (dbid : Option (DbId n)) :
    Mirrors f (emptyDb dbid (touchWatchedKeysOnFlush dbid s))
      (Watch.emptyDb (dbid.map Fin.val) (Watch.touchWatchedKeysOnFlush (dbid.map Fin.val) w)) := by
  have hflush : ∀ p : DbId n × Key, Watch.Flushes (dbid.map Fin.val) (watchedAt p) ↔ Flushes dbid p.1 = true := by
    intro p
    cases dbid <;> simp [Flushes, Watch.Flushes, watchedAt, Fin.ext_iff]
  refine ⟨fun c => ?_, h.table, fun p => ?_⟩
  · simp only [Watch.emptyDb, Watch.touchWatchedKeysOnFlush, emptyDb, touchWatchedKeysOnFlush, h.clients,
      Client.watching, mem_map, any_eq_true, exists_exists_and_eq_and, hflush, h.dict, Bool.and_eq_true, lookupKey]
    split_ifs <;> rfl
  · simp only [Watch.emptyDb, Watch.touchWatchedKeysOnFlush, emptyDb, touchWatchedKeysOnFlush, hflush, h.dict,
      lookupKey]
    split_ifs <;> rfl

/-! ### Commands -/

theorem discardTransaction (c : ClientId) :
    Option.Rel (Mirrors f) (discardTransaction c s) (Watch.discardTransaction c w) :=
  (h.setClient c _ _ fun _ => rfl).unwatchAllKeys c

theorem flagTransaction (c : ClientId) :
    Mirrors f (flagTransaction c s) (Watch.flagTransaction c w) := by
  simp only [Clients.flagTransaction, Watch.flagTransaction, h.clients, Client.watching]
  split_ifs
  · exact h.setClient c _ _ fun _ => rfl
  · exact h

theorem freeClient (hc : (s.clients c).blocked = false) :
    Option.Rel (Mirrors f) (freeClient c s) (Watch.freeClient c w) := by
  simp only [Clients.freeClient, hc, Bool.false_eq_true, if_false, Option.bind_some]
  exact rel_map (h.unwatchAllKeys c) fun _ _ h => h.setClient c _ _ fun _ => rfl

theorem callAll {order : IterOrder} {cmds : List Command} (hcmds : ∀ cmd ∈ cmds, CallsAlike f n order c cmd) :
    Option.Rel (Mirrors f) (callAll order c cmds s) (Watch.callAll (n + 1) c (cmds.map f) w) := by
  induction cmds generalizing s w with
  | nil => exact .some h
  | cons cmd cmds ih =>
    exact rel_bind (hcmds cmd mem_cons_self s w h) fun _ _ h => ih h fun x hx => hcmds x (mem_cons_of_mem _ hx)

omit h in
theorem replied (reply : Watch.TxReply) {a : Option (Server n)} {b : Option (Watch.Server ClientId Key)}
    (h : Option.Rel (Mirrors f) a b) : Option.Rel (fun s r => Mirrors f s r.1) a (b.map (·, reply)) := by
  simpa using rel_map (g := id) (k := (·, reply)) h fun _ _ h => h

theorem discarded (c : ClientId) (r : Reply) (reply : Watch.TxReply) :
    Option.Rel (fun s r => Mirrors f s r.1) (Clients.discardTransaction c (s.addReply c r))
      ((Watch.discardTransaction c w).map (·, reply)) :=
  replied reply (discardTransaction (s := s.addReply c r) h c)

theorem execCommand {order : IterOrder} (hcmds : ∀ cmd ∈ (s.clients c).commands, CallsAlike f n order c cmd) :
    Option.Rel (fun s r => Mirrors f s r.1) (execCommand order c s) (Watch.execCommand (n + 1) c w) := by
  simp only [Clients.execCommand, Watch.execCommand, h.clients, Client.watching, Bool.or_eq_true]
  cases (s.clients c).multi with
  | false => exact .some h
  | true =>
    simp only [Bool.true_eq_false, if_false, not_true_eq_false]
    split_ifs
    · exact h.discarded c _ _
    · exact h.discarded c _ _
    · refine rel_bind (h.unwatchAllKeys c) fun s1 w1 h1 => ?_
      cases hq : (s.clients c).commands with
      | nil => exact h1.discarded c _ _
      | cons cmd cmds =>
        refine rel_bind (callAll (by exact h1) (hq ▸ hcmds)) fun s2 w2 h2 => ?_
        exact rel_map (h2.discardTransaction c) fun _ _ h => h

/-- A request does the same to both servers if the commands that it executes do; those that are only
queued may be any. -/
theorem processRequest (order : IterOrder) (c : ClientId) (r : Request)
    (hexec : r = .exec → ∀ cmd ∈ (s.clients c).commands, CallsAlike f n order c cmd)
    (hcall : ∀ cmd, r = .command cmd → (s.clients c).multi = false → CallsAlike f n order c cmd) :
    Option.Rel (fun s r => Mirrors f s r.1) (processRequest order c s r)
      (Watch.processCommand (n + 1) c w (requested f r)) := by
  cases r with
  | watch keys =>
    have hall : Mirrors f (keys.foldl (Clients.watchForKey c) s) (keys.foldl (Watch.watchForKey c) w) := by
      clear hexec hcall
      induction keys generalizing s w with
      | nil => exact h
      | cons key keys ih => exact ih (h.watchForKey c key)
    simp only [Clients.processRequest, requested, Watch.processCommand, watchCommand, Watch.watchCommand, h.clients,
      Client.watching]
    split_ifs
    · exact .some h
    · exact .some hall
  | multi =>
    simp only [Clients.processRequest, requested, Watch.processCommand, multiCommand, Watch.multiCommand, h.clients,
      Client.watching]
    split_ifs
    · exact .some h
    · exact .some (h.setClient c (fun cl => { cl with multi := true }) (fun cl => { cl with multi := true })
        fun _ => rfl)
  | exec => exact h.execCommand (hexec rfl)
  | discard =>
    simp only [Clients.processRequest, requested, Watch.processCommand, discardCommand, Watch.discardCommand,
      h.clients, Client.watching]
    split_ifs
    · exact rel_map (h.discardTransaction c) fun _ _ h => h
    · exact .some h
  | command cmd =>
    simp only [Clients.processRequest, requested, Watch.processCommand, h.clients, Client.watching]
    split_ifs with hmulti
    · exact .some (h.setClient c (fun cl => { cl with commands := cl.commands ++ [cmd] })
        (fun cl => { cl with commands := cl.commands ++ [f cmd] }) fun cl => by simp [Client.watching])
    · exact replied _ (hcall cmd rfl (by simpa using hmulti) s w h)
  | refused => exact .some (h.flagTransaction c)

end Mirrors

def namesake : Command → Option (Watch.Command Key)
  | .flushdb => some .flushdb
  | .flushall => some .flushall
  | .select id => some (.select id)
  | .unwatch => some .unwatch
  | _ => none

/-- The commands that the other server knows by their names do the same to both. -/
theorem callsAlike_namesake {order : IterOrder} {cmd : Command} (hf : namesake cmd = some (f cmd)) :
    CallsAlike f n order c cmd := by
  intro s w h
  have hcalled : ∀ {s' : Server n} {w' d p}, Mirrors f s' w' →
      Mirrors f (if s.dirty < s'.dirty then s'.propagate d p else s') w' := by
    intro s' w' d p h'
    split_ifs <;> exact h'
  cases cmd with
  | flushdb =>
    rw [← Option.some.inj hf, Watch.Command.call, h.clients]
    exact .some (hcalled (h.flush (some (s.clients c).db)))
  | flushall =>
    rw [← Option.some.inj hf]
    exact .some (hcalled (h.flush none))
  | select id =>
    rw [← Option.some.inj hf]
    refine .some (hcalled ?_)
    by_cases hid : 0 ≤ id ∧ id < n + 1
    · rw [selectCommand, selectDb, dif_pos hid, Watch.selectDb, if_neg (by push_cast; omega)]
      exact h.setClient c (fun cl => { cl with db := _ }) (fun cl => { cl with db := _ }) fun _ => rfl
    · rw [selectCommand, selectDb, dif_neg hid, Watch.selectDb, if_pos (by push_cast; omega)]
      exact h
  | unwatch =>
    rw [← Option.some.inj hf, call, Command.proc, unwatchCommand, Option.map_map, Option.map_map]
    exact rel_map (h.unwatchAllKeys c) fun _ _ h' => hcalled (h'.setClient c (fun cl => { cl with dirtyCas := false })
      (fun cl => { cl with dirtyCas := false }) fun _ => rfl)
  | _ => cases hf

end RedisIR.Clients
