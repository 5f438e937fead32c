import RedisIR.Spec.ClientCommands

/-! What a command does to the keys, to the clients that watch them and to those that are blocked
on them. Both are told of a change by a call of their own, `signalModifiedKey` and
`signalKeyAsReady`; a command is followed with the set of the keys that it has changed and not
signalled yet, which has to be empty in the end. -/

namespace RedisIR.Clients

open CLib Server List Function

variable {o : Option Value}
variable {n : ℕ} {s s' s'' : Server n} {c : ClientId} {d d' : DbId n} {k k' key : Key} {val : Value}
  {T T' : Set (DbId n × Key)}
variable {P : List (DbId n × Key)}

/-! ### Relations between two states -/

/-- The key is moved away or to this place, or its database is exchanged with another. -/
def Event.Moves (d : DbId n) (k : Key) : Event n → Prop
  | .moved key src dst => key = k ∧ (src = d ∨ dst = d)
  | .swapped d1 d2 => d1 = d ∨ d2 = d
  | _ => False

/-- A list replaces a value of another type at a key on which clients are blocked. -/
def Event.Hides : Event n → Prop
  | .overwritten _ _ awaited old val => awaited = true ∧ old.isList = false ∧ val.isList = true
  | _ => False

/-- The client is in the table of the database, and has the key in its own list. -/
def Watches (s : Server n) (c : ClientId) (d : DbId n) (k : Key) : Prop :=
  c ∈ ((s.watchedKeys d).lookup k).getD [] ∧ (d, k) ∈ (s.clients c).watchedKeys

/-- Whoever watches the key has been told, or the key has been moved. -/
def Excused (s s' : Server n) (d : DbId n) (k : Key) : Prop :=
  (∀ c, Watches s c d k → (s'.clients c).dirtyCas = true) ∨ ∃ H, s'.history = s.history ++ H ∧
    ∃ e ∈ H, e.Moves d k

/-- Apart from the keys in `T`, no key has changed or become ready unless the clients that watch
it were told. -/
structure Watchful (T : Set (DbId n × Key)) (s s' : Server n) : Prop where
  watchedKeys : s'.watchedKeys = s.watchedKeys
  own : ∀ c, (s'.clients c).watchedKeys = (s.clients c).watchedKeys
  dirtyCas : ∀ c, (s.clients c).dirtyCas = true → (s'.clients c).dirtyCas = true
  onlyWatchers : ∀ c, (s'.clients c).dirtyCas = true → (s.clients c).dirtyCas = true ∨
    ∃ d k, c ∈ ((s.watchedKeys d).lookup k).getD [] ∨ (d, k) ∈ (s.clients c).watchedKeys
  history : s.history <+: s'.history
  settled : ∀ d k, (d, k) ∉ T → s'.lookupKey d k = s.lookupKey d k ∨ Excused s s' d k
  ready : ∀ d k, (d, k) ∉ T → (d, k) ∈ s'.readyKeys → (d, k) ∈ s.readyKeys ∨ Excused s s' d k

/-- `db->ready_keys` of all databases is `server.ready_keys`, with the keys `P` that were taken from
it to be served. -/
def ReadyTables (P : List (DbId n × Key)) (s : Server n) : Prop :=
  (P ++ s.readyKeys).Nodup ∧ ∀ d k, (s.dbReadyKeys d).lookup k ≠ none ↔ (d, k) ∈ P ++ s.readyKeys

def Covered (P : List (DbId n × Key)) (s : Server n) : Prop :=
  ∀ d k l, s.lookupKey d k = some (.list l) → (s.blockingKeys d).lookup k ≠ none → (d, k) ∈ P ++ s.readyKeys

/-- Nobody is blocked or unblocked, and what becomes a list is signalled. Some of the keys `Q` may be
about to be served. -/
structure Quiet (s s' : Server n) : Prop where
  blockingKeys : s'.blockingKeys = s.blockingKeys
  clients : ∀ c, s'.clients c = { s.clients c with dirtyCas := (s'.clients c).dirtyCas }
  blockedClients : s'.blockedClients = s.blockedClients
  history : s.history <+: s'.history
  signals : ∀ p ∈ s'.readyKeys, p ∈ s.readyKeys ∨ (s.blockingKeys p.1).lookup p.2 ≠ none
  tables : ∀ P, ReadyTables P s → ReadyTables P s'
  covered : ∀ P Q, P ⊆ Q → ReadyTables P s → Covered Q s → (∀ e ∈ s'.history, ¬ e.Hides) → Covered Q s'

structure Changes (T : Set (DbId n × Key)) (s s' : Server n) : Prop where
  watchful : Watchful T s s'
  quiet : Quiet s s'

theorem Excused.trans_left (h : Excused s s' d k) (hmono : ∀ c, (s'.clients c).dirtyCas = true →
    (s''.clients c).dirtyCas = true) (hhistory : s'.history <+: s''.history) : Excused s s'' d k := by
  obtain ⟨H', hH'⟩ := hhistory
  rcases h with h | ⟨H, hH, e, he, hmoves⟩
  · exact Or.inl fun c hc => hmono c (h c hc)
  · refine Or.inr ⟨H ++ H', ?_, e, mem_append_left _ he, hmoves⟩
    rw [← hH', hH, append_assoc]

theorem Excused.trans_right (h : Excused s' s'' d k) (htable : s'.watchedKeys = s.watchedKeys)
    (hown : ∀ c, (s'.clients c).watchedKeys = (s.clients c).watchedKeys) (hhistory : s.history <+: s'.history) :
    Excused s s'' d k := by
  obtain ⟨H, hH⟩ := hhistory
  rcases h with h | ⟨H', hH', e, he, hmoves⟩
  · refine Or.inl fun c hc => h c ?_
    unfold Watches at hc ⊢
    rwa [htable, hown]
  · refine Or.inr ⟨H ++ H', ?_, e, mem_append_right _ he, hmoves⟩
    rw [hH', ← hH, append_assoc]

theorem Watchful.refl (s : Server n) : Watchful ∅ s s :=
  ⟨rfl, fun _ => rfl, fun _ h => h, fun _ h => Or.inl h, prefix_refl _, fun _ _ _ => Or.inl rfl,
    fun _ _ _ h => Or.inl h⟩

theorem Watchful.mono (h : Watchful T s s') (hT : T ⊆ T') : Watchful T' s s' :=
  ⟨h.watchedKeys, h.own, h.dirtyCas, h.onlyWatchers, h.history, fun d k hk => h.settled d k fun hk' => hk (hT hk'),
    fun d k hk => h.ready d k fun hk' => hk (hT hk')⟩

theorem Watchful.trans (h : Watchful T s s') (h' : Watchful T' s' s'') : Watchful (T ∪ T') s s'' where
  watchedKeys := h'.watchedKeys.trans h.watchedKeys
  own c := (h'.own c).trans (h.own c)
  dirtyCas c hc := h'.dirtyCas c (h.dirtyCas c hc)
  onlyWatchers c hc := by
    rcases h'.onlyWatchers c hc with hc | hc
    · exact h.onlyWatchers c hc
    · rw [h.watchedKeys, h.own] at hc
      exact Or.inr hc
  history := h.history.trans h'.history
  settled d k hk := by
    simp only [Set.mem_union, not_or] at hk
    rcases h'.settled d k hk.2 with h2 | h2
    · rcases h.settled d k hk.1 with h1 | h1
      · exact Or.inl (h2.trans h1)
      · exact Or.inr (h1.trans_left h'.dirtyCas h'.history)
    · exact Or.inr (h2.trans_right h.watchedKeys h.own h.history)
  ready d k hk hready := by
    simp only [Set.mem_union, not_or] at hk
    rcases h'.ready d k hk.2 hready with h2 | h2
    · rcases h.ready d k hk.1 h2 with h1 | h1
      · exact Or.inl h1
      · exact Or.inr (h1.trans_left h'.dirtyCas h'.history)
    · exact Or.inr (h2.trans_right h.watchedKeys h.own h.history)

theorem Quiet.refl (s : Server n) : Quiet s s :=
  ⟨rfl, fun _ => rfl, rfl, prefix_refl _, fun _ h => Or.inl h, fun _ h => h, fun _ _ _ _ h _ => h⟩

theorem Quiet.trans (h : Quiet s s') (h' : Quiet s' s'') : Quiet s s'' where
  blockingKeys := h'.blockingKeys.trans h.blockingKeys
  clients c := by rw [h'.clients c, h.clients c]
  blockedClients := h'.blockedClients.trans h.blockedClients
  history := h.history.trans h'.history
  signals p hp := by
    rcases h'.signals p hp with hp | hp
    · exact h.signals p hp
    · exact Or.inr (h.blockingKeys ▸ hp)
  tables P hs := h'.tables P (h.tables P hs)
  covered P Q hPQ hs hc hhides :=
    h'.covered P Q hPQ (h.tables P hs) (h.covered P Q hPQ hs hc fun e he => hhides e (h'.history.subset he)) hhides

theorem Quiet.db (h : Quiet s s') (c : ClientId) : (s'.clients c).db = (s.clients c).db := by rw [h.clients c]

theorem Changes.refl (s : Server n) : Changes ∅ s s := ⟨.refl s, .refl s⟩

theorem Changes.mono (h : Changes T s s') (hT : T ⊆ T') : Changes T' s s' :=
  ⟨h.watchful.mono hT, h.quiet⟩

theorem Changes.trans (h : Changes T s s') (h' : Changes T' s' s'') :
    Changes (T ∪ T') s s'' := ⟨h.watchful.trans h'.watchful, h.quiet.trans h'.quiet⟩

theorem Changes.andThen (h : Changes T s s') (h' : Changes ∅ s' s'') : Changes T s s'' :=
  (h.trans h').mono (by simp)

/-! ### The functions of `db.c` -/

abbrev Keyspace (n : ℕ) := DbId n → Key → Option Value

namespace Keyspace

variable {K : Keyspace n}

def set (K : Keyspace n) (d : DbId n) (k : Key) (o : Option Value) : Keyspace n :=
  fun d' k' => if (d', k') = (d, k) then o else K d' k'

@[simp] theorem set_self (K : Keyspace n) (d : DbId n) (k : Key) (o : Option Value) : K.set d k o d k = o := if_pos rfl

theorem set_of_ne (K : Keyspace n) (o : Option Value) (h : (d', k') ≠ (d, k)) :
    K.set d k o d' k' = K d' k' := if_neg h

@[simp] theorem set_set (K : Keyspace n) (d : DbId n) (k : Key) (o o' : Option Value) :
    (K.set d k o).set d k o' = K.set d k o' := by
  funext d' k'
  unfold set
  split_ifs <;> rfl

theorem set_eq_self (h : K d k = o) : K.set d k o = K := by
  funext d' k'
  unfold set
  split_ifs with hk
  · obtain ⟨rfl, rfl⟩ := Prod.mk.inj hk
    exact h.symm
  · rfl

theorem set_ne {o' : Option Value} (h : K d' k' ≠ o') (ho : o ≠ o') : K.set d k o d' k' ≠ o' := by
  unfold set
  split_ifs
  · exact ho
  · exact h

theorem set_comm (K : Keyspace n) (o o' : Option Value) (h : (d', k') ≠ (d, k)) :
    (K.set d k o).set d' k' o' = (K.set d' k' o').set d k o := by
  funext d'' k''
  unfold set
  split_ifs with h1 h2
  · exact absurd (h1.symm.trans h2) h
  · rfl
  · rfl
  · rfl

end Keyspace

open Keyspace

theorem lookupKey_setDict {f : Dict → Dict} (s : Server n) (d : DbId n)
    (hself : ∀ D, (f D).lookup k = o) (hother : ∀ D k', k' ≠ k → (f D).lookup k' = D.lookup k') :
    (s.setDict d f).lookupKey = Keyspace.set s.lookupKey d k o := by
  funext d' k'
  by_cases hd : d' = d
  · subst hd
    by_cases hk : k' = k
    · subst hk
      simp [lookupKey, setDict, hself]
    · simp [lookupKey, setDict, Keyspace.set, hk, hother _ _ hk]
  · simp [lookupKey, setDict, Keyspace.set, hd]

@[simp] theorem lookupKey_store (s : Server n) (d : DbId n) (k : Key) (val : Value) :
    (s.store d k val).lookupKey = Keyspace.set s.lookupKey d k (some val) :=
  lookupKey_setDict s d (fun D => D.lookup_insert) fun _ _ => AList.lookup_insert_ne

@[simp] theorem lookupKey_dbDelete (s : Server n) (d : DbId n) (k : Key) :
    (dbDelete d k s).lookupKey = Keyspace.set s.lookupKey d k none :=
  lookupKey_setDict s d (fun D => D.lookup_erase k) fun _ _ => AList.lookup_erase_ne

section

variable (h : s' = { s with
  dict := s'.dict, dirty := s'.dirty, replies := s'.replies, propagated := s'.propagated, history := s'.history })
  (hhistory : s.history <+: s'.history)
include h hhistory

theorem watchful_of_dict (hdict : ∀ d k, (d, k) ∉ T → s'.lookupKey d k = s.lookupKey d k) : Watchful T s s' := by
  refine ⟨by rw [h], fun c => by rw [h], fun c hc => by rw [h]; exact hc,
    fun c hc => Or.inl (by rw [h] at hc; exact hc),
    hhistory, fun d k hk => Or.inl (hdict d k hk), fun d k _ hready => ?_⟩
  rw [h] at hready
  exact Or.inl hready

theorem quiet_of_dict (hlist : (∀ e ∈ s'.history, ¬ e.Hides) → ∀ d k l, s'.lookupKey d k = some (.list l) →
      (s.blockingKeys d).lookup k ≠ none → ∃ l, s.lookupKey d k = some (.list l)) : Quiet s s' := by
  have hready : s'.readyKeys = s.readyKeys := by rw [h]
  have hblocking : s'.blockingKeys = s.blockingKeys := by rw [h]
  refine ⟨hblocking, fun c => by rw [h], by rw [h], hhistory, fun p hp => Or.inl (hready ▸ hp), ?_, ?_⟩
  · intro P hs
    have hdb : s'.dbReadyKeys = s.dbReadyKeys := by rw [h]
    unfold ReadyTables
    rwa [hready, hdb]
  · intro _ Q _ _ hcovered hhides d k l hl hblocked
    rw [hblocking] at hblocked
    rw [hready]
    obtain ⟨l', hl'⟩ := hlist hhides d k l hl hblocked
    exact hcovered d k l' hl' hblocked

theorem changes_of_keys (hkeys : s'.lookupKey = s.lookupKey) : Changes ∅ s s' :=
  ⟨watchful_of_dict h hhistory fun _ _ _ => by rw [hkeys],
    quiet_of_dict h hhistory fun _ _ _ l hl _ => ⟨l, by rwa [hkeys] at hl⟩⟩

theorem changes_of_set (hkeys : s'.lookupKey = Keyspace.set s.lookupKey d k o)
    (hlist : (∀ e ∈ s'.history, ¬ e.Hides) → ∀ l, o = some (.list l) →
      (s.blockingKeys d).lookup k ≠ none →
      ∃ l, s.lookupKey d k = some (.list l)) : Changes {(d, k)} s s' := by
  refine ⟨watchful_of_dict h hhistory fun d' k' hk => ?_,
    quiet_of_dict h hhistory fun hhides d' k' l hl hblocked => ?_⟩
  · rw [hkeys, set_of_ne _ _ hk]
  · rw [hkeys] at hl
    by_cases hk : (d', k') = (d, k)
    · obtain ⟨rfl, rfl⟩ := Prod.mk.inj hk
      exact hlist hhides l (by simpa using hl) hblocked
    · exact ⟨l, by rwa [set_of_ne _ _ hk] at hl⟩

end

theorem changes_store (s : Server n) (d : DbId n) (k : Key) (val : Value)
    (hval : ∀ l, val = .list l → ∃ l', s.lookupKey d k = some (.list l')) :
    Changes {(d, k)} s (s.store d k val) :=
  changes_of_set rfl (prefix_refl _) (lookupKey_store s d k val) fun _ l hl _ => hval l (Option.some.inj hl)

theorem changes_dbDelete (s : Server n) (d : DbId n) (k : Key) : Changes {(d, k)} s (dbDelete d k s) :=
  changes_of_set rfl (prefix_refl _) (lookupKey_dbDelete s d k) fun _ l hl _ => by cases hl

theorem changes_dbOverwrite {old : Value} (hold : s.lookupKey d k = some old) (val : Value) :
    Changes {(d, k)} s (dbOverwrite d k old val s) := by
  refine changes_of_set rfl (prefix_append _ _) (lookupKey_store s d k val) fun hhides l hl hblocked => ?_
  have hevent := hhides (.overwritten d k ((s.blockingKeys d).lookup k).isSome old val) (by simp [dbOverwrite, record])
  cases old with
  | list l' => exact ⟨l', hold⟩
  | _ => exact absurd ⟨Option.isSome_iff_ne_none.mpr hblocked, rfl, by rw [Option.some.inj hl]; rfl⟩ hevent

theorem signalKeyAsReady_cases (d : DbId n) (k : Key) (s : Server n) :
    signalKeyAsReady d k s = s ∧ ((s.blockingKeys d).lookup k = none ∨ (s.dbReadyKeys d).lookup k ≠ none) ∨
      (s.dbReadyKeys d).lookup k = none ∧ (s.blockingKeys d).lookup k ≠ none ∧ signalKeyAsReady d k s = { s with
          readyKeys := s.readyKeys ++ [(d, k)]
          dbReadyKeys := update s.dbReadyKeys d ((s.dbReadyKeys d).insert k ()) } := by
  unfold signalKeyAsReady
  cases hb : (s.blockingKeys d).lookup k with
  | none => exact Or.inl ⟨rfl, Or.inl rfl⟩
  | some l =>
    cases hr : (s.dbReadyKeys d).lookup k with
    | some u => exact Or.inl ⟨rfl, Or.inr (by simp)⟩
    | none => exact Or.inr ⟨rfl, by simp, rfl⟩

theorem readyTables_signalKeyAsReady (h : ReadyTables P s) (d : DbId n) (k : Key) :
    ReadyTables P (signalKeyAsReady d k s) := by
  rcases signalKeyAsReady_cases d k s with ⟨heq, -⟩ | ⟨hnone, -, heq⟩
  · rwa [heq]
  · have hnew : (d, k) ∉ P ++ s.readyKeys := fun hmem => (h.2 d k).mpr hmem hnone
    rw [heq]
    refine ⟨?_, fun d' k' => ?_⟩
    · dsimp only
      rw [← append_assoc]
      exact h.1.append (nodup_singleton _) (disjoint_singleton.mpr hnew)
    have hold := h.2 d' k'
    simp only [← append_assoc, mem_append (t := [(d, k)]), mem_singleton, Prod.mk.injEq]
    by_cases hd : d' = d
    · subst hd
      rw [update_self]
      by_cases hk : k' = k
      · subst hk
        simp
      · rw [AList.lookup_insert_ne hk, hold]
        simp [hk]
    · rw [update_of_ne hd, hold]
      simp [hd]

theorem mem_readyKeys_signalKeyAsReady (h : ReadyTables P s) (hblocked : (s.blockingKeys d).lookup k ≠ none) :
    (d, k) ∈ P ++ (signalKeyAsReady d k s).readyKeys := by
  rcases signalKeyAsReady_cases d k s with ⟨heq, hcases⟩ | ⟨-, -, heq⟩
  · rw [heq]
    rcases hcases with hnone | hready
    · exact absurd hnone hblocked
    · exact (h.2 d k).mp hready
  · simp [heq]

section

variable (d : DbId n) (k : Key) (s : Server n)

theorem readyKeys_signalKeyAsReady : ∀ p ∈ (signalKeyAsReady d k s).readyKeys,
      p ∈ s.readyKeys ∨ p = (d, k) ∧ (s.blockingKeys p.1).lookup p.2 ≠ none := by
  intro p hp
  rcases signalKeyAsReady_cases d k s with ⟨heq, -⟩ | ⟨-, hblocked, heq⟩
  · rw [heq] at hp
    exact Or.inl hp
  · rw [heq, mem_append, mem_singleton] at hp
    rcases hp with hp | rfl
    · exact Or.inl hp
    · exact Or.inr ⟨rfl, hblocked⟩

theorem readyKeys_subset_signalKeyAsReady : ∀ p ∈ s.readyKeys, p ∈ (signalKeyAsReady d k s).readyKeys := by
  intro p hp
  rcases signalKeyAsReady_cases d k s with ⟨heq, -⟩ | ⟨-, -, heq⟩
  · rwa [heq]
  · simp [heq, hp]

theorem signalKeyAsReady_same : signalKeyAsReady d k s =
      { s with
        readyKeys := (signalKeyAsReady d k s).readyKeys, dbReadyKeys := (signalKeyAsReady d k s).dbReadyKeys } := by
  rcases signalKeyAsReady_cases d k s with ⟨heq, -⟩ | ⟨-, -, heq⟩ <;> rw [heq]

theorem mem_pending {Q R R' : List (DbId n × Key)} {p : DbId n × Key} (hPQ : P ⊆ Q) (h : ∀ p ∈ R, p ∈ R')
    (hp : p ∈ P ++ R) : p ∈ Q ++ R' := by
  rw [mem_append] at hp ⊢
  exact hp.imp (fun hP => hPQ hP) (h p)

theorem changes_signalKeyAsReady : Changes {(d, k)} s (signalKeyAsReady d k s) := by
  have hsame := signalKeyAsReady_same d k s
  refine ⟨⟨by rw [hsame], fun c => by rw [hsame], fun c hc => by rw [hsame]; exact hc,
      fun c hc => Or.inl (by rw [hsame] at hc; exact hc), by rw [hsame], ?_, ?_⟩,
    ⟨by rw [hsame], fun c => by rw [hsame], by rw [hsame], by rw [hsame],
      fun p hp => (readyKeys_signalKeyAsReady d k s p hp).imp id And.right,
        fun P h => readyTables_signalKeyAsReady h d k, ?_⟩⟩
  · intro d' k' _
    exact Or.inl (by rw [hsame]; rfl)
  · intro d' k' hk hready
    rcases readyKeys_signalKeyAsReady d k s _ hready with h | h
    · exact Or.inl h
    · exact absurd h.1 hk
  · intro _ Q _ _ hcovered _ d' k' l hl hblocked
    rw [hsame] at hl hblocked
    exact mem_pending (fun _ h => h) (readyKeys_subset_signalKeyAsReady d k s) (hcovered d' k' l hl hblocked)

/-- The new key may be a list, but then it is signalled. -/
theorem changes_dbAdd (val : Value) (s : Server n) : Changes {(d, k)} s (dbAdd d k val s) := by
  have hdict : ∀ d' k', (d', k') ≠ (d, k) → (s.store d k val).lookupKey d' k' = s.lookupKey d' k' := by
    intro d' k' hk
    rw [lookupKey_store, set_of_ne _ _ hk]
  have hwatch : Watchful {(d, k)} s (s.store d k val) := watchful_of_dict rfl (prefix_refl _) hdict
  have hsignal : Changes {(d, k)} s (signalKeyAsReady d k (s.store d k val)) := by
    have hready := changes_signalKeyAsReady d k (s.store d k val)
    refine ⟨(hwatch.trans hready.watchful).mono (by simp), ?_⟩
    refine ⟨hready.quiet.blockingKeys, hready.quiet.clients, hready.quiet.blockedClients, hready.quiet.history,
      hready.quiet.signals, fun P h => hready.quiet.tables P h, ?_⟩
    intro P Q hPQ htables hcovered _ d' k' l hl hblocked
    rw [signalKeyAsReady_same] at hl hblocked
    by_cases hk : (d', k') = (d, k)
    · obtain ⟨rfl, rfl⟩ := Prod.mk.inj hk
      exact mem_pending hPQ (fun _ h => h) (mem_readyKeys_signalKeyAsReady htables hblocked)
    · refine mem_pending (fun _ h => h) (readyKeys_subset_signalKeyAsReady d k _) ?_
      exact hcovered d' k' l (by rw [← hdict d' k' hk]; exact hl) hblocked
  have hplain (hval : ∀ l, val ≠ .list l) : Changes {(d, k)} s (s.store d k val) :=
    changes_store s d k val fun l hl => absurd hl (hval l)
  unfold dbAdd
  split
  · exact hsignal
  · exact hsignal
  · next hlist _ => exact hplain fun l hl => hlist l hl

end

/-! ### Replies, counters and records -/

theorem changes_addReply {r : Reply} : Changes ∅ s (s.addReply c r) := changes_of_keys rfl (prefix_refl _) rfl

theorem changes_addDirty {i : ℕ} : Changes ∅ s (s.addDirty i) := changes_of_keys rfl (prefix_refl _) rfl

theorem changes_propagate {p : Propagated} : Changes ∅ s (s.propagate d p) := changes_of_keys rfl (prefix_refl _) rfl

theorem changes_record {e : Event n} : Changes ∅ s (s.record e) := changes_of_keys rfl (prefix_append _ _) rfl

theorem Changes.counted {i : ℕ} {r : Reply} (h : Changes T s s') : Changes T s ((s'.addDirty i).addReply c r) :=
  (h.andThen changes_addDirty).andThen changes_addReply

section

variable (s : Server n) (d : DbId n) (k : Key)

@[simp] theorem lookupKey_addReply (c : ClientId) (r : Reply) : (s.addReply c r).lookupKey = s.lookupKey := rfl

@[simp] theorem lookupKey_addDirty (i : ℕ) : (s.addDirty i).lookupKey = s.lookupKey := rfl

@[simp] theorem lookupKey_record (e : Event n) : (s.record e).lookupKey = s.lookupKey := rfl

@[simp] theorem lookupKey_propagate (p : Propagated) : (s.propagate d p).lookupKey = s.lookupKey := rfl

/-! ### Watched keys -/

theorem touch_foldl (cs : List ClientId) (s : Server n) :
    (cs.foldl (fun s c => s.setClient c fun cl => { cl with dirtyCas := true }) s) =
      { s with clients := fun c => if c ∈ cs then { s.clients c with dirtyCas := true } else s.clients c } := by
  induction cs generalizing s with
  | nil => simp
  | cons x cs ih =>
    rw [foldl_cons, ih]
    congr 1
    funext c
    by_cases hx : c = x
    · subst hx
      simp [setClient]
    · simp [setClient, hx]

theorem signalModifiedKey_eq (s : Server n) : signalModifiedKey d k s = { s with
        clients := fun c =>
          if c ∈ ((s.watchedKeys d).lookup k).getD [] then { s.clients c with dirtyCas := true } else s.clients c } :=
  touch_foldl _ s

@[simp] theorem lookupKey_signalModifiedKey (s : Server n) : (signalModifiedKey d k s).lookupKey = s.lookupKey := by
  rw [signalModifiedKey_eq]
  rfl

theorem changes_signalModifiedKey (s : Server n) : Changes ∅ s (signalModifiedKey d k s) := by
  rw [signalModifiedKey_eq]
  refine ⟨⟨rfl, fun c => ?_, fun c hc => ?_, fun c hc => ?_, prefix_refl _, fun _ _ _ => Or.inl rfl,
      fun _ _ _ h => Or.inl h⟩,
    ⟨rfl, fun c => ?_, rfl, prefix_refl _, fun _ h => Or.inl h, fun _ h => h, fun _ _ _ _ h _ => h⟩⟩
  · dsimp only
    split <;> rfl
  · dsimp only
    split
    · rfl
    · exact hc
  · dsimp only at hc
    split at hc
    · next hmem => exact Or.inr ⟨d, k, Or.inl hmem⟩
    · exact Or.inl hc
  · dsimp only
    split <;> rfl

end

theorem excused_signalModifiedKey (h : Watchful T s s') (d : DbId n) (k : Key) :
    Excused s (signalModifiedKey d k s') d k := by
  refine Or.inl fun c hc => ?_
  have htable : c ∈ ((s'.watchedKeys d).lookup k).getD [] := by
    rw [h.watchedKeys]
    exact hc.1
  rw [signalModifiedKey_eq]
  dsimp only
  rw [if_pos htable]

/-- The keys of which all clients have been told need not be looked after any more. -/
theorem Watchful.told (h : Watchful T s s') (he : ∀ d k, (d, k) ∈ T → (d, k) ∉ T' → Excused s s' d k) :
    Watchful T' s s' := by
  refine ⟨h.watchedKeys, h.own, h.dirtyCas, h.onlyWatchers, h.history, ?_, ?_⟩
  · intro d k hk
    by_cases hT : (d, k) ∈ T
    · exact Or.inr (he d k hT hk)
    · exact h.settled d k hT
  · intro d k hk
    by_cases hT : (d, k) ∈ T
    · exact fun _ => Or.inr (he d k hT hk)
    · exact h.ready d k hT

theorem Changes.told (h : Changes T s s') (he : ∀ d k, (d, k) ∈ T → (d, k) ∉ T' → Excused s s' d k) :
    Changes T' s s' := ⟨h.watchful.told he, h.quiet⟩

theorem Changes.signal (h : Changes T s s') (d : DbId n) (k : Key) :
    Changes (T \ {(d, k)}) s (signalModifiedKey d k s') := by
  refine (h.andThen (changes_signalModifiedKey d k s')).told ?_
  intro d' k' hT hnot
  have heq : (d', k') = (d, k) := by
    by_contra hne
    exact hnot ⟨hT, hne⟩
  obtain ⟨rfl, rfl⟩ := Prod.mk.inj heq
  exact excused_signalModifiedKey h.watchful _ _

theorem Changes.signalled (h : Changes {(d, k)} s s') : Changes ∅ s (signalModifiedKey d k s') :=
  (h.signal d k).mono (by simp)

theorem Changes.store_excused (h : Changes T s s') (he : Excused s s' d k) (val : Value)
    (hval : ∀ l, val = .list l → ∃ l', s'.lookupKey d k = some (.list l')) : Changes T s (s'.store d k val) := by
  refine (h.trans (changes_store s' d k val hval)).told ?_
  intro d' k' hT hnot
  have heq : (d', k') = (d, k) := by
    rcases hT with hT | hT
    · exact absurd hT hnot
    · exact hT
  obtain ⟨rfl, rfl⟩ := Prod.mk.inj heq
  exact he.trans_left (fun _ hc => hc) (prefix_refl _)

end RedisIR.Clients
