import RedisIR.Proofs.ClientCommands

/-! The tables of blocked clients: `db->blocking_keys` has for each key the clients whose
`bpop.keys` have it, so that a client can always be taken out again. -/

namespace RedisIR.Clients

open CLib Server List Function AList

variable {n : ℕ} {s s' s'' : Server n} {c : ClientId} {d d' : DbId n} {k k' key : Key}

/-! ### Lists of clients -/

theorem listDelNode_of_mem {α : Type} [DecidableEq α] {x : α} {l : List α} (h : x ∈ l) :
    listDelNode x l = some (l.erase x) := by
  induction l with
  | nil => cases h
  | cons y ys ih =>
    unfold listDelNode
    by_cases hy : y = x
    · subst hy
      simp
    · have hx : x ∈ ys := (mem_cons.mp h).resolve_left (Ne.symm hy)
      simp [hy, ih hx]

theorem mem_of_listDelNode {α : Type} [DecidableEq α] {x : α} {l l' : List α}
    (h : listDelNode x l = some l') : x ∈ l := by
  induction l generalizing l' with
  | nil => cases h
  | cons y ys ih =>
    unfold listDelNode at h
    by_cases hy : y = x
    · subst hy
      simp
    · rw [if_neg hy] at h
      obtain ⟨l'', hl'', -⟩ := Option.map_eq_some_iff.mp h
      exact mem_cons_of_mem _ (ih hl'')

def ClientTable.get (t : ClientTable) (k : Key) : List ClientId := (t.lookup k).getD []

structure Left (c : ClientId) (k : Key) (t t' : ClientTable) : Prop where
  same : ∀ k', k' ≠ k → t'.lookup k' = t.lookup k'
  erased : ClientTable.get t' k = (ClientTable.get t k).erase c
  nonempty : t'.lookup k ≠ some []

theorem leave_spec {t : ClientTable} (h : c ∈ ClientTable.get t k) :
    ∃ t', ClientTable.leave c t k = some t' ∧ Left c k t t' := by
  unfold ClientTable.leave
  unfold ClientTable.get at h
  cases hl : t.lookup k with
  | none => simp [hl] at h
  | some l =>
    rw [hl] at h
    have hget : ClientTable.get t k = l := by simp [ClientTable.get, hl]
    simp only [listDelNode_of_mem (x := c) (l := l) h]
    cases he : l.erase c with
    | nil =>
      refine ⟨_, rfl, fun k' hk' => lookup_erase_ne hk', ?_, ?_⟩
      · rw [hget, he]
        simp [ClientTable.get]
      · simp
    | cons x l' =>
      refine ⟨_, rfl, fun k' hk' => lookup_insert_ne hk', ?_, ?_⟩
      · rw [hget, he]
        simp [ClientTable.get]
      · simp

/-! ### Blocked clients -/

/-- The clients that are blocked on a key, in the order in which they are served. -/
def waiting (s : Server n) (d : DbId n) (k : Key) : List ClientId := ClientTable.get (s.blockingKeys d) k

/-- The tables agree with what the clients have; `blockedClients` counts them. -/
structure BlockTables (s : Server n) : Prop where
  mem : ∀ c d k, c ∈ waiting s d k ↔ d = (s.clients c).db ∧ k ∈ (s.clients c).bpopKeys
  nodup : ∀ d k, (waiting s d k).Nodup
  nonempty : ∀ d k, (s.blockingKeys d).lookup k ≠ some []
  blocked : ∀ c, (s.clients c).blocked = true ↔ (s.clients c).bpopKeys.keys ≠ []
  count : ∃ B : Finset ClientId, B.card = s.blockedClients ∧ ∀ c, c ∈ B ↔ (s.clients c).blocked = true

theorem blockTables_start (dict : DbId n → Dict) : BlockTables (Server.start dict) where
  mem c d k := by simp [waiting, ClientTable.get, Server.start, createClient]
  nodup d k := by simp [waiting, ClientTable.get, Server.start]
  nonempty d k := by simp [Server.start]
  blocked c := by simp [Server.start, createClient]
  count := ⟨∅, rfl, fun c => by simp [Server.start, createClient]⟩

theorem BlockTables.lookup_ne_none (h : BlockTables s) :
    (s.blockingKeys d).lookup k ≠ none ↔ waiting s d k ≠ [] := by
  unfold waiting ClientTable.get
  cases hl : (s.blockingKeys d).lookup k with
  | none => simp
  | some l =>
    cases l with
    | nil => exact absurd hl (h.nonempty d k)
    | cons x l => simp

theorem BlockTables.congr (h : BlockTables s) (htable : s'.blockingKeys = s.blockingKeys)
    (hdb : ∀ c, (s'.clients c).db = (s.clients c).db ∨ (s.clients c).blocked = false)
    (hkeys : ∀ c, (s'.clients c).bpopKeys = (s.clients c).bpopKeys)
    (hblocked : ∀ c, (s'.clients c).blocked = (s.clients c).blocked) (hcount : s'.blockedClients = s.blockedClients) :
    BlockTables s' where
  mem c d k := by
    have hw : waiting s' d k = waiting s d k := by simp [waiting, htable]
    rw [hw, h.mem, hkeys c]
    rcases hdb c with hdb | hnot
    · rw [hdb]
    · have hnil : (s.clients c).bpopKeys.keys = [] := by
        by_contra hne
        rw [(h.blocked c).mpr hne] at hnot
        cases hnot
      simp [AList.mem_keys, hnil]
  nodup d k := by
    have hw : waiting s' d k = waiting s d k := by simp [waiting, htable]
    rw [hw]
    exact h.nodup d k
  nonempty d k := by
    rw [htable]
    exact h.nonempty d k
  blocked c := by
    rw [hblocked, hkeys]
    exact h.blocked c
  count := by
    obtain ⟨B, hcard, hmem⟩ := h.count
    exact ⟨B, hcard.trans hcount.symm, fun c => by rw [hmem, hblocked]⟩

theorem BlockTables.quiet (h : BlockTables s) (hq : Quiet s s') : BlockTables s' :=
  h.congr hq.blockingKeys (fun c => Or.inl (hq.db c)) (fun c => by rw [hq.clients c]) (fun c => by rw [hq.clients c])
    hq.blockedClients

/-! ### Unblocking -/

structure Unblocked (c : ClientId) (s s' : Server n) : Prop where
  same : s' = { s with
    blockingKeys := s'.blockingKeys
    clients := update s.clients c { s.clients c with bpopKeys := ∅, bpopTarget := none, blocked := false }
    blockedClients := s.blockedClients - 1 }
  waiting : ∀ d k, Clients.waiting s' d k = (Clients.waiting s d k).erase c
  nonempty : ∀ d k, (s'.blockingKeys d).lookup k ≠ some []

theorem unblockLoop_spec (c : ClientId) (keys : List Key) (s : Server n)
    (hmem : ∀ k ∈ keys, c ∈ waiting s (s.clients c).db k) (hnodup : keys.Nodup)
    (hnonempty : ∀ d k, (s.blockingKeys d).lookup k ≠ some []) :
    ∃ s', unblockLoop c keys s = some s' ∧ s' = { s with blockingKeys := s'.blockingKeys } ∧
      (∀ d k, waiting s' d k =
        if d = (s.clients c).db ∧ k ∈ keys then (waiting s d k).erase c else waiting s d k) ∧
      ∀ d k, (s'.blockingKeys d).lookup k ≠ some [] := by
  induction keys generalizing s with
  | nil => exact ⟨s, rfl, rfl, fun d k => by simp, hnonempty⟩
  | cons key keys ih =>
    obtain ⟨t, ht, hleft⟩ := leave_spec (hmem key (by simp))
    rw [nodup_cons] at hnodup
    set s1 : Server n := { s with blockingKeys := update s.blockingKeys (s.clients c).db t } with hs1
    have hw1 : ∀ d k, waiting s1 d k =
        if d = (s.clients c).db ∧ k = key then (waiting s d k).erase c else waiting s d k := by
      intro d k
      by_cases hd : d = (s.clients c).db
      · subst hd
        by_cases hk : k = key
        · subst hk
          simp [hs1, waiting, hleft.erased]
        · simp [hs1, waiting, ClientTable.get, hleft.same k hk, hk]
      · simp [hs1, waiting, hd]
    have hmem1 : ∀ k ∈ keys, c ∈ waiting s1 (s1.clients c).db k := by
      intro k hk
      have hne : k ≠ key := fun he => hnodup.1 (he ▸ hk)
      rw [hw1]
      simp only [hne, and_false, if_false]
      exact hmem k (mem_cons_of_mem _ hk)
    have hnonempty1 : ∀ d k, (s1.blockingKeys d).lookup k ≠ some [] := by
      intro d k
      by_cases hd : d = (s.clients c).db
      · subst hd
        simp only [hs1, update_self]
        by_cases hk : k = key
        · subst hk
          exact hleft.nonempty
        · rw [hleft.same k hk]
          exact hnonempty _ k
      · simp only [hs1, update_of_ne hd]
        exact hnonempty d k
    obtain ⟨s', hrun, hsame, hw, hne⟩ := ih s1 hmem1 hnodup.2 hnonempty1
    refine ⟨s', ?_, ?_, ?_, hne⟩
    · unfold unblockLoop
      simp only [ht]
      exact hrun
    · rw [hsame]
    · intro d k
      rw [hw, hw1]
      by_cases hd : d = (s.clients c).db
      · subst hd
        by_cases hk : k = key
        · subst hk
          simp [hs1, hnodup.1]
        · simp [hs1, hk]
      · simp [hs1, hd]

section

variable (h : BlockTables s) (hc : (s.clients c).blocked = true)
include h hc

theorem unblockClient_spec : ∃ s', unblockClient c s = some s' ∧ Unblocked c s s' := by
  have hkeys := (h.blocked c).mp hc
  have hmem : ∀ k ∈ (s.clients c).bpopKeys.keys, c ∈ waiting s (s.clients c).db k := by
    intro k hk
    exact (h.mem c _ k).mpr ⟨rfl, hk⟩
  obtain ⟨s1, hrun, hsame, hw, hne⟩ := unblockLoop_spec c _ s hmem (keys_nodup _) h.nonempty
  have hunblock : unblockClient c s = some
      { (s1.setClient c fun cl => { cl with bpopKeys := ∅, bpopTarget := none }).setClient c
          (fun cl => { cl with blocked := false }) with blockedClients := s1.blockedClients - 1 } := by
    unfold unblockClient unblockClientWaitingData
    rw [if_neg hkeys, hrun]
    rfl
  refine ⟨_, hunblock, ?_, ?_, ?_⟩
  · rw [hsame]
    simp [setClient]
  · intro d k
    change waiting s1 d k = _
    rw [hw]
    split_ifs with hk
    · rfl
    · symm
      apply erase_of_not_mem
      rw [h.mem]
      exact hk
  · exact hne

theorem BlockTables.blockedClients_pos : 0 < s.blockedClients := by
  obtain ⟨B, hcard, hmem⟩ := h.count
  rw [← hcard]
  exact Finset.card_pos.mpr ⟨c, (hmem c).mpr hc⟩

theorem BlockTables.unblocked (hu : Unblocked c s s') : BlockTables s' := by
  have hclient : s'.clients = update s.clients c
      { s.clients c with bpopKeys := ∅, bpopTarget := none, blocked := false } := by rw [hu.same]
  refine ⟨?_, ?_, hu.nonempty, ?_, ?_⟩
  · intro x d k
    rw [hu.waiting, (h.nodup d k).mem_erase_iff, h.mem, hclient]
    by_cases hx : x = c
    · subst hx
      simp
    · simp [hx]
  · intro d k
    rw [hu.waiting]
    exact (h.nodup d k).erase c
  · intro x
    rw [hclient]
    by_cases hx : x = c
    · subst hx
      simp
    · rw [update_of_ne hx]
      exact h.blocked x
  · obtain ⟨B, hcard, hmem⟩ := h.count
    refine ⟨B.erase c, ?_, ?_⟩
    · rw [Finset.card_erase_of_mem ((hmem c).mpr hc), hcard, hu.same]
    · intro x
      rw [Finset.mem_erase, hmem, hclient]
      by_cases hx : x = c
      · subst hx
        simp
      · simp [hx]

end

/-! ### Blocking -/

theorem blockLoop_spec (c : ClientId) (keys : List Key) (s : Server n)
    (hnonempty : ∀ d k, (s.blockingKeys d).lookup k ≠ some []) :
    let s' := blockLoop c keys s
    ∃ B : AList (fun _ : Key => Unit), s' = { s with
        blockingKeys := s'.blockingKeys
        clients := update s.clients c { s.clients c with bpopKeys := B } } ∧
      (∀ k, k ∈ B ↔ k ∈ (s.clients c).bpopKeys ∨ k ∈ keys) ∧ (∀ d k, waiting s' d k =
        if d = (s.clients c).db ∧ k ∈ keys ∧ k ∉ (s.clients c).bpopKeys then waiting s d k ++ [c]
          else waiting s d k) ∧
      ∀ d k, (s'.blockingKeys d).lookup k ≠ some [] := by
  induction keys generalizing s with
  | nil => exact ⟨(s.clients c).bpopKeys, by simp [blockLoop], fun k => by simp,
      fun d k => by simp [blockLoop], hnonempty⟩
  | cons key keys ih =>
    unfold blockLoop
    cases hkey : (s.clients c).bpopKeys.lookup key with
    | some u =>
      have hold : key ∈ (s.clients c).bpopKeys := lookup_isSome.mp (by rw [hkey]; rfl)
      obtain ⟨B, hsame, hB, hw, hne⟩ := ih s hnonempty
      refine ⟨B, hsame, ?_, ?_, hne⟩
      · intro k
        rw [hB, mem_cons]
        by_cases hk : k = key
        · subst hk
          simp [hold]
        · simp [hk]
      · intro d k
        rw [hw]
        by_cases hk : k = key
        · subst hk
          simp [hold]
        · simp [hk]
    | none =>
      have hnew : key ∉ (s.clients c).bpopKeys := AList.lookup_eq_none.mp hkey
      set s1 : Server n := { s.setClient c (fun cl => { cl with bpopKeys := cl.bpopKeys.insert key () }) with
        blockingKeys := update s.blockingKeys (s.clients c).db
          ((s.blockingKeys (s.clients c).db).insert key
            ((((s.blockingKeys (s.clients c).db).lookup key).getD []) ++ [c])) } with hs1
      have hclient : s1.clients c = { s.clients c with bpopKeys := (s.clients c).bpopKeys.insert key () } := by
        simp [hs1, setClient]
      have hw1 : ∀ d k, waiting s1 d k =
          if d = (s.clients c).db ∧ k = key then waiting s d k ++ [c] else waiting s d k := by
        intro d k
        by_cases hd : d = (s.clients c).db
        · subst hd
          by_cases hk : k = key
          · subst hk
            simp [hs1, waiting, ClientTable.get]
          · simp [hs1, waiting, ClientTable.get, lookup_insert_ne hk, hk]
        · simp [hs1, waiting, hd]
      have hnonempty1 : ∀ d k, (s1.blockingKeys d).lookup k ≠ some [] := by
        intro d k
        by_cases hd : d = (s.clients c).db
        · subst hd
          by_cases hk : k = key
          · subst hk
            simp [hs1]
          · simp only [hs1, update_self, lookup_insert_ne hk]
            exact hnonempty _ k
        · simp only [hs1, update_of_ne hd]
          exact hnonempty d k
      obtain ⟨B, hsame, hB, hw, hne⟩ := ih s1 hnonempty1
      refine ⟨B, ?_, ?_, ?_, hne⟩
      · refine hsame.trans ?_
        rw [hclient]
        simp [hs1, setClient]
      · intro k
        rw [hB, hclient, mem_insert, mem_cons]
        tauto
      · intro d k
        rw [hw, hw1]
        simp only [hclient, mem_insert, mem_cons]
        by_cases hd : d = (s.clients c).db
        · subst hd
          by_cases hk : k = key
          · subst hk
            simp [hnew]
          · simp [hk]
        · simp [hd]

/-- A client has been added at the end of the lists of some keys. -/
structure BlockedOn (c : ClientId) (keys : List Key) (target : Option Key) (s s' : Server n) : Prop where
  same : ∃ B : AList (fun _ : Key => Unit), (∀ k, k ∈ B ↔ k ∈ keys) ∧ s' = { s with
      blockingKeys := s'.blockingKeys
      clients := update s.clients c
        { s.clients c with bpopKeys := B, bpopTarget := target, blocked := true }
      blockedClients := s.blockedClients + 1
      history := s.history ++ [.blocked c (s.clients c).db keys] }
  waiting : ∀ d k, Clients.waiting s' d k =
    if d = (s.clients c).db ∧ k ∈ keys then Clients.waiting s d k ++ [c] else Clients.waiting s d k
  nonempty : ∀ d k, (s'.blockingKeys d).lookup k ≠ some []

variable (h : BlockTables s) (hc : (s.clients c).blocked = false)
include h hc

theorem BlockTables.bpopKeys_eq : (s.clients c).bpopKeys = ∅ := by
  have hnil : (s.clients c).bpopKeys.keys = [] := by
    by_contra hne
    rw [(h.blocked c).mpr hne] at hc
    cases hc
  apply AList.ext
  simpa [AList.keys, List.keys] using hnil

theorem blockForKeys_spec (keys : List Key) (target : Option Key) :
    BlockedOn c keys target s (blockForKeys c keys target s) := by
  obtain ⟨B, hsame, hB, hw, hne⟩ := blockLoop_spec c keys
    (s.setClient c fun cl => { cl with bpopTarget := target }) h.nonempty
  have hclient : (s.setClient c fun cl => { cl with bpopTarget := target }).clients c =
      { s.clients c with bpopTarget := target } := by simp [setClient]
  rw [hclient] at hsame
  simp only [hclient, h.bpopKeys_eq hc, notMem_empty, false_or, not_false_eq_true, and_true] at hB hw
  refine ⟨⟨B, hB, ?_⟩, hw, hne⟩
  unfold blockForKeys
  dsimp only
  rw [hsame]
  simp [setClient]

theorem BlockTables.blockedOn {keys : List Key} {target : Option Key} (hkeys : keys ≠ [])
    (hb : BlockedOn c keys target s s') : BlockTables s' := by
  obtain ⟨B, hB, hsame⟩ := hb.same
  have hclients : s'.clients = update s.clients c
      { s.clients c with bpopKeys := B, bpopTarget := target, blocked := true } := by rw [hsame]
  have hempty := h.bpopKeys_eq hc
  have hout : ∀ d k, c ∉ waiting s d k := by
    intro d k hmem
    rw [h.mem, hempty] at hmem
    exact notMem_empty k hmem.2
  refine ⟨?_, ?_, hb.nonempty, ?_, ?_⟩
  · intro x d k
    rw [hb.waiting, hclients]
    by_cases hx : x = c
    · subst hx
      rw [update_self]
      simp only [hB]
      split_ifs with hcond
      · simp [hcond]
      · exact ⟨fun hmem => absurd hmem (hout d k), fun hmem => absurd hmem hcond⟩
    · rw [update_of_ne hx, ← h.mem]
      split_ifs
      · simp [hx]
      · rfl
  · intro d k
    rw [hb.waiting]
    split_ifs
    · exact (h.nodup d k).append (nodup_singleton c) (disjoint_singleton.mpr (hout d k))
    · exact h.nodup d k
  · intro x
    rw [hclients]
    by_cases hx : x = c
    · subst hx
      obtain ⟨key, hkey⟩ := exists_mem_of_ne_nil keys hkeys
      have hmem : key ∈ B.keys := (hB key).mpr hkey
      simp only [update_self, true_iff]
      exact ne_nil_of_mem hmem
    · rw [update_of_ne hx]
      exact h.blocked x
  · obtain ⟨F, hcard, hmem⟩ := h.count
    have hnot : c ∉ F := by
      rw [hmem, hc]
      simp
    refine ⟨insert c F, ?_, ?_⟩
    · rw [Finset.card_insert_of_notMem hnot, hcard, hsame]
    · intro x
      rw [Finset.mem_insert, hmem, hclients]
      by_cases hx : x = c
      · subst hx
        simp
      · simp [hx]

end RedisIR.Clients
