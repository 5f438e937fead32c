import RedisIR.Proofs.ClientRuns

/-! Between two inputs nobody is blocked on a key that holds a list, as long as no list takes the
place of another value at a key for which a client waits. -/

namespace RedisIR.Clients

open CLib Server Keyspace

variable {n : ℕ}

/-- A client is blocked by a list command on this key of its database. -/
def BlockedOnKey (s : Server n) (c : ClientId) (key : Key) : Prop :=
  (s.clients c).blocked = true ∧ key ∈ (s.clients c).bpopKeys

/-- A key on which a client is blocked is in the table, so it would have been ready. -/
theorem Resting.not_list {s : Server n} (h : Resting s) (hhides : NoHides s) {c : ClientId} {key : Key}
    (hc : BlockedOnKey s c key) (l : List Bytes) : s.lookupKey (s.clients c).db key ≠ some (.list l) := by
  intro hl
  have hblock := h.live.serving.block
  have hmem : c ∈ waiting s (s.clients c).db key := (hblock.mem c _ key).mpr ⟨rfl, hc.2⟩
  have hready := h.live.serving.covered hhides _ key l hl (hblock.lookup_ne_none.mpr (List.ne_nil_of_mem hmem))
  rw [h.ready] at hready
  cases hready

/-- After every input, the server has not ended at an assertion, and no client is blocked on a key
that holds a list, if no list was stored over a value of another type at a key with blocked
clients. -/
theorem no_client_blocked_on_list (order : IterOrder) (D : Dataset n) (is : List Input) :
    ∃ s, run order is (Server.start D.dict) = some s ∧
      ((∀ d key awaited old val, Event.overwritten d key awaited old val ∈ s.history →
          awaited = true → old.isList = false → val.isList = false) →
        ∀ c key, BlockedOnKey s c key → ∀ l, s.lookupKey (s.clients c).db key ≠ some (.list l)) := by
  obtain ⟨s, hrun, hrest⟩ := run_spec (O := order) (resting_start D) is
  refine ⟨s, hrun, fun hhistory c key hc l => hrest.not_list ?_ hc l⟩
  intro e he hhides
  cases e with
  | overwritten d key awaited old val =>
    have := hhistory d key awaited old val he hhides.1 hhides.2.1
    rw [hhides.2.2] at this
    cases this
  | _ => exact hhides

/-! ### `SORT ... STORE` over a string -/

def keyK : Key := [107]
def keySrc : Key := [115]

/-- One database, with a list of one element under the second key. -/
def sourceList : Dataset 0 where
  dict _ := AList.singleton keySrc (.list [[49]])
  noEmpty d key := by
    by_cases h : key = keySrc
    · subst h
      simp [AList.singleton, AList.lookup]
    · simp [AList.singleton, AList.lookup, List.dlookup, Ne.symm h]

/-- `SORT` without options that change the list. -/
def sortList : Dict → Value → Option (List Bytes)
  | _, .list l => some l
  | _, _ => none

/-- `BLPOP k`, and of another client `RPUSH k 2` and `SORT s STORE k`. -/
def storeOverAbsent : List Input :=
  [.request 1 (.command (.bpop .head keyK [])), .request 2 (.command (.push .tail keyK [[50]])),
    .request 2 (.command (.sort keySrc sortList keyK))]

theorem push_serves_before_sort : ∃ s, run .ofTable storeOverAbsent (Server.start sourceList.dict) = some s ∧
      ∀ c key, BlockedOnKey s c key → ∀ l, s.lookupKey (s.clients c).db key ≠ some (.list l) := by
  obtain ⟨s, hrun, h⟩ := no_client_blocked_on_list .ofTable sourceList storeOverAbsent
  refine ⟨s, hrun, h ?_⟩
  have hhistory : s.history = [.blocked 1 0 [keyK], .pushed [[50]], .served 1 0 keyK, .returned [50]] := by
    have hmap : (run .ofTable storeOverAbsent (Server.start sourceList.dict)).map (·.history) =
        some [.blocked 1 0 [keyK], .pushed [[50]], .served 1 0 keyK, .returned [50]] := by decide +kernel
    rw [hrun] at hmap
    exact Option.some.inj hmap
  intro d key awaited old val hmem
  simp [hhistory] at hmem

/-- `BLPOP k`, and of another client `SET k 0` and `SORT s STORE k`. -/
def storeOverString : List Input :=
  [.request 1 (.command (.bpop .head keyK [])), .request 2 (.command (.set .none keyK [48])),
    .request 2 (.command (.sort keySrc sortList keyK))]

/-- The client is blocked while the key holds a list. -/
theorem sort_over_string_strands :
    ∃ s, run .ofTable storeOverString (Server.start sourceList.dict) = some s ∧ BlockedOnKey s 1 keyK ∧
      s.lookupKey (s.clients 1).db keyK = some (.list [[49]]) := by
  refine ⟨_, rfl, ⟨rfl, ?_⟩, rfl⟩
  exact AList.lookup_isSome.mp rfl

end RedisIR.Clients
