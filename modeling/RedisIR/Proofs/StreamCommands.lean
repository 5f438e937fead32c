import RedisIR.Proofs.ConsumerGroup

/-! Every command on a stream succeeds, keeps the pending lists of its groups consistent, and acts on
what a user sees of the stream as a function of that alone. -/

namespace RedisIR.Streams

open CLib ByteOrder List Function OrderedMap

variable {st st' : State} {h h' : Heap} {cg cg' : StreamCG}
variable {s : Stream}

/-- The groups of a stream own disjoint parts of the heap, and all of it. -/
structure Consistent (st : State) : Prop where
  stream : st.stream.Valid
  fresh : st.heap.Fresh
  group : ∀ g cg, st.cgroups.find g = some cg → GroupOk st.heap cg
  held : ∀ a, st.heap.nacks a ≠ none → ∃ g cg, st.cgroups.find g = some cg ∧ cg.Holds a
  had : ∀ c, st.heap.consumers c ≠ none → ∃ g cg, st.cgroups.find g = some cg ∧ cg.Has c
  disjoint : ∀ g g' cg cg', st.cgroups.find g = some cg → st.cgroups.find g' = some cg' → g ≠ g' →
    (∀ a, cg.Holds a → ¬ cg'.Holds a) ∧ ∀ c, cg.Has c → ¬ cg'.Has c

theorem Consistent.new : Consistent State.new where
  stream := streamNew_valid
  fresh _ _ := ⟨rfl, rfl⟩
  group g cg hg := by simp [State.new] at hg
  held a ha := absurd rfl ha
  had c hc := absurd rfl hc
  disjoint g g' cg cg' hg := by simp [State.new] at hg

theorem Consistent.setStream (hst : Consistent st) (hs : s.Valid) : Consistent { st with stream := s } :=
  ⟨hs, hst.fresh, hst.group, hst.held, hst.had, hst.disjoint⟩

/-- A group that is changed, created or destroyed keeps to its own part of the heap. -/
structure GroupChange (h : Heap) (o : Option StreamCG) (h' : Heap) (o' : Option StreamCG) : Prop where
  ok : ∀ cg' ∈ o', GroupOk h' cg'
  fresh : h'.Fresh
  nacks : ∀ a, (∀ cg ∈ o, ¬ cg.Holds a) → a < h.next → h'.nacks a = h.nacks a ∧
    ∀ cg' ∈ o', ¬ cg'.Holds a
  consumers : ∀ c, (∀ cg ∈ o, ¬ cg.Has c) → c < h.next → h'.consumers c = h.consumers c ∧
    ∀ cg' ∈ o', ¬ cg'.Has c
  held : ∀ a, h'.nacks a ≠ none → (∃ cg' ∈ o', cg'.Holds a) ∨ (∀ cg ∈ o, ¬ cg.Holds a) ∧ a < h.next
  had : ∀ c, h'.consumers c ≠ none → (∃ cg' ∈ o', cg'.Has c) ∨ (∀ cg ∈ o, ¬ cg.Has c) ∧ c < h.next

theorem GroupStep.change (hs : GroupStep h cg h' cg') : GroupChange h (some cg) h' (some cg') := by
  refine ⟨?_, hs.fresh, ?_, ?_, ?_, ?_⟩ <;> simp only [Option.mem_some_iff, forall_eq', exists_eq_left']
  exacts [hs.ok, hs.nacks, hs.consumers, hs.held, hs.had]

theorem GroupChange.create (hf : h.Fresh) (id : StreamID) : GroupChange h none h (some ⟨id, .empty, .empty⟩) where
  ok := by
    simp only [Option.mem_some_iff, forall_eq']
    exact ⟨by simp, by simp, by simp⟩
  fresh := hf
  nacks := by simp [StreamCG.Holds]
  consumers := by simp [StreamCG.Has]
  held a ha := .inr ⟨by simp, hf.lt ha⟩
  had c hc := .inr ⟨by simp, hf.consumer_lt hc⟩

theorem GroupChange.destroy (hok : GroupOk h cg) (hf : h.Fresh) :
    ∃ h', streamFreeCG h cg = some h' ∧ GroupChange h (some cg) h' none := by
  obtain ⟨h', he, hx, hn, hn', hc, hc'⟩ := streamFreeCG_spec hok
  have hne : ∀ a, h'.nacks a ≠ none → ¬ cg.Holds a := fun a ha hheld => ha (hn a hheld)
  have hce : ∀ c, h'.consumers c ≠ none → ¬ cg.Has c := fun c hc₁ hhad => hc₁ (hc c hhad)
  refine ⟨h', he, ⟨by simp, fun a ha => ⟨?_, ?_⟩, fun a ha _ => ⟨hn' a (ha cg rfl), by simp⟩,
    fun c hc _ => ⟨hc' c (hc cg rfl), by simp⟩, fun a ha => .inr ⟨by simpa using hne a ha, ?_⟩,
    fun c hc => .inr ⟨by simpa using hce c hc, ?_⟩⟩⟩
  · by_cases hheld : cg.Holds a
    · exact hn a hheld
    · rw [hn' a hheld, (hf a (hx ▸ ha)).1]
  · by_cases hhad : cg.Has a
    · exact hc a hhad
    · rw [hc' a hhad, (hf a (hx ▸ ha)).2]
  · rw [hn' a (hne a ha)] at ha
    exact hf.lt ha
  · rw [hc' c (hce c hc)] at hc
    exact hf.consumer_lt hc

section

variable {group : Bytes} {o' : Option StreamCG} {groups : OrderedMap Bytes StreamCG}

variable (hst : Consistent st) (hc : GroupChange st.heap (st.cgroups.find group) h' o')
include hst hc

/-- Any other group is as it was, and shares nothing with the one that was changed. -/
theorem Consistent.others {g : Bytes}
    (hne : g ≠ group) (hg : st.cgroups.find g = some cg) :
    (GroupOk h' cg ∧ pendingView h' cg = pendingView st.heap cg) ∧
      ∀ cg' ∈ o', (∀ a, cg.Holds a → ¬ cg'.Holds a) ∧ ∀ c, cg.Has c → ¬ cg'.Has c := by
  have hok := hst.group g cg hg
  have hn : ∀ a, cg.Holds a → h'.nacks a = st.heap.nacks a ∧ ∀ cg' ∈ o', ¬ cg'.Holds a := fun a ha =>
    hc.nacks a (fun cg₀ h₀ => (hst.disjoint _ _ _ _ hg h₀ hne).1 a ha) (hst.fresh.lt (hok.live ha))
  have hcs : ∀ c, cg.Has c → h'.consumers c = st.heap.consumers c ∧ ∀ cg' ∈ o', ¬ cg'.Has c := fun c hc₀ =>
    hc.consumers c (fun cg₀ h₀ => (hst.disjoint _ _ _ _ hg h₀ hne).2 c hc₀)
      (hst.fresh.consumer_lt (hok.live_consumer hc₀))
  exact ⟨hok.frame (fun a ha => (hn a ha).1) fun c hc₀ => (hcs c hc₀).1,
    fun cg' h' => ⟨fun a ha => (hn a ha).2 cg' h', fun c hc₀ => (hcs c hc₀).2 cg' h'⟩⟩

theorem Consistent.change (hself : groups.find group = o') (hothers : ∀ g, g ≠ group →
    groups.find g = st.cgroups.find g) : Consistent { st with cgroups := groups, heap := h' } where
  stream := hst.stream
  fresh := hc.fresh
  group g cg hg := by
    by_cases hgg : g = group
    · subst hgg
      exact hc.ok cg (hself.symm.trans hg)
    · exact (hst.others hc hgg ((hothers g hgg).symm.trans hg)).1.1
  held a ha := by
    rcases hc.held a ha with ⟨cg', hcg', hheld⟩ | ⟨hnot, hlt⟩
    · exact ⟨group, cg', hself.trans hcg', hheld⟩
    · rw [(hc.nacks a hnot hlt).1] at ha
      obtain ⟨g, cg, hg, hheld⟩ := hst.held a ha
      have hgg : g ≠ group := by
        rintro rfl
        exact hnot cg hg hheld
      exact ⟨g, cg, (hothers g hgg).trans hg, hheld⟩
  had c hcon := by
    rcases hc.had c hcon with ⟨cg', hcg', hhad⟩ | ⟨hnot, hlt⟩
    · exact ⟨group, cg', hself.trans hcg', hhad⟩
    · rw [(hc.consumers c hnot hlt).1] at hcon
      obtain ⟨g, cg, hg, hhad⟩ := hst.had c hcon
      have hgg : g ≠ group := by
        rintro rfl
        exact hnot cg hg hhad
      exact ⟨g, cg, (hothers g hgg).trans hg, hhad⟩
  disjoint g₁ g₂ cg₁ cg₂ hg₁ hg₂ hne := by
    by_cases h1 : g₁ = group
    · subst h1
      obtain ⟨hn, hcs⟩ := (hst.others hc (Ne.symm hne) ((hothers g₂ (Ne.symm hne)).symm.trans hg₂)).2
        cg₁ (hself.symm.trans hg₁)
      exact ⟨fun a ha ha' => hn a ha' ha, fun c hc hc' => hcs c hc' hc⟩
    · have hg₁' := (hothers g₁ h1).symm.trans hg₁
      by_cases h2 : g₂ = group
      · subst h2
        exact (hst.others hc h1 hg₁').2 cg₂ (hself.symm.trans hg₂)
      · exact hst.disjoint g₁ g₂ cg₁ cg₂ hg₁' ((hothers g₂ h2).symm.trans hg₂) hne

end

/-! ### What a user sees -/

structure StreamView where
  entries : List Item
  lastId : StreamID
  groups : Bytes → Option GroupView

def State.view (st : State) : StreamView :=
  ⟨live (items st.stream.nodes), st.stream.lastId, fun g => (st.cgroups.find g).map (groupView st.heap)⟩

theorem Consistent.view_change (hst : Consistent st) {group : Bytes} {o' : Option StreamCG}
    {groups : OrderedMap Bytes StreamCG} (hc : GroupChange st.heap (st.cgroups.find group) h' o')
    (hself : groups.find group = o') (hothers : ∀ g, g ≠ group → groups.find g = st.cgroups.find g) :
    State.view { st with cgroups := groups, heap := h' } =
      { st.view with groups := update st.view.groups group (o'.map (groupView h')) } := by
  simp only [State.view, StreamView.mk.injEq, true_and]
  funext g
  by_cases hgg : g = group
  · subst hgg
    rw [hself, update_self]
  · rw [hothers g hgg, update_of_ne hgg]
    rcases hg : st.cgroups.find g with _ | cg
    · rfl
    · simp [Option.map_some, groupView, (hst.others hc hgg hg).1.2]

namespace StreamView

def onGroup (v : StreamView) (group : Bytes)
    (f : GroupView → GroupView × List Command) : StreamView × List Command :=
  match v.groups group with
  | none => (v, [])
  | some g => ({ v with groups := update v.groups group (some (f g).1) }, (f g).2)

/-- The messages of the stream after the last one delivered go to a consumer. -/
def readNew (v : StreamView) (group name : Bytes) (count : ℕ) (noack : Bool) (clock : ℕ → ℕ) (g : GroupView) :
    GroupView × List Command :=
  if g.lastId < v.lastId then
    g.deliver group noack name (limit count (v.entries.filter (fun it => g.lastId.seqSucc ≤ it.id))) clock false
  else (g, [])

def has (v : StreamView) (id : StreamID) : Bool := v.entries.any (fun it => it.id = id)

def claim (v : StreamView) (group name : Bytes) (minidle : ℤ) (ids : List StreamID) (opts : ClaimOptions) (now : ℕ)
    (g : GroupView) : GroupView × List Command :=
  let r := (g.advance opts.lastid).claim v.has group name (max minidle 0) opts now ids
  (r.1, if g.lastId < opts.lastid ∧ r.2 = [] then [.xgroupSetid group (some r.1.lastId)] else r.2)

/-- The last `maxlen` entries. -/
def trim (es : List Item) : Option (Bool × ℕ) → List Item
  | none => es
  | some (_, maxlen) => es.drop (es.length - maxlen)

/-- The effect of a command, with what it propagates; trims are exact here, and the history of a
consumer is left out. -/
def exec (clock : ℕ → ℕ) (v : StreamView) : Command → StreamView × List Command
  | .xadd maxlen id fields =>
    let newId := id.getD (streamNextID v.lastId (clock 0))
    if fields = [] ∨ id = some .zero ∨ newId ≤ v.lastId then (v, [])
    else ({ v with entries := trim (v.entries ++ [⟨newId, fields, false⟩]) maxlen, lastId := newId },
      [.xadd maxlen (some newId) fields])
  | .xdel ids =>
    ({ v with entries := ids.foldl (fun es id => es.filter (fun it => it.id ≠ id)) v.entries },
      if ids.any v.has then [.xdel ids] else [])
  | .xtrim approx maxlen =>
    ({ v with entries := v.entries.drop (v.entries.length - maxlen) },
      if maxlen < v.entries.length then [.xtrim approx maxlen] else [])
  | .xgroupCreate group id =>
    if (v.groups group).isSome then (v, [])
    else ({ v with groups := update v.groups group (some ⟨id.getD v.lastId, fun _ => none⟩) },
      [.xgroupCreate group id])
  | .xgroupSetid group id =>
    v.onGroup group fun g => ({ g with lastId := id.getD v.lastId }, [.xgroupSetid group id])
  | .xgroupDestroy group =>
    if (v.groups group).isSome then ({ v with groups := update v.groups group none }, [.xgroupDestroy group])
    else (v, [])
  | .xgroupDelconsumer group consumer =>
    v.onGroup group fun g =>
      ({ g with pel := fun id => (g.pel id).filter (fun p => p.owner ≠ consumer) },
        [.xgroupDelconsumer group consumer])
  | .xreadgroup group consumer _ count noack =>
    v.onGroup group fun g => if v.entries = [] then (g, []) else v.readNew group consumer count noack clock g
  | .unblock group consumer count noack => v.onGroup group (v.readNew group consumer count noack clock)
  | .xack group ids =>
    v.onGroup group fun g =>
      ({ g with pel := ids.foldl (fun pel id => update pel id none) g.pel },
        if ids.any (fun id => (g.pel id).isSome) then [.xack group ids] else [])
  | .xclaim group consumer minidle ids opts => v.onGroup group (v.claim group consumer minidle ids opts (clock 0))

end StreamView

/-- `XREADGROUP` with the ID `>`, and the other commands. -/
def Command.ReadsNew : Command → Prop
  | .xreadgroup _ _ id _ _ => id = .max
  | _ => True

/-- The command with its trim made exact, to the length `k` if it was approximate. -/
def Command.exact (k : ℕ) : Command → Command
  | .xadd (some (approx, maxlen)) id fields => .xadd (some (false, if approx then k else maxlen)) id fields
  | .xtrim approx maxlen => .xtrim false (if approx then k else maxlen)
  | c => c

/-! ### The commands on the entries -/

theorem Stream.Valid.has (hs : s.Valid) (id : StreamID) :
    decide (streamRange s id id ≠ []) = (live (items s.nodes)).any (fun it => it.id = id) := by
  rw [hs.range, Bool.eq_iff_iff, decide_eq_true_iff, any_eq_true, ne_eq, filter_eq_nil_iff]
  push Not
  simp [le_antisymm_iff, and_comm]

theorem Stream.Valid.trim_exact (hs : s.Valid) (maxlen : ℕ) (approx : Bool) :
    live (items (streamTrimByLength s maxlen approx).1.nodes) =
      (live (items s.nodes)).drop ((live (items s.nodes)).length -
        if approx then (streamTrimByLength s maxlen approx).1.length else maxlen) := by
  obtain ⟨-, hlive, -, -, hexact⟩ := hs.trim maxlen approx
  rw [hlive, ← hs.length]
  cases approx with
  | true => rfl
  | false =>
    rw [hexact rfl, if_neg Bool.false_ne_true]
    congr 1
    omega

theorem xaddTrim_spec (hs : s.Valid) (maxlen : Option (Bool × ℕ)) :
    (xaddTrim s maxlen).1.Valid ∧ (xaddTrim s maxlen).1.lastId = s.lastId ∧
      live (items (xaddTrim s maxlen).1.nodes) = StreamView.trim (live (items s.nodes)) (xaddTrim s maxlen).2 ∧
      ∃ k, ∀ id fields, Command.exact k (.xadd maxlen id fields) = .xadd (xaddTrim s maxlen).2 id fields := by
  rcases maxlen with _ | ⟨approx, maxlen⟩
  · exact ⟨hs, rfl, rfl, 0, fun _ _ => rfl⟩
  · obtain ⟨hv, -, -, hlast, -⟩ := hs.trim maxlen approx
    refine ⟨hv, hlast, ?_, (streamTrimByLength s maxlen approx).1.length, fun id fields => ?_⟩
    · rw [xaddTrim, hs.trim_exact]
      cases approx <;> rfl
    · cases approx <;> rfl

variable (full : Node → Bool) (cs : List Timed) (clock : ℕ → ℕ)

theorem xaddCommand_spec (hst : Consistent st) (maxlen : Option (Bool × ℕ)) (id : Option StreamID)
    (fields : Fields) (clock : ℕ → ℕ) : Consistent (xaddCommand full st maxlen id fields (clock 0)).1 ∧ ∃ k,
      ((xaddCommand full st maxlen id fields (clock 0)).1.view, (xaddCommand full st maxlen id fields (clock 0)).2) =
        st.view.exec clock (Command.exact k (.xadd maxlen id fields)) := by
  have hexec : ∀ k, (fields = [] ∨ id = some .zero ∨
      id.getD (streamNextID st.stream.lastId (clock 0)) ≤ st.stream.lastId) →
      st.view.exec clock (Command.exact k (.xadd maxlen id fields)) = (st.view, []) := by
    intro k h
    rcases maxlen with _ | ⟨approx, maxlen⟩ <;> exact if_pos h
  by_cases h0 : fields = [] ∨ id = some .zero
  · rw [xaddCommand, if_pos h0]
    exact ⟨hst, 0, (hexec 0 (h0.imp_right .inl)).symm⟩
  rw [xaddCommand, if_neg h0]
  rcases ha : streamAppendItem full st.stream fields id (clock 0) with _ | ⟨s, newId⟩
  · exact ⟨hst, 0, (hexec 0 (.inr (.inr (streamAppendItem_none.mp ha)))).symm⟩
  · obtain ⟨hid, hlt, -⟩ := streamAppendItem_some ha
    obtain ⟨hs, hlive, hlast⟩ := hst.stream.append ha
    obtain ⟨hv, hlast', htrim, k, hk⟩ := xaddTrim_spec hs maxlen
    refine ⟨hst.setStream hv, k, ?_⟩
    have hnot : ¬ (fields = [] ∨ id = some .zero ∨ newId ≤ st.view.lastId) := by
      rw [← or_assoc]
      exact not_or.mpr ⟨h0, not_le.mpr hlt⟩
    rw [hk, StreamView.exec, show id.getD (streamNextID st.view.lastId (clock 0)) = newId from hid.symm, if_neg hnot]
    simp [State.view, htrim, hlive, hlast', hlast]

theorem deleteItems_spec (hs : s.Valid) (ids : List StreamID) :
    (deleteItems ids s).1.Valid ∧ (deleteItems ids s).1.lastId = s.lastId ∧
      live (items (deleteItems ids s).1.nodes) =
        ids.foldl (fun es id => es.filter (fun it => it.id ≠ id)) (live (items s.nodes)) ∧
      ((deleteItems ids s).2 ≠ 0 ↔ ∃ id ∈ ids, ∃ it ∈ live (items s.nodes), it.id = id) := by
  induction ids generalizing s with
  | nil => exact ⟨hs, rfl, rfl, by simp [deleteItems]⟩
  | cons id ids ih =>
    obtain ⟨hv, hlive, hlast, hdel⟩ := hs.delete id
    obtain ⟨hv', hlast', hlive', hdel'⟩ := ih hv
    refine ⟨hv', hlast'.trans hlast, by rw [foldl_cons, ← hlive]; exact hlive', ?_⟩
    simp only [deleteItems, mem_cons, exists_eq_or_imp]
    by_cases hex : ∃ it ∈ live (items s.nodes), it.id = id
    · simp only [hdel.mpr hex, hex, true_or, iff_true]
      exact Nat.succ_ne_zero _
    · have hkeep : (live (items s.nodes)).filter (fun it => it.id ≠ id) = live (items s.nodes) :=
        filter_eq_self.mpr fun it hit => by simpa using fun he => hex ⟨it, hit, he⟩
      rw [hlive, hkeep] at hdel'
      simpa only [Bool.eq_false_iff.mpr (hdel.not.mpr hex), hex, false_or, Bool.toNat_false, Nat.add_zero] using hdel'

theorem xdelCommand_spec (hst : Consistent st) (ids : List StreamID) (clock : ℕ → ℕ) :
    Consistent (xdelCommand st ids).1 ∧ ((xdelCommand st ids).1.view, (xdelCommand st ids).2) =
      st.view.exec clock (.xdel ids) := by
  obtain ⟨hv, hlast, hlive, hdel⟩ := deleteItems_spec hst.stream ids
  refine ⟨hst.setStream hv, ?_⟩
  have hany : (deleteItems ids st.stream).2 ≠ 0 ↔ ids.any st.view.has := by
    simpa [StreamView.has, State.view] using hdel
  simp only [StreamView.exec, xdelCommand, ← hany]
  simp [State.view, hlive, hlast]

theorem xtrimCommand_spec (hst : Consistent st) (approx : Bool) (maxlen : ℕ) (clock : ℕ → ℕ) :
    Consistent (xtrimCommand st approx maxlen).1 ∧ ∃ k,
      ((xtrimCommand st approx maxlen).1.view, (xtrimCommand st approx maxlen).2) =
        st.view.exec clock (Command.exact k (.xtrim approx maxlen)) := by
  obtain ⟨hv, -, hle, hlast, hexact⟩ := hst.stream.trim maxlen approx
  refine ⟨hst.setStream hv, (streamTrimByLength st.stream maxlen approx).1.length, ?_⟩
  have hlen : st.view.entries.length = st.stream.length := hst.stream.length.symm
  have hcond : (streamTrimByLength st.stream maxlen approx).2 ≠ 0 ↔
      (if approx then (streamTrimByLength st.stream maxlen approx).1.length else maxlen) < st.view.entries.length := by
    rw [hlen, show (streamTrimByLength st.stream maxlen approx).2 =
      st.stream.length - (streamTrimByLength st.stream maxlen approx).1.length from rfl]
    cases approx with
    | true => simp only [if_true]; omega
    | false => rw [hexact rfl, if_neg Bool.false_ne_true]; omega
  simp only [StreamView.exec, xtrimCommand, Command.exact, ← hcond]
  simp only [State.view, hst.stream.trim_exact, hlast]
  cases approx <;> rfl

/-! ### The commands on a group -/

/-- What a command on one group has to do for the whole stream to be consistent, and to look as `F` says
if `P` holds. -/
def GroupSpec (st : State) (group : Bytes) (f : Heap → StreamCG → Option (Heap × StreamCG × List Command))
    (P : Prop) (F : GroupView → GroupView × List Command) : Prop :=
  ∀ cg, st.cgroups.find group = some cg → GroupOk st.heap cg → ∃ h' cg' ps, f st.heap cg =
    some (h', cg', ps) ∧ GroupStep st.heap cg h' cg' ∧ (P → (groupView h' cg', ps) = F (groupView st.heap cg))

section

variable (hst : Consistent st)
include hst

section

variable (group consumer : Bytes)

theorem onGroup_spec {group : Bytes} {f : Heap → StreamCG → Option (Heap × StreamCG × List Command)}
    {P : Prop} {F : GroupView → GroupView × List Command} (hf : GroupSpec st group f P F) :
    ∃ st' ps, onGroup st group f = some (st', ps) ∧ Consistent st' ∧
      (P → (st'.view, ps) = st.view.onGroup group F) := by
  rcases hg : st.cgroups.find group with _ | cg
  · exact ⟨st, [], by simp [onGroup, hg], hst, fun _ => by simp [StreamView.onGroup, State.view, hg]⟩
  · obtain ⟨h', cg', ps, he, hs, hv⟩ := hf cg hg (hst.group group cg hg)
    have hc : GroupChange st.heap (st.cgroups.find group) h' (some cg') := hg ▸ hs.change
    have hself := find_insert_self st.cgroups group cg'
    have hothers : ∀ g, g ≠ group → (st.cgroups.insert group cg').find g = st.cgroups.find g := fun g hne =>
      find_insert_of_ne _ _ hne
    refine ⟨_, ps, by simp [onGroup, hg, he], hst.change hc hself hothers, fun hP => ?_⟩
    have hgv : st.view.groups group = some (groupView st.heap cg) := by simp [State.view, hg]
    rw [hst.view_change hc hself hothers, StreamView.onGroup, hgv]
    simp [← hv hP, Option.map_some]

theorem readNew_spec (count : ℕ) (noack : Bool) (clock : ℕ → ℕ) :
    GroupSpec st group (readNew st.stream group consumer count noack clock) True
      (st.view.readNew group consumer count noack clock) := by
  intro cg _ hok
  by_cases hlt : cg.lastId < st.stream.lastId
  · obtain ⟨h₁, cg₁, c, he₁, hc, hs₁, hl₁, hv₁⟩ := streamLookupConsumer_spec hok hst.fresh consumer
    have hg₁ : groupView h₁ cg₁ = groupView st.heap cg := by simp only [groupView, hl₁, hv₁]
    have hr : streamRange st.stream cg.lastId.seqSucc .max =
        st.view.entries.filter (fun it => cg.lastId.seqSucc ≤ it.id) := by
      rw [hst.stream.range]
      simp [State.view, StreamID.le_max]
    have hF : st.view.readNew group consumer count noack clock (groupView st.heap cg) =
        (groupView st.heap cg).deliver group noack consumer
          (limit count (streamRange st.stream cg.lastId.seqSucc .max)) clock false := by
      rw [hr]
      exact if_pos hlt
    obtain ⟨h₂, cg₂, he₂, hs₂, hv₂⟩ := deliver_spec hs₁.ok hs₁.fresh hc group noack
      (limit count (streamRange st.stream cg.lastId.seqSucc .max)) clock false
    rw [hg₁, ← hF] at he₂ hv₂
    refine ⟨h₂, cg₂, (st.view.readNew group consumer count noack clock (groupView st.heap cg)).2, ?_,
      hs₁.trans hs₂, fun _ => (Prod.fst_eq_iff.mp hv₂.symm).symm⟩
    simp [readNew, streamCompareID_pos, hlt, he₁, he₂]
  · refine ⟨st.heap, cg, [], by simp [readNew, streamCompareID_pos, hlt], .refl hok hst.fresh, fun _ => ?_⟩
    exact (if_neg hlt).symm

theorem readHistory_spec (id : StreamID) (count : ℕ) (clock : ℕ → ℕ)
    (F : GroupView → GroupView × List Command) :
    GroupSpec st group (readHistory st.stream consumer id count clock) False F := by
  intro cg _ hok
  obtain ⟨h₁, cg₁, c, he₁, hc, hs₁, -, -⟩ := streamLookupConsumer_spec hok hst.fresh consumer
  obtain ⟨con, hcon, -, hpel⟩ := hs₁.ok.consumers consumer c hc
  have hes : ∀ e ∈ limit count (con.pel.entries.filter (fun e => id.seqSucc ≤ e.1)), cg₁.Holds e.2 := by
    intro e he
    have hmem : e ∈ con.pel.entries := by
      rw [limit] at he
      split_ifs at he
      · exact mem_of_mem_filter he
      · exact mem_of_mem_filter (mem_of_mem_take he)
    exact ⟨e.1, (hpel e.1 e.2 (mem_entries_iff.mp hmem)).1⟩
  obtain ⟨h₂, he₂, hs₂⟩ := redeliver_spec hs₁.ok hs₁.fresh st.stream hes clock
  exact ⟨h₂, cg₁, [], by simp [readHistory, he₁, hcon, he₂], hs₁.trans hs₂, False.elim⟩

theorem claimGroup_spec (minidle : ℤ) (ids : List StreamID)
    (opts : ClaimOptions) (now : ℕ) :
    GroupSpec st group (claimGroup st.stream group consumer minidle ids opts now) True
      (st.view.claim group consumer minidle ids opts now) := by
  intro cg _ hok
  have hs₀ := GroupStep.advance hok hst.fresh opts.lastid
  obtain ⟨h₁, cg₁, c, he₁, hc, hs₁, hl₁, hv₁⟩ := streamLookupConsumer_spec hs₀.ok hst.fresh consumer
  have hg₁ : groupView h₁ cg₁ = (groupView st.heap cg).advance opts.lastid := by
    rw [← groupView_advance]
    simp [groupView, hl₁, hv₁]
  have hhas : (fun id => decide (streamRange st.stream id id ≠ [])) = st.view.has := funext hst.stream.has
  obtain ⟨h₂, cg₂, he₂, hs₂, hv₂⟩ :=
    claimEntries_spec hs₁.ok hs₁.fresh hc st.stream group (max minidle 0) opts now ids
  rw [hhas, hg₁] at he₂ hv₂
  generalize hr : ((groupView st.heap cg).advance opts.lastid).claim st.view.has group consumer
    (max minidle 0) opts now ids
    = r at he₂ hv₂
  have hcond : (groupView st.heap cg).lastId < opts.lastid ∧ r.2 = [] ↔
      (decide (streamCompareID opts.lastid cg.lastId > 0) && r.2.isEmpty) = true := by
    simp [streamCompareID_pos, groupView]
  have hF : st.view.claim group consumer minidle ids opts now (groupView st.heap cg) = (groupView h₂ cg₂,
      if decide (streamCompareID opts.lastid cg.lastId > 0) && r.2.isEmpty then
        [streamPropagateGroupID cg₂ group] else r.2) := by
    rw [StreamView.claim, hr, hv₂, if_congr hcond rfl rfl, streamPropagateGroupID, ← hv₂, groupView]
  rw [hF]
  refine ⟨h₂, cg₂, _, ?_, (hs₀.trans hs₁).trans hs₂, fun _ => rfl⟩
  simp [claimGroup, he₁, he₂, Option.bind_eq_bind, Option.bind_some, Option.pure_def]

theorem readGroup_spec (id : StreamID) (count : ℕ) (noack : Bool)
    (clock : ℕ → ℕ) : GroupSpec st group (readGroup st.stream group consumer id count noack clock) (id = .max)
      (fun g => if st.view.entries = [] then (g, []) else st.view.readNew group consumer count noack clock g) := by
  intro cg hg hok
  have hempty : st.stream.length = 0 ↔ st.view.entries = [] := by
    rw [hst.stream.length, length_eq_zero_iff]
    rfl
  by_cases hid : id = .max
  · by_cases hlen : st.stream.length = 0
    · refine ⟨st.heap, cg, [], by simp [readGroup, hid, hlen], .refl hok hst.fresh, fun _ => ?_⟩
      exact (if_pos (hempty.mp hlen)).symm
    · obtain ⟨h', cg', ps, he, hs, hv⟩ := readNew_spec hst group consumer count noack clock cg hg hok
      refine ⟨h', cg', ps, by simp [readGroup, hid, hlen, he], hs, fun _ => ?_⟩
      exact (hv trivial).trans (if_neg (hempty.not.mp hlen)).symm
  · obtain ⟨h', cg', ps, he, hs, -⟩ :=
      readHistory_spec hst group consumer id count clock (fun g => (g, [])) cg hg hok
    exact ⟨h', cg', ps, by simp [readGroup, hid, he], hs, fun h => absurd h hid⟩

theorem ackGroup_spec (ids : List StreamID) : GroupSpec st group (fun h cg => do
        let (h, cg, acknowledged) ← ackEntries ids h cg
        pure (h, cg, if acknowledged ≠ 0 then [.xack group ids] else [])) True
      fun g => ({ g with pel := ids.foldl (fun pel id => update pel id none) g.pel },
        if ids.any (fun id => (g.pel id).isSome) then [.xack group ids] else []) := by
  intro cg _ hok
  obtain ⟨h', cg', n, he, hs, hl, hv, hn⟩ := ackEntries_spec hok hst.fresh ids
  have hany : n ≠ 0 ↔ ids.any (fun id => ((groupView st.heap cg).pel id).isSome) = true := by
    rw [Ne, hn]
    simp [groupView, Option.isSome_iff_ne_none]
  refine ⟨h', cg', if n ≠ 0 then [.xack group ids] else [], by simp [he], hs, fun _ => ?_⟩
  rw [if_congr hany rfl rfl, groupView, hl, hv]
  rfl

theorem delConsumerGroup_spec : GroupSpec st group (fun h cg => do
        let (h, cg) ← streamDelConsumer h cg consumer
        pure (h, cg, [.xgroupDelconsumer group consumer])) True
      fun g => ({ g with pel := fun id => (g.pel id).filter (fun p => p.owner ≠ consumer) },
        [.xgroupDelconsumer group consumer]) := by
  intro cg _ hok
  obtain ⟨h', cg', he, hs, hl, hv⟩ := streamDelConsumer_spec hok hst.fresh consumer
  refine ⟨h', cg', [.xgroupDelconsumer group consumer], by simp [he], hs, fun _ => ?_⟩
  rw [groupView, hl, hv]
  rfl

theorem setidGroup_spec (id : Option StreamID) :
    GroupSpec st group (fun h cg => some (h, { cg with lastId := id.getD st.stream.lastId },
      [.xgroupSetid group id])) True
      fun g => ({ g with lastId := id.getD st.view.lastId }, [.xgroupSetid group id]) :=
  fun _ _ hok => ⟨_, _, _, rfl, .lastId hok hst.fresh _, fun _ => rfl⟩

/-! ### The commands that create and destroy groups -/

theorem xgroupCreate_spec (id : Option StreamID) :
    ∃ st' ps, exec full clock st (.xgroupCreate group id) = some (st', ps) ∧ Consistent st' ∧
      (st'.view, ps) = st.view.exec clock (.xgroupCreate group id) := by
  rcases hg : st.cgroups.find group with _ | cg
  · have hself := find_insert_self st.cgroups group ⟨id.getD st.stream.lastId, .empty, .empty⟩
    have hothers : ∀ g, g ≠ group →
        (st.cgroups.insert group ⟨id.getD st.stream.lastId, .empty, .empty⟩).find g = st.cgroups.find g :=
      fun g hne => find_insert_of_ne _ _ hne
    have hc :
      GroupChange st.heap (st.cgroups.find group) st.heap (some ⟨id.getD st.stream.lastId, .empty, .empty⟩) :=
      hg ▸ .create hst.fresh _
    refine ⟨_, [.xgroupCreate group id], by simp only [exec, hg], hst.change hc hself hothers, ?_⟩
    have hgv : ¬ (st.view.groups group).isSome = true := by simp [State.view, hg]
    rw [hst.view_change hc hself hothers, StreamView.exec, if_neg hgv]
    rfl
  · refine ⟨st, [], by simp only [exec, hg], hst, ?_⟩
    have hgv : (st.view.groups group).isSome = true := by simp [State.view, hg]
    rw [StreamView.exec, if_pos hgv]

theorem xgroupDestroy_spec :
    ∃ st' ps, exec full clock st (.xgroupDestroy group) = some (st', ps) ∧ Consistent st' ∧
      (st'.view, ps) = st.view.exec clock (.xgroupDestroy group) := by
  rcases hg : st.cgroups.find group with _ | cg
  · refine ⟨st, [], by simp only [exec, hg], hst, ?_⟩
    have hgv : ¬ (st.view.groups group).isSome = true := by simp [State.view, hg]
    rw [StreamView.exec, if_neg hgv]
  · obtain ⟨h', he, hc⟩ := GroupChange.destroy (hst.group group cg hg) hst.fresh
    rw [← hg] at hc
    have hself : (st.cgroups.erase group).find group = none := by simp [find_erase]
    have hothers : ∀ g, g ≠ group → (st.cgroups.erase group).find g = st.cgroups.find g := fun g hne => by
      simp [find_erase, hne]
    refine ⟨_, [.xgroupDestroy group],
      by simp only [exec, hg, he, Option.bind_eq_bind, Option.bind_some, Option.pure_def],
      hst.change hc hself hothers, ?_⟩
    have hgv : (st.view.groups group).isSome = true := by simp [State.view, hg]
    rw [hst.view_change hc hself hothers, StreamView.exec, if_pos hgv]
    rfl

end

/-! ### All commands -/

/-- Every command succeeds and keeps the state consistent; what it does to the view of the state, and
what it propagates, is a function of the view. -/
theorem exec_spec (c : Command) :
    ∃ st' ps, exec full clock st c = some (st', ps) ∧ Consistent st' ∧
      (c.ReadsNew → ∃ k, (st'.view, ps) = st.view.exec clock (c.exact k)) := by
  cases c with
  | xadd maxlen id fields =>
    obtain ⟨hc, hv⟩ := xaddCommand_spec full hst maxlen id fields clock
    exact ⟨_, _, rfl, hc, fun _ => hv⟩
  | xdel ids =>
    obtain ⟨hc, hv⟩ := xdelCommand_spec hst ids clock
    exact ⟨_, _, rfl, hc, fun _ => ⟨0, hv⟩⟩
  | xtrim approx maxlen =>
    obtain ⟨hc, hv⟩ := xtrimCommand_spec hst approx maxlen clock
    exact ⟨_, _, rfl, hc, fun _ => hv⟩
  | xgroupCreate group id =>
    obtain ⟨st', ps, he, hc, hv⟩ := xgroupCreate_spec full clock hst group id
    exact ⟨st', ps, he, hc, fun _ => ⟨0, hv⟩⟩
  | xgroupSetid group id =>
    obtain ⟨st', ps, he, hc, hv⟩ := onGroup_spec hst (setidGroup_spec hst group id)
    exact ⟨st', ps, he, hc, fun _ => ⟨0, hv trivial⟩⟩
  | xgroupDestroy group =>
    obtain ⟨st', ps, he, hc, hv⟩ := xgroupDestroy_spec full clock hst group
    exact ⟨st', ps, he, hc, fun _ => ⟨0, hv⟩⟩
  | xgroupDelconsumer group consumer =>
    obtain ⟨st', ps, he, hc, hv⟩ := onGroup_spec hst (delConsumerGroup_spec hst group consumer)
    exact ⟨st', ps, he, hc, fun _ => ⟨0, hv trivial⟩⟩
  | xreadgroup group consumer id count noack =>
    obtain ⟨st', ps, he, hc, hv⟩ := onGroup_spec hst (readGroup_spec hst group consumer id count noack clock)
    exact ⟨st', ps, he, hc, fun hid => ⟨0, hv hid⟩⟩
  | unblock group consumer count noack =>
    obtain ⟨st', ps, he, hc, hv⟩ := onGroup_spec hst (readNew_spec hst group consumer count noack clock)
    exact ⟨st', ps, he, hc, fun _ => ⟨0, hv trivial⟩⟩
  | xack group ids =>
    obtain ⟨st', ps, he, hc, hv⟩ := onGroup_spec hst (ackGroup_spec hst group ids)
    exact ⟨st', ps, he, hc, fun _ => ⟨0, hv trivial⟩⟩
  | xclaim group consumer minidle ids opts =>
    obtain ⟨st', ps, he, hc, hv⟩ := onGroup_spec hst (claimGroup_spec hst group consumer minidle ids opts (clock 0))
    exact ⟨st', ps, he, hc, fun _ => ⟨0, hv trivial⟩⟩

theorem run_consistent : ∃ st' ps, run full cs st = some (st', ps) ∧ Consistent st' := by
  induction cs generalizing st with
  | nil => exact ⟨st, [], rfl, hst⟩
  | cons c cs ih =>
    obtain ⟨st₁, ps₁, he₁, hst₁, -⟩ := exec_spec full c.clock hst c.command
    obtain ⟨st₂, ps₂, he₂, hst₂⟩ := ih hst₁
    exact ⟨st₂, ps₁ ++ ps₂, by simp [run, he₁, he₂], hst₂⟩

end

/-! ### The pending lists -/

/-- `name` is a consumer of the group: its address and what is stored there. -/
def StreamCG.Member (h : Heap) (cg : StreamCG) (name : Bytes) (c : ℕ) (con : StreamConsumer) : Prop :=
  cg.consumers.find name = some c ∧ h.consumers c = some con

/-- The group's pending list is the disjoint union of those of its consumers, with the same records. -/
structure PelsAgree (h : Heap) (cg : StreamCG) : Prop where
  alive : ∀ name c, cg.consumers.find name = some c → ∃ con, h.consumers c = some con
  union : ∀ id a, cg.pel.find id = some a ↔ ∃ name c con, cg.Member h name c con ∧ con.pel.find id = some a
  disjoint : ∀ id name name' c c' con con', cg.Member h name c con → cg.Member h name' c' con' →
    con.pel.find id ≠ none → con'.pel.find id ≠ none → name = name'
  owner : ∀ name c con id a, cg.Member h name c con → con.pel.find id = some a →
    ∃ n, h.nacks a = some n ∧ n.consumer = some c

theorem GroupOk.pelsAgree (hok : GroupOk h cg) : PelsAgree h cg := by
  have hmem : ∀ {name c con}, cg.Member h name c con → con.name = name ∧
      ∀ id a, con.pel.find id = some a → cg.pel.find id = some a ∧ ∃ n, h.nacks a = some n ∧
        n.consumer = some c := by
    rintro name c con ⟨hc, hcon⟩
    obtain ⟨con', hcon', hname, hpel⟩ := hok.consumers name c hc
    obtain rfl : con = con' := by simpa [hcon] using hcon'
    exact ⟨hname, hpel⟩
  refine ⟨fun name c hc => ?_, fun id a => ⟨fun ha => ?_, ?_⟩, ?_,
    fun name c con id a hm ha => ((hmem hm).2 id a ha).2⟩
  · obtain ⟨con, hcon, -⟩ := hok.consumers name c hc
    exact ⟨con, hcon⟩
  · obtain ⟨n, c, con, -, -, ⟨name, hc⟩, hcon, hpel⟩ := hok.pending id a ha
    exact ⟨name, c, con, ⟨hc, hcon⟩, hpel⟩
  · rintro ⟨name, c, con, hm, ha⟩
    exact ((hmem hm).2 id a ha).1
  · intro id name name' c c' con con' hm hm' ha ha'
    obtain ⟨a, ha⟩ := Option.ne_none_iff_exists'.mp ha
    obtain ⟨a', ha'⟩ := Option.ne_none_iff_exists'.mp ha'
    obtain ⟨hg, n, hn, hnc⟩ := (hmem hm).2 id a ha
    obtain ⟨hg', n', hn', hnc'⟩ := (hmem hm').2 id a' ha'
    -- both consumers are the one that the group's record names
    obtain rfl : a = a' := Option.some.inj (hg.symm.trans hg')
    obtain rfl : n = n' := Option.some.inj (hn.symm.trans hn')
    obtain rfl : c = c' := Option.some.inj (hnc.symm.trans hnc')
    obtain rfl : con = con' := Option.some.inj (hm.2.symm.trans hm'.2)
    exact (hmem hm).1.symm.trans (hmem hm').1

/-- Whatever commands a stream gets, none of them follows a pointer to something freed or missing or
hits the panic. In every group the two kinds of pending lists agree, and every record that is
allocated is that of one entry of one group. -/
theorem pending_lists_consistent :
    ∃ st ps, run full cs State.new = some (st, ps) ∧
      (∀ group cg, st.cgroups.find group = some cg → PelsAgree st.heap cg) ∧ ∀ a, st.heap.nacks a ≠ none →
        ∃! p : Bytes × StreamID, ∃ cg, st.cgroups.find p.1 = some cg ∧ cg.pel.find p.2 = some a := by
  obtain ⟨st, ps, he, hst⟩ := run_consistent full cs Consistent.new
  refine ⟨st, ps, he, fun group cg hg => (hst.group group cg hg).pelsAgree, fun a ha => ?_⟩
  obtain ⟨g, cg, hg, id, hid⟩ := hst.held a ha
  refine ⟨(g, id), ⟨cg, hg, hid⟩, ?_⟩
  rintro ⟨g', id'⟩ ⟨cg', hg', hid'⟩
  obtain rfl : g' = g := by
    by_contra hne
    exact (hst.disjoint g' g cg' cg hg' hg hne).1 a ⟨id', hid'⟩ ⟨id, hid⟩
  obtain rfl : cg' = cg := Option.some.inj (hg'.symm.trans hg)
  rw [(hst.group g' cg' hg').inj id' id a hid' hid]

/-- After any commands the entries are in the order of their IDs, up to the last ID, `XLEN` is their
number, and a range has those between its ends, whatever the nodes. -/
theorem stream_in_order : ∃ st ps, run full cs State.new = some (st, ps) ∧
      st.stream.length = st.view.entries.length ∧ st.view.entries.Pairwise (fun a b => a.id < b.id) ∧
      (∀ it ∈ st.view.entries, it.id ≤ st.stream.lastId) ∧ ∀ start last,
        streamRange st.stream start last = st.view.entries.filter (fun it => start ≤ it.id ∧ it.id ≤ last) := by
  obtain ⟨st, ps, he, hst⟩ := run_consistent full cs Consistent.new
  exact ⟨st, ps, he, hst.stream.length, live_sorted hst.stream.sorted,
    fun it hit => hst.stream.bounded it (mem_live.mp hit).1, hst.stream.range⟩

end RedisIR.Streams
