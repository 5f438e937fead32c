import RedisIR.Spec.ConsumerGroup
import RedisIR.Proofs.Stream

/-! The pending lists of consumer groups: what every command keeps of the records, the consumers and
the two kinds of trees, and what it does to the pending entries as a user sees them. -/

namespace RedisIR.Streams

open CLib ByteOrder List Option Function OrderedMap

variable {c : ℕ} {n : StreamNACK} {con : StreamConsumer} {pel : Pel} {name : Bytes} {es : List (StreamID × ℕ)}

namespace Heap

variable (h : Heap) (a b : ℕ)

section

variable (n : Option StreamNACK) (c : Option StreamConsumer)

@[simp] theorem nacks_setNack :
    (h.setNack a n).nacks b = if b = a then n else h.nacks b := update_apply ..

@[simp] theorem nacks_setConsumer : (h.setConsumer a c).nacks = h.nacks := rfl

@[simp] theorem consumers_setConsumer :
    (h.setConsumer a c).consumers b = if b = a then c else h.consumers b := update_apply ..

@[simp] theorem nacks_newNack (n : StreamNACK) :
    (h.newNack n).nacks b = if b = h.next then some n else h.nacks b := update_apply ..

@[simp] theorem consumers_newNack (n : StreamNACK) : (h.newNack n).consumers = h.consumers := rfl

@[simp] theorem consumers_setNack : (h.setNack a n).consumers = h.consumers := rfl

theorem setConsumer_setNack : (h.setNack a n).setConsumer b c = (h.setConsumer b c).setNack a n := rfl

end

theorem setConsumer_setConsumer (c c' : Option StreamConsumer) :
    (h.setConsumer a c).setConsumer a c' = h.setConsumer a c' := by
  simp [setConsumer]

@[simp] theorem consumers_newConsumer (c : StreamConsumer) :
    (h.newConsumer c).consumers b = if b = h.next then some c else h.consumers b := update_apply ..

/-- Nothing is stored at an address that has not been used. -/
def Fresh (h : Heap) : Prop := ∀ a, h.next ≤ a → h.nacks a = none ∧ h.consumers a = none

end Heap

variable {h h' : Heap} {cg cg' : StreamCG} {id : StreamID} {a : ℕ}

/-- The group's pending list has the record `a`. -/
def StreamCG.Holds (cg : StreamCG) (a : ℕ) : Prop := ∃ id, cg.pel.find id = some a

/-- The group has the consumer `c`. -/
def StreamCG.Has (cg : StreamCG) (c : ℕ) : Prop := ∃ name, cg.consumers.find name = some c

structure GroupOk (h : Heap) (cg : StreamCG) : Prop where
  /-- the record of a pending entry names a consumer of the group that has the same record -/
  pending : ∀ id a, cg.pel.find id = some a → ∃ n c con, h.nacks a = some n ∧ n.consumer = some c ∧
    cg.Has c ∧ h.consumers c = some con ∧ con.pel.find id = some a
  /-- what a consumer has is in the list of the group, and its record names this consumer -/
  consumers : ∀ name c, cg.consumers.find name = some c → ∃ con, h.consumers c = some con ∧ con.name = name ∧
    ∀ id a, con.pel.find id = some a → cg.pel.find id = some a ∧ ∃ n, h.nacks a = some n ∧ n.consumer = some c
  /-- no two entries share a record -/
  inj : ∀ id id' a, cg.pel.find id = some a → cg.pel.find id' = some a → id = id'

structure Pending where
  owner : Bytes
  deliveryTime : ℤ
  deliveryCount : BitVec 64
deriving DecidableEq

def pendingView (h : Heap) (cg : StreamCG) (id : StreamID) : Option Pending := do
  let n ← h.nacks (← cg.pel.find id)
  let con ← h.consumers (← n.consumer)
  pure ⟨con.name, n.deliveryTime, n.deliveryCount⟩

/-- What an operation on a group may do to the heap: it keeps what the group does not own, takes new
addresses only, and loses none. -/
structure GroupStep (h : Heap) (cg : StreamCG) (h' : Heap) (cg' : StreamCG) : Prop where
  ok : GroupOk h' cg'
  fresh : h'.Fresh
  next : h.next ≤ h'.next
  nacks : ∀ a, ¬ cg.Holds a → a < h.next → h'.nacks a = h.nacks a ∧ ¬ cg'.Holds a
  consumers : ∀ c, ¬ cg.Has c → c < h.next → h'.consumers c = h.consumers c ∧ ¬ cg'.Has c
  held : ∀ a, h'.nacks a ≠ none → cg'.Holds a ∨ ¬ cg.Holds a ∧ a < h.next
  had : ∀ c, h'.consumers c ≠ none → cg'.Has c ∨ ¬ cg.Has c ∧ c < h.next

theorem GroupOk.live (hok : GroupOk h cg) (ha : cg.Holds a) : h.nacks a ≠ none := by
  obtain ⟨id, ha⟩ := ha
  obtain ⟨n, -, -, hn, -⟩ := hok.pending id a ha
  simp [hn]

theorem GroupOk.live_consumer (hok : GroupOk h cg) (hc : cg.Has c) : h.consumers c ≠ none := by
  obtain ⟨name, hc⟩ := hc
  obtain ⟨con, hcon, -⟩ := hok.consumers name c hc
  simp [hcon]

theorem Heap.Fresh.lt (hf : h.Fresh) (ha : h.nacks a ≠ none) : a < h.next :=
  not_le.mp fun hle => ha (hf a hle).1

theorem Heap.Fresh.consumer_lt (hf : h.Fresh) (hc : h.consumers c ≠ none) : c < h.next :=
  not_le.mp fun hle => hc (hf c hle).2

theorem GroupOk.owned (hok : GroupOk h cg) (hc : cg.consumers.find name = some c) (hcon : h.consumers c = some con) :
    con.name = name ∧ ∀ id a, con.pel.find id = some a →
      cg.pel.find id = some a ∧ ∃ n, h.nacks a = some n ∧ n.consumer = some c := by
  obtain ⟨con', hcon', hown⟩ := hok.consumers name c hc
  obtain rfl : con = con' := by simpa [hcon] using hcon'
  exact hown

theorem GroupOk.unique (hok : GroupOk h cg) {a o : ℕ} (ha : cg.pel.find id = some a)
    (hn : h.nacks a = some n) (ho : n.consumer = some o) (hc : cg.Has c) (hne : c ≠ o)
    (hcon : h.consumers c = some con) : con.pel.find id = none := by
  obtain ⟨name, hc⟩ := hc
  rcases hf : con.pel.find id with _ | a'
  · rfl
  · obtain ⟨ha', n', hn', hc'⟩ := (hok.owned hc hcon).2 id a' hf
    obtain rfl : a = a' := by simpa [ha] using ha'
    obtain rfl : n = n' := by simpa [hn] using hn'
    exact absurd (by simpa [ho] using hc'.symm) hne

theorem GroupOk.absent (hok : GroupOk h cg) (ha : cg.pel.find id = none) (hc : cg.Has c)
    (hcon : h.consumers c = some con) : con.pel.find id = none := by
  obtain ⟨name, hc⟩ := hc
  rcases hf : con.pel.find id with _ | a'
  · rfl
  · simpa [ha] using ((hok.owned hc hcon).2 id a' hf).1

theorem GroupStep.refl (hok : GroupOk h cg) (hf : h.Fresh) : GroupStep h cg h cg where
  ok := hok
  fresh := hf
  next := le_rfl
  nacks _ ha _ := ⟨rfl, ha⟩
  consumers _ hc _ := ⟨rfl, hc⟩
  held _ ha := (em _).imp_right fun h => ⟨h, hf.lt ha⟩
  had _ hc := (em _).imp_right fun h => ⟨h, hf.consumer_lt hc⟩

theorem GroupStep.trans {h'' : Heap} {cg'' : StreamCG} (h1 : GroupStep h cg h' cg') (h2 : GroupStep h' cg' h'' cg'') :
    GroupStep h cg h'' cg'' where
  ok := h2.ok
  fresh := h2.fresh
  next := h1.next.trans h2.next
  nacks a ha hlt := by
    obtain ⟨he, ha'⟩ := h1.nacks a ha hlt
    obtain ⟨he', ha''⟩ := h2.nacks a ha' (hlt.trans_le h1.next)
    exact ⟨he'.trans he, ha''⟩
  consumers c hc hlt := by
    obtain ⟨he, hc'⟩ := h1.consumers c hc hlt
    obtain ⟨he', hc''⟩ := h2.consumers c hc' (hlt.trans_le h1.next)
    exact ⟨he'.trans he, hc''⟩
  held a ha := by
    refine (h2.held a ha).imp_right fun h => ?_
    have he := (h2.nacks a h.1 h.2).1
    exact (h1.held a (he ▸ ha)).resolve_left h.1
  had c hc := by
    refine (h2.had c hc).imp_right fun h => ?_
    have he := (h2.consumers c h.1 h.2).1
    exact (h1.had c (he ▸ hc)).resolve_left h.1

/-- The last ID of a group is of no concern to its pending lists. -/
theorem GroupOk.lastId (hok : GroupOk h cg) (id : StreamID) : GroupOk h { cg with lastId := id } :=
  ⟨hok.pending, hok.consumers, hok.inj⟩

theorem GroupStep.lastId (hok : GroupOk h cg) (hf : h.Fresh) (id : StreamID) :
    GroupStep h cg h { cg with lastId := id } :=
  { GroupStep.refl hok hf with ok := hok.lastId id }

theorem pendingView_eq (ha : cg.pel.find id = some a) (hn : h.nacks a = some n)
    (hc : n.consumer = some c) (hcon : h.consumers c = some con) :
    pendingView h cg id = some ⟨con.name, n.deliveryTime, n.deliveryCount⟩ := by
  simp [pendingView, ha, hn, hc, hcon]

theorem pendingView_none (ha : cg.pel.find id = none) : pendingView h cg id = none := by
  simp [pendingView, ha]

/-- A group depends only on the records and the consumers that it owns. -/
theorem GroupOk.frame (hok : GroupOk h cg) (hn : ∀ a, cg.Holds a → h'.nacks a = h.nacks a)
    (hc : ∀ c, cg.Has c → h'.consumers c = h.consumers c) :
    GroupOk h' cg ∧ pendingView h' cg = pendingView h cg := by
  refine ⟨⟨fun id a ha => ?_, fun name c hname => ?_, hok.inj⟩, funext fun id => ?_⟩
  · obtain ⟨n, c, con, hna, hnc, hhas, hcon, hpel⟩ := hok.pending id a ha
    exact ⟨n, c, con, (hn a ⟨id, ha⟩).trans hna, hnc, hhas, (hc c hhas).trans hcon, hpel⟩
  · obtain ⟨con, hcon, hname', hpel⟩ := hok.consumers name c hname
    refine ⟨con, (hc c ⟨name, hname⟩).trans hcon, hname', fun id a ha => ?_⟩
    obtain ⟨ha', n, hna, hnc⟩ := hpel id a ha
    exact ⟨ha', n, (hn a ⟨id, ha'⟩).trans hna, hnc⟩
  · rcases ha : cg.pel.find id with _ | a
    · rw [pendingView_none ha, pendingView_none ha]
    · obtain ⟨n, c, con, hna, hnc, hhas, hcon, -⟩ := hok.pending id a ha
      rw [pendingView_eq ha hna hnc hcon,
        pendingView_eq ha ((hn a ⟨id, ha⟩).trans hna) hnc ((hc c hhas).trans hcon)]

/-! ### Giving an entry to a consumer, and taking it away -/

/-- The consumers of `h'` are those of `h`, up to the entry `id` of those of the group. -/
structure Agree (cg : StreamCG) (id : StreamID) (h h' : Heap) : Prop where
  own : ∀ c con, cg.Has c → h.consumers c = some con → ∃ con', h'.consumers c = some con' ∧
    con'.name = con.name ∧ ∀ id', id' ≠ id → con'.pel.find id' = con.pel.find id'
  others : ∀ c, ¬ cg.Has c → h'.consumers c = h.consumers c

theorem Agree.of_eq (he : h'.consumers = h.consumers) : Agree cg id h h' :=
  ⟨fun _ con _ hcon => ⟨con, he ▸ hcon, rfl, fun _ _ => rfl⟩, fun _ _ => by rw [he]⟩

theorem Agree.trans {h'' : Heap} (h1 : Agree cg id h h') (h2 : Agree cg id h' h'') : Agree cg id h h'' := by
  refine ⟨fun c con hc hcon => ?_, fun c hc => (h2.others c hc).trans (h1.others c hc)⟩
  obtain ⟨con', hcon', hname', hpel'⟩ := h1.own c con hc hcon
  obtain ⟨con'', hcon'', hname'', hpel''⟩ := h2.own c con' hc hcon'
  exact ⟨con'', hcon'', hname''.trans hname', fun id' hne => (hpel'' id' hne).trans (hpel' id' hne)⟩

theorem Agree.setConsumer (hc : cg.Has c) (hcon : h.consumers c = some con)
    (hpel : ∀ id', id' ≠ id → pel.find id' = con.pel.find id') :
    Agree cg id h (h.setConsumer c (some { con with pel := pel })) := by
  refine ⟨fun c' con' hc' hcon' => ?_, fun c' hc' => ?_⟩
  · by_cases hcc : c' = c
    · subst hcc
      obtain rfl : con = con' := by simpa [hcon] using hcon'
      exact ⟨{ con with pel := pel }, by simp, rfl, hpel⟩
    · exact ⟨con', by simp [hcc, hcon'], rfl, fun _ _ => rfl⟩
  · have : c' ≠ c := fun he => hc' (he ▸ hc)
    simp [this]

/-- `h'` and `cg'` after the record `a` of the message `id` has become `o`: it names the consumer
that alone has the entry now, or is gone together with the entry. -/
structure Changed (h : Heap) (cg : StreamCG) (h' : Heap) (cg' : StreamCG) (id : StreamID) (a : ℕ)
    (o : Option StreamNACK) : Prop where
  record : cg.pel.find id = some a ∨ cg.pel.find id = none ∧ a = h.next ∧ a < h'.next
  next : h.next ≤ h'.next
  lastId : cg'.lastId = cg.lastId
  consumers : cg'.consumers = cg.consumers
  pel : ∀ id', cg'.pel.find id' = if id' = id then o.map (fun _ => a) else cg.pel.find id'
  nacks : ∀ a', h'.nacks a' = if a' = a then o else h.nacks a'
  agree : Agree cg id h h'
  entry : ∀ c con', cg.Has c → h'.consumers c = some con' →
    con'.pel.find id = if o.bind StreamNACK.consumer = some c then some a else none

section

variable {o : Option StreamNACK}

variable (hC : Changed h cg h' cg' id a o)
include hC

theorem Changed.own (hc : cg.Has c) (hcon : h.consumers c = some con) :
    ∃ con', h'.consumers c = some con' ∧ con'.name = con.name ∧ ∀ id', con'.pel.find id' =
        if id' = id then (if o.bind StreamNACK.consumer = some c then some a else none) else con.pel.find id' := by
  obtain ⟨con', hcon', hname, hpel⟩ := hC.agree.own c con hc hcon
  refine ⟨con', hcon', hname, fun id' => ?_⟩
  by_cases hid : id' = id
  · rw [if_pos hid, hid, hC.entry c con' hc hcon']
  · rw [if_neg hid, hpel id' hid]

theorem Changed.has (c : ℕ) : cg'.Has c ↔ cg.Has c := by
  rw [StreamCG.Has, StreamCG.Has, hC.consumers]

variable (hok : GroupOk h cg) (hf : h.Fresh)
include hok hf

theorem Changed.ne {id' : StreamID} {a' : ℕ} (hne : id' ≠ id) (ha' : cg.pel.find id' = some a') : a' ≠ a := by
  rintro rfl
  rcases hC.record with h1 | ⟨-, h1, -⟩
  · exact hne (hok.inj id' id a' ha' h1)
  · exact (hf.lt (hok.live ⟨id', ha'⟩)).ne h1

theorem Changed.ok (ho : ∀ n ∈ o, ∃ c, n.consumer = some c ∧ cg.Has c) : GroupOk h' cg' := by
  refine ⟨fun id' a' ha' => ?_, fun name c hc => ?_, fun i j a' hi hj => ?_⟩
  · rw [hC.pel] at ha'
    split_ifs at ha' with hid
    · obtain ⟨n, hn, rfl⟩ := map_eq_some_iff.mp ha'
      obtain ⟨c, hnc, hc⟩ := ho n hn
      obtain ⟨con, hcon⟩ := ne_none_iff_exists'.mp (hok.live_consumer hc)
      obtain ⟨con', hcon', -, hpel⟩ := hC.own hc hcon
      exact ⟨n, c, con', by rw [hC.nacks, if_pos rfl, hn], hnc, (hC.has c).mpr hc,
        hcon', by simp [hpel, hid, hn, hnc]⟩
    · obtain ⟨n, c, con, hn, hnc, hc, hcon, hpel⟩ := hok.pending id' a' ha'
      obtain ⟨con', hcon', -, hpel'⟩ := hC.own hc hcon
      exact ⟨n, c, con', by rw [hC.nacks, if_neg (hC.ne hok hf hid ha'), hn], hnc, (hC.has c).mpr hc, hcon',
        by simp [hpel', hid, hpel]⟩
  · rw [hC.consumers] at hc
    obtain ⟨con, hcon, hname, hpel⟩ := hok.consumers name c hc
    obtain ⟨con', hcon', hname', hpel'⟩ := hC.own ⟨name, hc⟩ hcon
    refine ⟨con', hcon', hname'.trans hname, fun id' a' ha' => ?_⟩
    rw [hpel'] at ha'
    split_ifs at ha' with hid hcc
    · obtain rfl := some.inj ha'
      obtain ⟨n, hn, hnc⟩ := bind_eq_some_iff.mp hcc
      exact ⟨by simp [hC.pel, hid, hn], n, by rw [hC.nacks, if_pos rfl, hn], hnc⟩
    · obtain ⟨ha, n, hn, hnc⟩ := hpel id' a' ha'
      exact ⟨by simp [hC.pel, hid, ha], n, by rw [hC.nacks, if_neg (hC.ne hok hf hid ha), hn], hnc⟩
  · rw [hC.pel] at hi hj
    split_ifs at hi hj with h1 h2 h2
    · rw [h1, h2]
    · obtain ⟨-, -, rfl⟩ := map_eq_some_iff.mp hi
      exact absurd rfl (hC.ne hok hf h2 hj)
    · obtain ⟨-, -, rfl⟩ := map_eq_some_iff.mp hj
      exact absurd rfl (hC.ne hok hf h1 hi)
    · exact hok.inj i j a' hi hj

theorem Changed.fresh : h'.Fresh := by
  intro a' hle
  obtain ⟨hn, hc⟩ := hf a' (hC.next.trans hle)
  have hlt : a < h'.next := by
    rcases hC.record with h1 | ⟨-, -, h1⟩
    · exact (hf.lt (hok.live ⟨id, h1⟩)).trans_le hC.next
    · exact h1
  exact ⟨by rw [hC.nacks, if_neg (hlt.trans_le hle).ne', hn],
    by rw [hC.agree.others a' fun hh => hok.live_consumer hh hc, hc]⟩

theorem Changed.step (ho : ∀ n ∈ o, ∃ c, n.consumer = some c ∧ cg.Has c) : GroupStep h cg h' cg' := by
  have hnew : ∀ a', ¬ cg.Holds a' → a' < h.next → a' ≠ a := by
    rintro a' hn hl rfl
    rcases hC.record with h1 | ⟨-, h1, -⟩
    · exact hn ⟨id, h1⟩
    · exact hl.ne h1
  refine ⟨hC.ok hok hf ho, hC.fresh hok hf, hC.next, fun a' ha' hl => ⟨?_, ?_⟩,
    fun c hc _ => ⟨hC.agree.others c hc, ?_⟩, fun a' ha' => ?_, fun c hc => ?_⟩
  · rw [hC.nacks, if_neg (hnew a' ha' hl)]
  · rintro ⟨id', hid'⟩
    rw [hC.pel] at hid'
    split_ifs at hid'
    · obtain ⟨-, -, rfl⟩ := map_eq_some_iff.mp hid'
      exact hnew _ ha' hl rfl
    · exact ha' ⟨id', hid'⟩
  · rwa [hC.has]
  · rw [hC.nacks] at ha'
    split_ifs at ha' with he
    · obtain ⟨n, hn⟩ := ne_none_iff_exists'.mp ha'
      exact .inl ⟨id, by simp [hC.pel, he, hn]⟩
    · refine or_iff_not_imp_right.mpr fun hh => ?_
      obtain ⟨id', hid'⟩ : cg.Holds a' := not_not.mp fun hn => hh ⟨hn, hf.lt ha'⟩
      refine ⟨id', ?_⟩
      rw [hC.pel, if_neg, hid']
      rintro rfl
      rcases hC.record with h1 | ⟨h1, -⟩
      · exact he (by simpa [h1] using hid'.symm)
      · simp [h1] at hid'
  · refine or_iff_not_imp_right.mpr fun hh => (hC.has c).mpr (not_not.mp fun hn => hh ⟨hn, ?_⟩)
    exact hf.consumer_lt (hC.agree.others c hn ▸ hc)

theorem Changed.view (name : Bytes)
    (ho : ∀ n ∈ o, ∃ c, n.consumer = some c ∧ cg.consumers.find name = some c) : pendingView h' cg' =
      update (pendingView h cg) id (o.map fun n => ⟨name, n.deliveryTime, n.deliveryCount⟩) := by
  funext id'
  rw [update_apply]
  split_ifs with hid
  · rcases o with _ | n
    · exact pendingView_none (by simp [hC.pel, hid])
    · obtain ⟨c, hnc, hc⟩ := ho n rfl
      obtain ⟨con, hcon, hname, -⟩ := hok.consumers name c hc
      obtain ⟨con', hcon', hname', -⟩ := hC.own ⟨name, hc⟩ hcon
      rw [pendingView_eq (a := a) (by simp [hC.pel, hid]) (by rw [hC.nacks, if_pos rfl]) hnc hcon', hname', hname]
      rfl
  · rcases ha' : cg.pel.find id' with _ | a'
    · rw [pendingView_none ha', pendingView_none (by rw [hC.pel, if_neg hid, ha'])]
    · obtain ⟨n, c, con, hn, hnc, hc, hcon, -⟩ := hok.pending id' a' ha'
      obtain ⟨con', hcon', hname', -⟩ := hC.own hc hcon
      rw [pendingView_eq ha' hn hnc hcon, pendingView_eq (by rw [hC.pel, if_neg hid, ha'])
        (by rw [hC.nacks, if_neg (hC.ne hok hf hid ha'), hn]) hnc hcon', hname']

end

/-! ### The operations on one entry -/

theorem removePending_eq (hcon : h.consumers c = some con) (id : StreamID) :
    removePending h c id = some (h.setConsumer c (some { con with pel := con.pel.erase id })) := by
  simp [removePending, hcon]

theorem insertPending_eq (hcon : h.consumers c = some con) (id : StreamID) (a : ℕ) :
    insertPending h c id a = some (h.setConsumer c (some { con with pel := con.pel.insert id a })) := by
  simp [insertPending, hcon]

theorem GroupOk.acked (hok : GroupOk h cg) (ha : cg.pel.find id = some a)
    (hn : h.nacks a = some n) (hnc : n.consumer = some c) (hc : cg.Has c) (hcon : h.consumers c = some con) :
    Changed h cg ((h.setConsumer c (some { con with pel := con.pel.erase id })).setNack a none)
      { cg with pel := cg.pel.erase id } id a none := by
  refine ⟨.inl ha, le_rfl, rfl, rfl, fun id' => by simp [find_erase], fun a' => by simp,
    (Agree.setConsumer hc hcon fun id' hne => by simp [find_erase, hne]).trans (.of_eq rfl),
    fun c' con' hc' hcon' => ?_⟩
  by_cases hcc : c' = c
  · obtain rfl : { con with pel := con.pel.erase id } = con' := by simpa [hcc] using hcon'
    simp [find_erase]
  · simpa using hok.unique ha hn hnc hc' hcc (by simpa [hcc] using hcon')

theorem ackEntry_spec (hok : GroupOk h cg) (hf : h.Fresh) (id : StreamID) :
    ∃ h' cg', ackEntry id h cg = some (h', cg', (pendingView h cg id).isSome) ∧ GroupStep h cg h' cg' ∧
      cg'.consumers = cg.consumers ∧ cg'.lastId = cg.lastId ∧
      pendingView h' cg' = update (pendingView h cg) id none := by
  rcases ha : cg.pel.find id with _ | a
  · have hv := pendingView_none (h := h) ha
    refine ⟨h, cg, by simp [ackEntry, ha, hv], .refl hok hf, rfl, rfl, ?_⟩
    rw [← hv, update_eq_self]
  · obtain ⟨n, c, con, hn, hnc, hc, hcon, hpel⟩ := hok.pending id a ha
    have hC := hok.acked ha hn hnc hc hcon
    refine ⟨_, _, ?_, hC.step hok hf (by simp), rfl, rfl, by simpa using hC.view hok hf [] (by simp)⟩
    simp [ackEntry, ha, hn, hnc, removePending_eq hcon, streamFreeNACK, pendingView_eq ha hn hnc hcon]

theorem GroupOk.give {h₀ : Heap} {a old : ℕ} (hok : GroupOk h cg) (ha : cg.pel.find id = some a)
    (hn : h.nacks a = some n) (hold : n.consumer = some old) (hc : cg.Has c) (hagree : Agree cg id h h₀)
    (hsame : ∀ c', c' ≠ c → h₀.consumers c' = h.consumers c') (f : Heap → Heap)
    (hfc : ∀ h, (f h).consumers = h.consumers) :
    ∃ con con', removePending h₀ old id = some (h₀.setConsumer old (some con)) ∧
      insertPending (f (h₀.setConsumer old (some con))) c id a =
        some ((f (h₀.setConsumer old (some con))).setConsumer c (some con')) ∧
      Agree cg id h ((f (h₀.setConsumer old (some con))).setConsumer c (some con')) ∧
      ∀ c' con'', cg.Has c' →
        ((f (h₀.setConsumer old (some con))).setConsumer c (some con')).consumers c' = some con'' →
        con''.pel.find id = if c' = c then some a else none := by
  obtain ⟨n', o, ocon, hn', ho', hoc, hocon, -⟩ := hok.pending id a ha
  obtain rfl : n = n' := by simpa [hn] using hn'
  obtain rfl : old = o := by simpa [hold] using ho'
  obtain ⟨con₀, hcon₀, -, -⟩ := hagree.own old ocon hoc hocon
  set h₁ := h₀.setConsumer old (some { con₀ with pel := con₀.pel.erase id })
  have h1 : Agree cg id h h₁ :=
    hagree.trans (.setConsumer hoc hcon₀ fun id' hne => by simp [find_erase, hne])
  obtain ⟨ccon, hccon⟩ := ne_none_iff_exists'.mp (hok.live_consumer hc)
  obtain ⟨con₁, hcon₁, -, -⟩ := h1.own c ccon hc hccon
  have hcon₂ : (f h₁).consumers c = some con₁ := by rw [hfc, hcon₁]
  refine ⟨_, _, removePending_eq hcon₀ id, insertPending_eq hcon₂ id a,
    (h1.trans (.of_eq (hfc h₁))).trans (.setConsumer hc hcon₂ fun id' hne => find_insert_of_ne _ _ hne), ?_⟩
  intro c' con'' hc' hcon''
  rw [Heap.consumers_setConsumer, hfc] at hcon''
  split_ifs at hcon'' with hcc
  · obtain rfl := some.inj hcon''
    rw [if_pos hcc, find_insert_self]
  · rw [if_neg hcc]
    rw [Heap.consumers_setConsumer] at hcon''
    split_ifs at hcon'' with hco
    · obtain rfl := some.inj hcon''
      simp [find_erase]
    · exact hok.unique ha hn hold hc' hco (hsame c' hcc ▸ hcon'')

theorem GroupOk.added {H : Heap} (hok : GroupOk h cg) (ha : cg.pel.find id = none) (hc : cg.Has c)
    (hcon : h.consumers c = some con) (hnc : n.consumer = some c) (hcons : H.consumers = h.consumers)
    (hnext : H.next = h.next + 1) (hnacks : ∀ a', H.nacks a' = if a' = h.next then some n else h.nacks a') :
    Changed h cg (H.setConsumer c (some { con with pel := con.pel.insert id h.next }))
      { cg with pel := cg.pel.insert id h.next } id h.next (some n) := by
  have hlt : h.next < H.next := by omega
  have hcon' : H.consumers c = some con := by rw [hcons, hcon]
  have hnew : Agree cg id h H := .of_eq hcons
  refine ⟨.inr ⟨ha, rfl, hlt⟩, hlt.le, rfl, rfl, fun id' => by simp [find_insert], hnacks,
    hnew.trans (.setConsumer hc hcon' fun id' hne => find_insert_of_ne _ _ hne), fun c' con' hc' hcon' => ?_⟩
  by_cases hcc : c' = c
  · obtain rfl : { con with pel := con.pel.insert id h.next } = con' := by simpa [hcc] using hcon'
    simp [find_insert_self, hcc, hnc]
  · have : ¬ c = c' := fun he => hcc he.symm
    simpa [this, hnc] using hok.absent ha hc' (by simpa [hcc, hcons] using hcon')

theorem Changed.of_given (ha : cg.pel.find id = some a) (hnc : n.consumer = some c)
    (hag : Agree cg id h h')
    (hentry : ∀ c' con', cg.Has c' → h'.consumers c' = some con' →
      con'.pel.find id = if c' = c then some a else none)
    (hnext : h.next ≤ h'.next) (hnacks : ∀ a', h'.nacks a' = if a' = a then some n else h.nacks a') :
    Changed h cg h' cg id a (some n) := by
  refine ⟨.inl ha, hnext, rfl, rfl, fun id' => ?_, hnacks, hag, fun c' con' hc' hcon' => ?_⟩
  · split_ifs with hid
    · rw [hid, ha, map_some]
    · rfl
  · rw [hentry c' con' hc' hcon']
    simp [hnc, eq_comm]

theorem Changed.given (hC : Changed h cg h' cg' id a (some n)) (hok : GroupOk h cg) (hf : h.Fresh)
    (hnc : n.consumer = some c) (hc : cg.consumers.find name = some c) : GroupStep h cg h' cg' ∧
      pendingView h' cg' = update (pendingView h cg) id (some ⟨name, n.deliveryTime, n.deliveryCount⟩) := by
  have hhas : cg.Has c := ⟨name, hc⟩
  exact ⟨hC.step hok hf (by simp [hnc, hhas]), hC.view hok hf name (by simp [hnc, hc])⟩

section

variable (hok : GroupOk h cg) (hf : h.Fresh)
include hok hf

theorem deliverEntry_spec (hc : cg.consumers.find name = some c) (id : StreamID)
    (mstime : ℕ) :
    ∃ h' cg' a, deliverEntry h cg c id mstime = some (h', cg', a) ∧ cg'.pel.find id = some a ∧
      GroupStep h cg h' cg' ∧ cg'.consumers = cg.consumers ∧ cg'.lastId = cg.lastId ∧
      pendingView h' cg' = update (pendingView h cg) id (some ⟨name, mstime, 1⟩) := by
  obtain ⟨con, hcon, -, -⟩ := hok.consumers name c hc
  have hhas : cg.Has c := ⟨name, hc⟩
  rcases ha : cg.pel.find id with _ | a
  · have habs := hok.absent ha hhas hcon
    have hC :=
      hok.added (n := ⟨mstime, 1, some c⟩) (H := h.newNack ⟨mstime, 1, some c⟩) ha hhas hcon rfl rfl rfl
      fun a' => by simp
    obtain ⟨hstep, hview⟩ := hC.given hok hf rfl hc
    refine ⟨_, _, h.next, ?_, by simp [find_insert_self], hstep, rfl, rfl, hview⟩
    simp [deliverEntry, streamCreateNACK, hcon, raxTryInsert, ha, habs]
  · obtain ⟨n, old, -, hn, hold, -⟩ := hok.pending id a ha
    have hnone := (hf h.next le_rfl).1
    -- the new record has been freed, and the consumer's list may still point to it
    set h₀ := ((h.newNack ⟨mstime, 1, some c⟩).setConsumer c
      (some { con with pel := (raxTryInsert con.pel id h.next).1 })).setNack h.next none with hh₀
    have hpel : ∀ id', id' ≠ id → (raxTryInsert con.pel id h.next).1.find id' = con.pel.find id' := by
      intro id' hne
      rw [raxTryInsert]
      split
      · rfl
      · exact find_insert_of_ne _ _ hne
    have hagree : Agree cg id h h₀ := by
      have hnew : Agree cg id h (h.newNack ⟨mstime, 1, some c⟩) := .of_eq rfl
      exact (hnew.trans (.setConsumer hhas hcon hpel)).trans (.of_eq rfl)
    have hnacks : ∀ a', h₀.nacks a' = h.nacks a' := by
      intro a'
      simp only [hh₀, Heap.nacks_setNack, Heap.nacks_setConsumer, Heap.nacks_newNack]
      split_ifs with he
      · rw [he, hnone]
      · rfl
    obtain ⟨con₁, con₂, hrem, hins, hag, hentry⟩ :=
      hok.give ha hn hold hhas hagree (fun c' hne => by simp [hh₀, hne])
      (fun H => H.setNack a (some ⟨mstime, 1, some c⟩)) (fun _ => rfl)
    have hC := Changed.of_given (n := ⟨mstime, 1, some c⟩) ha rfl hag hentry (Nat.le_succ _)
      fun a' => by simp [hnacks]
    obtain ⟨hstep, hview⟩ := hC.given hok hf rfl hc
    refine ⟨_, cg, a, ?_, ha, hstep, rfl, rfl, hview⟩
    have hfree : streamFreeNACK ((h.newNack ⟨mstime, 1, some c⟩).setConsumer c
        (some { con with pel := (raxTryInsert con.pel id h.next).1 })) h.next = some h₀ := by
      simp [streamFreeNACK, hh₀]
    have htry : raxTryInsert cg.pel id h.next = (cg.pel, false) := by simp [raxTryInsert, ha]
    simp only [deliverEntry, streamCreateNACK, Heap.consumers_newNack, hcon, htry, bind_eq_bind, bind_some,
      if_true, hfree, ha, hnacks, hn, hold, hrem, hins]
    rfl

theorem streamLookupConsumer_spec (name : Bytes) :
    ∃ h' cg' c, streamLookupConsumer h cg name = some (h', cg', c) ∧ cg'.consumers.find name = some c ∧
      GroupStep h cg h' cg' ∧ cg'.lastId = cg.lastId ∧ pendingView h' cg' = pendingView h cg := by
  rcases hc : cg.consumers.find name with _ | c
  · have hnone := (hf h.next le_rfl).2
    obtain ⟨hok₁, hview⟩ :=
      @GroupOk.frame h (h.newConsumer ⟨name, .empty⟩) cg hok (fun _ _ => rfl) fun c hc' => by
      have : c ≠ h.next := fun he => hok.live_consumer hc' (he ▸ hnone)
      simp [this]
    have hhas : ∀ c, StreamCG.Has { cg with consumers := cg.consumers.insert name h.next } c ↔
      c = h.next ∨ cg.Has c := by
      intro c
      constructor
      · rintro ⟨name', hc'⟩
        rw [find_insert] at hc'
        split_ifs at hc'
        · exact .inl (some.inj hc').symm
        · exact .inr ⟨name', hc'⟩
      · rintro (rfl | ⟨name', hc'⟩)
        · exact ⟨name, by simp [find_insert_self]⟩
        · refine ⟨name', ?_⟩
          rw [find_insert, if_neg, hc']
          rintro rfl
          simp [hc] at hc'
    have hok' :
      GroupOk (h.newConsumer ⟨name, .empty⟩) { cg with consumers := cg.consumers.insert name h.next } := by
      refine ⟨fun id a ha => ?_, fun name' c hc' => ?_, hok.inj⟩
      · obtain ⟨n, c, con, hn, hnc, hc', hcon⟩ := hok₁.pending id a ha
        exact ⟨n, c, con, hn, hnc, (hhas c).mpr (.inr hc'), hcon⟩
      · rw [find_insert] at hc'
        split_ifs at hc' with he
        · obtain rfl := some.inj hc'
          exact ⟨⟨name, .empty⟩, by simp, he.symm, fun id a ha => by simp [find_empty] at ha⟩
        · exact hok₁.consumers name' c hc'
    refine ⟨h.newConsumer ⟨name, .empty⟩, { cg with consumers := cg.consumers.insert name h.next }, h.next,
      by simp [streamLookupConsumer, hc], by simp [find_insert_self],
        ⟨hok', ?_, Nat.le_succ _, fun a ha _ => ⟨rfl, ha⟩, fun c hc' hlt => ?_,
        fun a ha => (em _).imp_right fun hh => ⟨hh, hf.lt ha⟩, fun c hc' => ?_⟩, rfl, hview⟩
    · intro a hle
      have hle : h.next + 1 ≤ a := hle
      obtain ⟨hn, hc'⟩ := hf a (by omega)
      have : a ≠ h.next := by omega
      exact ⟨hn, by simp [this, hc']⟩
    · rw [hhas]
      exact ⟨by simp [hlt.ne], fun hh => hh.elim hlt.ne hc'⟩
    · rw [hhas]
      rcases eq_or_ne c h.next with he | he
      · exact .inl (.inl he)
      · rw [Heap.consumers_newConsumer, if_neg he] at hc'
        by_cases hh : cg.Has c
        · exact .inl (.inr hh)
        · exact .inr ⟨hh, hf.consumer_lt hc'⟩
  · obtain ⟨con, hcon, -⟩ := hok.consumers name c hc
    exact ⟨h, cg, c, by simp [streamLookupConsumer, hc, hcon], hc, .refl hok hf, rfl, rfl⟩

/-- The count of a claimed message whose record had the count `k`. -/
def claimCount (opts : ClaimOptions) (k : BitVec 64) : BitVec 64 :=
  if opts.retrycount ≥ 0 then BitVec.ofInt 64 opts.retrycount else if opts.justid then k else k + 1

/-- What a claim makes of an entry, if the message is claimed at all. -/
def claimedAs (inStream : Bool) (name : Bytes) (minidle : ℤ) (opts : ClaimOptions)
    (now : ℕ) : Option Pending → Option Pending
  | some p =>
    if minidle ≠ 0 ∧ now - p.deliveryTime < minidle then none
    else some ⟨name, claimTime opts.delivery now, claimCount opts p.deliveryCount⟩
  | none =>
    if opts.force ∧ inStream then some ⟨name, claimTime opts.delivery now, claimCount opts 1⟩ else none

theorem claimEntry_spec (hc : cg.consumers.find name = some c) (s : Stream)
    (minidle : ℤ) (opts : ClaimOptions) (now : ℕ) (id : StreamID) :
    ∃ h' cg' r, claimEntry s c minidle opts now id h cg = some (h', cg', r) ∧ GroupStep h cg h' cg' ∧
      cg'.consumers = cg.consumers ∧ cg'.lastId = cg.lastId ∧
      match claimedAs (streamRange s id id ≠ []) name minidle opts now (pendingView h cg id) with
      | none => r = none ∧ pendingView h' cg' = pendingView h cg
      | some p => ∃ a, r = some a ∧ cg'.pel.find id = some a ∧
        pendingView h' cg' = update (pendingView h cg) id (some p) := by
  have hhas : cg.Has c := ⟨name, hc⟩
  rcases ha : cg.pel.find id with _ | a
  · rw [pendingView_none ha]
    by_cases hforce : opts.force = true ∧ streamRange s id id ≠ []
    · obtain ⟨con, hcon, -, -⟩ := hok.consumers name c hc
      have hC := hok.added (n := ⟨claimTime opts.delivery now, claimCount opts 1, some c⟩)
        (H := (h.newNack ⟨now, 1, none⟩).setNack h.next
          (some ⟨claimTime opts.delivery now, claimCount opts 1, some c⟩)) ha hhas hcon
        rfl rfl rfl fun a' => by
          simp only [Heap.nacks_setNack, Heap.nacks_newNack]
          split_ifs <;> rfl
      obtain ⟨hstep, hview⟩ := hC.given hok hf rfl hc
      have hclaim : claimedAs (decide (streamRange s id id ≠ [])) name minidle opts now none =
          some ⟨name, claimTime opts.delivery now, claimCount opts 1⟩ := by
        simp [claimedAs, hforce]
      refine ⟨_, _, some h.next, ?_, hstep, rfl, rfl, ?_⟩
      · simp [claimEntry, claimLookup, ha, hforce, streamCreateNACK, insertPending, hcon, claimCount]
      · rw [hclaim]
        exact ⟨h.next, rfl, by simp [find_insert_self], hview⟩
    · have hclaim : claimedAs (decide (streamRange s id id ≠ [])) name minidle opts now none = none := by
        simp [claimedAs, if_neg hforce]
      have hlook : claimLookup s opts.force now id h cg = (h, cg, none) := by
        simp only [claimLookup, ha]
        rw [if_neg]
        simpa using hforce
      refine ⟨h, cg, none, by simp [claimEntry, hlook], .refl hok hf, rfl, rfl, ?_⟩
      rw [hclaim]
      exact ⟨rfl, rfl⟩
  · obtain ⟨n, old, con, hn, hold, -, hcon, -⟩ := hok.pending id a ha
    rw [pendingView_eq ha hn hold hcon]
    have hlook : claimLookup s opts.force now id h cg = (h, cg, some a) := by simp [claimLookup, ha]
    by_cases hidle : minidle ≠ 0 ∧ now - n.deliveryTime < minidle
    · have hclaim : claimedAs (decide (streamRange s id id ≠ [])) name minidle opts now
          (some ⟨con.name, n.deliveryTime, n.deliveryCount⟩) = none := if_pos hidle
      refine ⟨h, cg, none, by simp [claimEntry, hlook, hn, hold, hidle], .refl hok hf, rfl, rfl, ?_⟩
      rw [hclaim]
      exact ⟨rfl, rfl⟩
    · have hclaim : claimedAs (decide (streamRange s id id ≠ [])) name minidle opts now
          (some ⟨con.name, n.deliveryTime, n.deliveryCount⟩) =
            some ⟨name, claimTime opts.delivery now, claimCount opts n.deliveryCount⟩ := if_neg hidle
      obtain ⟨con₁, con₂, hrem, hins, hag, hentry⟩ := hok.give ha hn hold hhas (.of_eq rfl) (fun _ _ => rfl)
        (fun H => H.setNack a (some ⟨claimTime opts.delivery now, claimCount opts n.deliveryCount, some c⟩))
          (fun _ => rfl)
      have hC := Changed.of_given (n := ⟨claimTime opts.delivery now, claimCount opts n.deliveryCount,
        some c⟩) ha rfl hag
        hentry le_rfl fun a' => by simp
      obtain ⟨hstep, hview⟩ := hC.given hok hf rfl hc
      refine ⟨_, cg, some a, ?_, hstep, rfl, rfl, ?_⟩
      · have hidle' : ¬ ((some old).isSome && decide (minidle ≠ 0) && decide (now - n.deliveryTime <
          minidle)) = true := by
          simpa using hidle
        simp only [claimEntry, hlook, hn, bind_eq_bind, bind_some, hold, if_neg hidle', hrem]
        exact bind_eq_some_iff.mpr ⟨_, hins, rfl⟩
      · rw [hclaim]
        exact ⟨a, rfl, ha, hview⟩

/-! ### Loops over entries -/

theorem ackEntries_spec (ids : List StreamID) :
    ∃ h' cg' n, ackEntries ids h cg = some (h', cg', n) ∧ GroupStep h cg h' cg' ∧ cg'.lastId = cg.lastId ∧
      pendingView h' cg' = ids.foldl (fun v id => update v id none) (pendingView h cg) ∧
      (n = 0 ↔ ∀ id ∈ ids, pendingView h cg id = none) := by
  induction ids generalizing h cg with
  | nil => exact ⟨h, cg, 0, rfl, .refl hok hf, rfl, rfl, by simp⟩
  | cons id ids ih =>
    obtain ⟨h₁, cg₁, he₁, hs₁, -, hl₁, hv₁⟩ := ackEntry_spec hok hf id
    obtain ⟨h₂, cg₂, n, he₂, hs₂, hl₂, hv₂, hn₂⟩ := ih hs₁.ok hs₁.fresh
    refine ⟨h₂, cg₂, n + (pendingView h cg id).isSome.toNat, by simp [ackEntries, he₁, he₂],
      hs₁.trans hs₂, hl₂.trans hl₁, ?_, ?_⟩
    · rw [hv₂, hv₁, foldl_cons]
    · rcases hp : pendingView h cg id with _ | p
      · rw [hv₁, ← hp, update_eq_self] at hn₂
        simpa [hp] using hn₂
      · simp [hp]

/-- A second delivery to the same consumer changes the time and the count of a record only. -/
theorem GroupOk.retime (ha : cg.Holds a) (hn : h.nacks a = some n) (t : ℤ)
    (k : BitVec 64) : GroupStep h cg (h.setNack a (some { n with deliveryTime := t, deliveryCount := k })) cg := by
  obtain ⟨id, ha⟩ := ha
  obtain ⟨n', c, con, hn', hnc, hc, hcon, hpel⟩ := hok.pending id a ha
  obtain rfl : n = n' := by simpa [hn] using hn'
  have hC : Changed h cg (h.setNack a (some { n with deliveryTime := t, deliveryCount := k })) cg id a
      (some { n with deliveryTime := t, deliveryCount := k }) := by
    refine .of_given ha hnc (.of_eq rfl) (fun c' con' hc' hcon' => ?_) le_rfl fun a' => by simp
    split_ifs with hcc
    · obtain rfl : con = con' := by simpa [hcc, hcon] using hcon'
      exact hpel
    · exact hok.unique ha hn hnc hc' hcc hcon'
  exact hC.step hok hf (by simp [hnc, hc])

theorem redeliver_spec (s : Stream) (hes : ∀ e ∈ es, cg.Holds e.2) (clock : ℕ → ℕ) :
    ∃ h', redeliver s es clock h = some h' ∧ GroupStep h cg h' cg := by
  induction es generalizing h clock with
  | nil => exact ⟨h, rfl, .refl hok hf⟩
  | cons e es ih =>
    obtain ⟨id, a⟩ := e
    have ha : cg.Holds a := hes (id, a) (by simp)
    have hes' : ∀ e ∈ es, cg.Holds e.2 := (forall_mem_cons.mp hes).2
    by_cases hr : streamRange s id id = []
    · obtain ⟨h', he, hs⟩ := ih hok hf hes' (fun i => clock (i + 1))
      exact ⟨h', by simpa [redeliver, hr] using he, hs⟩
    · obtain ⟨n, hn⟩ := ne_none_iff_exists'.mp (hok.live ha)
      have hs₁ := hok.retime hf ha hn (clock 0) (n.deliveryCount + 1)
      obtain ⟨h', he, hs⟩ := ih hs₁.ok hs₁.fresh hes' (fun i => clock (i + 1))
      exact ⟨h', by simpa [redeliver, hr, hn] using he, hs₁.trans hs⟩

end

structure GroupView where
  lastId : StreamID
  pel : StreamID → Option Pending

def groupView (h : Heap) (cg : StreamCG) : GroupView := ⟨cg.lastId, pendingView h cg⟩

namespace GroupView

def set (v : GroupView) (id : StreamID) (p : Option Pending) : GroupView := { v with pel := update v.pel id p }

/-- The last ID becomes `id` if it is smaller. -/
def advance (v : GroupView) (id : StreamID) : GroupView := if v.lastId < id then { v with lastId := id } else v

def xclaim (v : GroupView) (group : Bytes) (id : StreamID) (p : Pending) : Command :=
  .xclaim group p.owner 0 [id] ⟨.time p.deliveryTime, p.deliveryCount.toInt, true, true, v.lastId⟩

/-- The delivery of some messages to the consumer `name`, with what it propagates. -/
def deliver (group : Bytes) (noack : Bool) (name : Bytes) : List Item → (ℕ → ℕ) → Bool → GroupView →
    GroupView × List Command
  | [], _, _, v => (v, [])
  | it :: its, clock, b, v =>
    let b := b || decide (v.lastId < it.id)
    let v := v.advance it.id
    if noack then
      let r := deliver group noack name its (fun i => clock (i + 1)) b v
      (r.1, (if b then [.xgroupSetid group (some v.lastId)] else []) ++ r.2)
    else
      let v := v.set it.id (some ⟨name, clock 0, 1⟩)
      let r := deliver group noack name its (fun i => clock (i + 1)) b v
      (r.1, v.xclaim group it.id ⟨name, clock 0, 1⟩ :: r.2)

def claim (inStream : StreamID → Bool) (group name : Bytes) (minidle : ℤ) (opts : ClaimOptions) (now : ℕ) :
    List StreamID → GroupView → GroupView × List Command
  | [], v => (v, [])
  | id :: ids, v =>
    match claimedAs (inStream id) name minidle opts now (v.pel id) with
    | none => claim inStream group name minidle opts now ids v
    | some p =>
      let v := v.set id (some p)
      let r := claim inStream group name minidle opts now ids v
      (r.1, v.xclaim group id p :: r.2)

end GroupView

theorem streamPropagateXCLAIM_eq (group : Bytes) {p : Pending} (ha : cg.pel.find id = some a)
    (hp : pendingView h cg id = some p) :
    streamPropagateXCLAIM h cg group id a = some ((groupView h cg).xclaim group id p) := by
  simp only [pendingView, ha, bind_eq_bind, bind_some] at hp
  obtain ⟨n, hn, hp⟩ := bind_eq_some_iff.mp hp
  obtain ⟨c, hc, hp⟩ := bind_eq_some_iff.mp hp
  obtain ⟨con, hcon, hp⟩ := bind_eq_some_iff.mp hp
  obtain rfl := some.inj hp
  simp [streamPropagateXCLAIM, hn, hc, hcon, GroupView.xclaim, groupView]

theorem groupView_advance (h : Heap) (cg : StreamCG) (id : StreamID) :
    groupView h (cg.advance id) = (groupView h cg).advance id := by
  have hlast : (groupView h cg).lastId = cg.lastId := rfl
  rw [StreamCG.advance, GroupView.advance, hlast]
  by_cases hlt : cg.lastId < id
  · rw [if_pos (streamCompareID_pos.mpr hlt), if_pos hlt]
    rfl
  · rw [if_neg (streamCompareID_pos.not.mpr hlt), if_neg hlt]

theorem GroupStep.advance (hok : GroupOk h cg) (hf : h.Fresh) (id : StreamID) : GroupStep h cg h (cg.advance id) := by
  rw [StreamCG.advance]
  split_ifs
  · exact .lastId hok hf id
  · exact .refl hok hf

theorem consumers_advance (cg : StreamCG) (id : StreamID) : (cg.advance id).consumers = cg.consumers := by
  rw [StreamCG.advance]
  split_ifs <;> rfl

theorem deliver_spec (hok : GroupOk h cg) (hf : h.Fresh) (hc : cg.consumers.find name = some c) (group : Bytes)
    (noack : Bool) (its : List Item) (clock : ℕ → ℕ) (b : Bool) :
    ∃ h' cg', deliver group noack c its clock b h cg =
        some (h', cg', (GroupView.deliver group noack name its clock b (groupView h cg)).2) ∧
      GroupStep h cg h' cg' ∧
        groupView h' cg' = (GroupView.deliver group noack name its clock b (groupView h cg)).1 := by
  induction its generalizing h cg clock b with
  | nil => exact ⟨h, cg, rfl, .refl hok hf, rfl⟩
  | cons it its ih =>
    have hv₁ := groupView_advance h cg it.id
    have hs₁ := GroupStep.advance hok hf it.id
    have hc₁ : (cg.advance it.id).consumers.find name = some c := by rw [consumers_advance, hc]
    have hgt : decide (streamCompareID it.id cg.lastId > 0) = decide ((groupView h cg).lastId < it.id) :=
      decide_eq_decide.mpr streamCompareID_pos
    cases noack with
    | true =>
      obtain ⟨h', cg', he, hs, hv⟩ :=
        ih hs₁.ok hf hc₁ (fun i => clock (i + 1)) (b || decide ((groupView h cg).lastId < it.id))
      rw [hv₁] at he hv
      have hlast : (cg.advance it.id).lastId = ((groupView h cg).advance it.id).lastId := by rw [← hv₁]; rfl
      refine ⟨h', cg', ?_, hs₁.trans hs, ?_⟩
      · simp [deliver, hgt, Option.pure_def, bind_eq_bind, bind_some, he, streamPropagateGroupID, hlast,
          GroupView.deliver]
      · simp [hv, GroupView.deliver]
    | false =>
      obtain ⟨h₂, cg₂, a, he₂, ha₂, hs₂, hcon₂, hl₂, hv₂⟩ :=
        deliverEntry_spec hs₁.ok hf hc₁ it.id (clock 0)
      have hview₂ :
        groupView h₂ cg₂ = ((groupView h cg).advance it.id).set it.id (some ⟨name, clock 0, 1⟩) := by
        rw [← hv₁, groupView, hl₂, hv₂]
        rfl
      obtain ⟨h', cg', he, hs, hv⟩ := ih hs₂.ok hs₂.fresh (hcon₂ ▸ hc₁) (fun i => clock (i + 1))
        (b || decide ((groupView h cg).lastId < it.id))
      have hprop := streamPropagateXCLAIM_eq group ha₂ (p := ⟨name, clock 0, 1⟩) (by rw [hv₂, update_self])
      rw [hview₂] at he hv hprop
      refine ⟨h', cg', ?_, hs₁.trans (hs₂.trans hs), ?_⟩
      · simp [deliver, hgt, Bool.false_eq_true, Option.pure_def, bind_eq_bind, bind_some, he₂, hprop, he,
          GroupView.deliver]
      · simp [hv, GroupView.deliver, Bool.false_eq_true]

theorem claimEntries_spec (hok : GroupOk h cg) (hf : h.Fresh) (hc : cg.consumers.find name = some c) (s : Stream)
    (group : Bytes) (minidle : ℤ) (opts : ClaimOptions) (now : ℕ) (ids : List StreamID) :
    ∃ h' cg', claimEntries s group c minidle opts now ids h cg =
        some (h', cg',
          ((groupView h cg).claim (fun id => streamRange s id id ≠ []) group name minidle opts now ids).2) ∧
      GroupStep h cg h' cg' ∧
      groupView h' cg' =
        ((groupView h cg).claim (fun id => streamRange s id id ≠ []) group name minidle opts now ids).1 := by
  induction ids generalizing h cg with
  | nil => exact ⟨h, cg, rfl, .refl hok hf, rfl⟩
  | cons id ids ih =>
    obtain ⟨h₁, cg₁, r, he₁, hs₁, hcon₁, hl₁, hr⟩ := claimEntry_spec hok hf hc s minidle opts now id
    obtain ⟨h', cg', he, hs, hv⟩ := ih hs₁.ok hs₁.fresh (hcon₁ ▸ hc)
    have hpel : (groupView h cg).pel id = pendingView h cg id := rfl
    rcases hclaim : claimedAs (decide (streamRange s id id ≠ [])) name minidle opts now
      (pendingView h cg id) with _ | p
    · rw [hclaim] at hr
      obtain ⟨rfl, hr⟩ := hr
      have hv₁ : groupView h₁ cg₁ = groupView h cg := by rw [groupView, hl₁, hr, groupView]
      rw [hv₁] at he hv
      refine ⟨h', cg', ?_, hs₁.trans hs, ?_⟩
      · simp only [claimEntries, he₁, Option.pure_def, bind_eq_bind, bind_some, he, GroupView.claim, hpel, hclaim,
          nil_append]
      · rw [hv]
        simp only [GroupView.claim, hpel, hclaim]
    · rw [hclaim] at hr
      obtain ⟨a, rfl, ha, hr⟩ := hr
      have hv₁ : groupView h₁ cg₁ = (groupView h cg).set id (some p) := by
        rw [groupView, hl₁, hr]
        rfl
      have hprop := streamPropagateXCLAIM_eq group ha (p := p) (by rw [hr, update_self])
      rw [hv₁] at he hv hprop
      refine ⟨h', cg', ?_, hs₁.trans hs, ?_⟩
      · simp only [claimEntries, he₁, Option.pure_def, bind_eq_bind, bind_some, hprop, he, GroupView.claim, hpel,
          hclaim, singleton_append]
      · rw [hv]
        simp only [GroupView.claim, hpel, hclaim]

/-! ### Consumers and groups that go -/

theorem entries_snd_nodup {α : Type} [LinearOrder α] (m : OrderedMap α ℕ)
    (hinj : ∀ k k' a, m.find k = some a → m.find k' = some a → k = k') : (m.entries.map Prod.snd).Nodup := by
  rw [List.Nodup, pairwise_map]
  refine (List.Pairwise.and_mem.mp m.sorted).imp ?_
  rintro ⟨k, a⟩ ⟨k', a'⟩ ⟨hm, hm', hlt⟩ he
  obtain rfl : a = a' := he
  exact hlt.ne (hinj k k' a (mem_entries_iff.mp hm) (mem_entries_iff.mp hm'))

theorem mem_entries_fst : id ∈ pel.entries.map Prod.fst ↔ ∃ a, pel.find id = some a := by
  rw [← isSome_find_iff, isSome_iff_exists]

theorem mem_entries_snd : a ∈ pel.entries.map Prod.snd ↔ ∃ id, pel.find id = some a := by
  simp [← mem_entries_iff]

section

variable {name' : Bytes} (hok : GroupOk h cg) (hf : h.Fresh) (hc : cg.consumers.find name = some c)
  (hcon : h.consumers c = some con)
include hok hc

theorem GroupOk.name_unique (hc' : cg.consumers.find name' = some c) : name = name' := by
  obtain ⟨con, hcon, hname, -⟩ := hok.consumers name c hc
  exact hname.symm.trans (hok.owned hc' hcon).1

include hcon

/-- The entries of a consumer are those that its own list has. -/
theorem GroupOk.filter_owner (id : StreamID) : (pendingView h cg id).filter (fun p => p.owner ≠ name) =
      if id ∈ con.pel.entries.map Prod.fst then none else pendingView h cg id := by
  rcases ha : cg.pel.find id with _ | a
  · simp [pendingView_none ha]
  · obtain ⟨n, c', con', hn, hnc, ⟨name', hc'⟩, hcon', hpel⟩ := hok.pending id a ha
    have hname' := (hok.owned hc' hcon').1
    rw [pendingView_eq ha hn hnc hcon']
    by_cases hne : name' = name
    · subst hne
      obtain rfl : c' = c := by simpa [hc] using hc'.symm
      obtain rfl : con = con' := by simpa [hcon] using hcon'
      rw [if_pos (mem_entries_fst.mpr ⟨a, hpel⟩)]
      simp [Option.filter, hname']
    · have hcc : c ≠ c' := fun he => hne (hok.name_unique hc' (he ▸ hc))
      have hnot := hok.unique ha hn hnc ⟨name, hc⟩ hcc hcon
      rw [if_neg (mem_entries_fst.not.mpr (by simp [hnot]))]
      simp [Option.filter, hname', hne]

include hf

theorem GroupOk.remove_consumer (hempty : ∀ id, con.pel.find id = none) :
    GroupStep h cg (h.setConsumer c none) { cg with consumers := cg.consumers.erase name } ∧
      pendingView (h.setConsumer c none) { cg with consumers := cg.consumers.erase name } = pendingView h cg := by
  have hhas : ∀ c', StreamCG.Has { cg with consumers := cg.consumers.erase name } c' ↔ c' ≠ c ∧ cg.Has c' := by
    intro c'
    constructor
    · rintro ⟨name', hc'⟩
      rw [find_erase] at hc'
      split_ifs at hc' with hne
      exact ⟨fun hcc => hne (hok.name_unique (hcc ▸ hc') hc), name', hc'⟩
    · rintro ⟨hne, name', hc'⟩
      refine ⟨name', ?_⟩
      rw [find_erase, if_neg, hc']
      rintro rfl
      exact hne (by simpa [hc] using hc'.symm)
  have hok' : GroupOk h { cg with consumers := cg.consumers.erase name } := by
    refine ⟨fun id a ha => ?_, fun name' c' hc' => ?_, hok.inj⟩
    · obtain ⟨n, c', con', hn, hnc, hc', hcon', hpel⟩ := hok.pending id a ha
      refine ⟨n, c', con', hn, hnc, (hhas c').mpr ⟨?_, hc'⟩, hcon', hpel⟩
      rintro rfl
      obtain rfl : con = con' := by simpa [hcon] using hcon'
      simp [hempty] at hpel
    · rw [find_erase] at hc'
      split_ifs at hc'
      exact hok.consumers name' c' hc'
  obtain ⟨hok', hview⟩ := @GroupOk.frame h (h.setConsumer c none) _ hok' (fun _ _ => rfl) fun c' hc' => by
    simp [((hhas c').mp hc').1]
  refine ⟨⟨hok', fun a hle => ⟨(hf a hle).1, ?_⟩, le_rfl, fun a ha _ => ⟨rfl, ha⟩,
    fun c' hc' _ => ⟨?_, ?_⟩,
    fun a ha => (em _).imp_right fun hn => ⟨hn, hf.lt ha⟩, fun c' hc' => ?_⟩, hview⟩
  · rw [Heap.consumers_setConsumer, (hf a hle).2, ite_self]
  · have hne : c' ≠ c := fun hcc => hc' ⟨name, hcc ▸ hc⟩
    simp [hne]
  · exact fun hh => hc' ((hhas c').mp hh).2
  · have hne : c' ≠ c := fun hcc => by simp [hcc] at hc'
    rw [Heap.consumers_setConsumer, if_neg hne] at hc'
    exact (em _).imp (fun hh => (hhas c').mpr ⟨hne, hh⟩) fun hh => ⟨hh, hf.consumer_lt hc'⟩

/-- Up to the consumer `c` itself, dropping its entries is acknowledging them. -/
theorem dropPending_spec {h₁ : Heap} (hnd : (es.map Prod.fst).Nodup)
    (hes : ∀ e ∈ es, con.pel.find e.1 = some e.2) (hsame : h₁.setConsumer c none = h.setConsumer c none) :
    ∃ h₂ h' pel, dropPending es h₁ cg.pel = some (h₂, pel) ∧
      h₂.setConsumer c none = h'.setConsumer c none ∧ GroupStep h cg h' { cg with pel := pel } ∧
      pendingView h' { cg with pel := pel } = fun id => if id ∈ es.map Prod.fst then
        none else pendingView h cg id := by
  induction es generalizing h cg con h₁ with
  | nil => exact ⟨h₁, h, cg.pel, rfl, hsame, .refl hok hf, by simp⟩
  | cons e es ih =>
    obtain ⟨id, a⟩ := e
    obtain ⟨hid, hnd⟩ := nodup_cons.mp hnd
    obtain ⟨ha, n, hn, hnc⟩ := (hok.owned hc hcon).2 id a (hes (id, a) (by simp))
    have hC := hok.acked ha hn hnc ⟨name, hc⟩ hcon
    have hs := hC.step hok hf (by simp)
    have hes' : ∀ e ∈ es, (con.pel.erase id).find e.1 = some e.2 := by
      intro e he
      rw [find_erase, if_neg fun hh => hid (List.mem_map.mpr ⟨e, he, hh⟩)]
      exact hes e (mem_cons_of_mem _ he)
    obtain ⟨h₂, h', pel, he, hsame', hs', hv⟩ :=
      @ih _ _ _ hs.ok hs.fresh hc (by simp; rfl) (h₁.setNack a none) hnd hes'
      (by rw [Heap.setConsumer_setNack, hsame, Heap.setConsumer_setNack, Heap.setConsumer_setConsumer])
    refine ⟨h₂, h', pel, ?_, hsame', hs.trans hs', funext fun id' => ?_⟩
    · have hn₁ : h₁.nacks a = some n := (congrFun (congrArg Heap.nacks hsame) a).trans hn
      simpa [dropPending, streamFreeNACK, hn₁] using he
    · rw [hv, hC.view hok hf [] (by simp)]
      by_cases hid' : id' = id
      · simp [hid']
      · simp only [map_cons, mem_cons, hid', false_or, update_of_ne hid']

end

theorem streamDelConsumer_spec (hok : GroupOk h cg) (hf : h.Fresh) (name : Bytes) :
    ∃ h' cg', streamDelConsumer h cg name = some (h', cg') ∧ GroupStep h cg h' cg' ∧ cg'.lastId = cg.lastId ∧
      pendingView h' cg' = fun id => (pendingView h cg id).filter (fun p => p.owner ≠ name) := by
  rcases hc : cg.consumers.find name with _ | c
  · refine ⟨h, cg, by simp [streamDelConsumer, hc], .refl hok hf, rfl, funext fun id => ?_⟩
    rcases ha : cg.pel.find id with _ | a
    · simp [pendingView_none ha]
    · obtain ⟨n, c, con, hn, hnc, ⟨name', hc'⟩, hcon, -⟩ := hok.pending id a ha
      have hname := (hok.owned hc' hcon).1
      have hne : con.name ≠ name := fun he => by simp [← hname, he, hc] at hc'
      simp [pendingView_eq ha hn hnc hcon, Option.filter, hne]
  · obtain ⟨con, hcon, -, -⟩ := hok.consumers name c hc
    have hnd : (con.pel.entries.map Prod.fst).Nodup := pairwise_map.mpr (con.pel.sorted.imp fun hlt => hlt.ne)
    obtain ⟨h₁, h₂, pel, he, hsame, hs, hv⟩ := dropPending_spec hok hf hc hcon hnd
      (fun e he => mem_entries_iff.mp he) rfl
    obtain ⟨con₂, hcon₂, hname₂, hpel₂⟩ := hs.ok.consumers name c hc
    -- an entry that were left to the consumer would be one that it had
    have hempty : ∀ id, con₂.pel.find id = none := by
      intro id
      rcases ha : con₂.pel.find id with _ | a
      · rfl
      · obtain ⟨ha', n, hn, hnc⟩ := hpel₂ id a ha
        have hp := pendingView_eq ha' hn hnc hcon₂
        have hown := hok.filter_owner hc hcon id
        rw [← congrFun hv id, hp, filter_eq_some_iff] at hown
        simp [hname₂] at hown
    obtain ⟨hs', hv'⟩ := hs.ok.remove_consumer hs.fresh hc hcon₂ hempty
    refine ⟨_, _, ?_, hs.trans hs', rfl, ?_⟩
    · simp [streamDelConsumer, hc, hcon, he, hsame]
    · rw [hv', hv]
      exact funext fun id => (hok.filter_owner hc hcon id).symm

section

variable {κ α : Type} {e : κ × ℕ} {es : List (κ × ℕ)} {f g : ℕ → Option α}
    (hg : ∀ a, g a = if a = e.2 then none else f a)
include hg

theorem live_of_freed (hna : e.2 ∉ es.map Prod.snd) (hlive : ∀ e' ∈ e :: es, f e'.2 ≠ none) :
    ∀ e' ∈ es, g e'.2 ≠ none := by
  intro e' he'
  rw [hg, if_neg fun hh => hna (List.mem_map.mpr ⟨e', he', hh⟩)]
  exact hlive e' (mem_cons_of_mem _ he')

theorem freed_cons (a : ℕ) :
    (if a ∈ es.map Prod.snd then none else g a) = if a ∈ (e :: es).map Prod.snd then none else f a := by
  rw [hg]
  by_cases ha : a = e.2
  · simp [ha]
  · simp only [ha, map_cons, mem_cons, false_or, if_false]

end

theorem freeNACKs_spec (hnd : (es.map Prod.snd).Nodup) (hlive : ∀ e ∈ es, h.nacks e.2 ≠ none) :
    ∃ h', freeNACKs es h = some h' ∧ h'.consumers = h.consumers ∧ h'.next = h.next ∧
      ∀ a, h'.nacks a = if a ∈ es.map Prod.snd then none else h.nacks a := by
  induction es generalizing h with
  | nil => exact ⟨h, rfl, rfl, rfl, by simp⟩
  | cons e es ih =>
    obtain ⟨hna, hnd⟩ := nodup_cons.mp hnd
    obtain ⟨n, hn⟩ := ne_none_iff_exists'.mp (hlive e (by simp))
    have hfree := fun a => h.nacks_setNack e.2 a none
    obtain ⟨h', he, hc, hx, hnacks⟩ := ih hnd (live_of_freed hfree hna hlive)
    exact ⟨h', by simpa [freeNACKs, streamFreeNACK, hn] using he, hc, hx,
      fun a => (hnacks a).trans (freed_cons hfree a)⟩

theorem freeConsumers_spec {es : List (Bytes × ℕ)} (hnd : (es.map Prod.snd).Nodup)
    (hlive : ∀ e ∈ es, h.consumers e.2 ≠ none) :
    ∃ h', freeConsumers es h = some h' ∧ h'.nacks = h.nacks ∧ h'.next = h.next ∧
      ∀ c, h'.consumers c = if c ∈ es.map Prod.snd then none else h.consumers c := by
  induction es generalizing h with
  | nil => exact ⟨h, rfl, rfl, rfl, by simp⟩
  | cons e es ih =>
    obtain ⟨hna, hnd⟩ := nodup_cons.mp hnd
    obtain ⟨con, hcon⟩ := ne_none_iff_exists'.mp (hlive e (by simp))
    have hfree := fun c => h.consumers_setConsumer e.2 c none
    obtain ⟨h', he, hn, hx, hcons⟩ := ih hnd (live_of_freed hfree hna hlive)
    exact ⟨h', by simpa [freeConsumers, hcon] using he, hn, hx, fun c => (hcons c).trans (freed_cons hfree c)⟩

theorem streamFreeCG_spec (hok : GroupOk h cg) : ∃ h', streamFreeCG h cg = some h' ∧ h'.next = h.next ∧
      (∀ a, cg.Holds a → h'.nacks a = none) ∧ (∀ a, ¬ cg.Holds a → h'.nacks a = h.nacks a) ∧
      (∀ c, cg.Has c → h'.consumers c = none) ∧ ∀ c, ¬ cg.Has c → h'.consumers c = h.consumers c := by
  have hmem : ∀ c, c ∈ cg.consumers.entries.map Prod.snd ↔ cg.Has c := by
    simp [StreamCG.Has, ← mem_entries_iff]
  have hnd := entries_snd_nodup cg.consumers fun name name' c => hok.name_unique
  obtain ⟨h₁, he₁, hc₁, hx₁, hn₁⟩ := freeNACKs_spec (entries_snd_nodup cg.pel hok.inj)
    (fun e he => hok.live ⟨e.1, mem_entries_iff.mp he⟩)
  obtain ⟨h', he', hn', hx', hc'⟩ := freeConsumers_spec (h := h₁) hnd fun e he => by
    rw [hc₁]
    exact hok.live_consumer ((hmem e.2).mp (List.mem_map_of_mem he))
  refine ⟨h', by simp [streamFreeCG, he₁, he'], hx'.trans hx₁, fun a ha => ?_, fun a ha => ?_,
    fun c hc => ?_, fun c hc => ?_⟩
  · rw [hn', hn₁, if_pos (mem_entries_snd.mpr ha)]
  · rw [hn', hn₁, if_neg (mem_entries_snd.not.mpr ha)]
  · rw [hc', if_pos ((hmem c).mpr hc)]
  · rw [hc', if_neg ((hmem c).not.mpr hc), hc₁]

end RedisIR.Streams
