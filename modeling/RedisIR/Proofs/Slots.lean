import RedisIR.Spec.Slots

/-! The table of owners, the bitmaps and the counters of the nodes always say the same, and an update
takes the slots that it should. -/

namespace RedisIR.Slots

open Function

variable {N : Type} {c c' : Cluster N} {n myself : N} {j : Slot}

def Cluster.Consistent (c : Cluster N) : Prop :=
  ∀ n, (∀ j, j ∈ (c.nodes n).slots ↔ c.slots j = some n) ∧ (c.nodes n).numslots = (c.nodes n).slots.card

/-- The tables are consistent again, and nothing that a decision about a slot depends on has changed. -/
structure Turned (c c' : Cluster N) : Prop where
  consistent : c'.Consistent
  importing : c'.importingSlotsFrom = c.importingSlotsFrom
  epochs : ∀ n, (c'.nodes n).configEpoch = (c.nodes n).configEpoch

theorem Turned.trans {c'' : Cluster N} (h : Turned c c') (h' : Turned c' c'') : Turned c c'' :=
  ⟨h'.consistent, h'.importing.trans h.importing, fun n => (h'.epochs n).trans (h.epochs n)⟩

/-- The tables stay consistent, and no assertion fails. -/
def Safe (f : Step N) : Prop := ∀ c, c.Consistent → ∃ c', f c = some c' ∧ c'.Consistent

theorem Safe.bind {f g : Step N} (hf : Safe f) (hg : Safe g) : Safe fun c => (f c).bind g := by
  intro c h
  obtain ⟨c', hrun, hc'⟩ := hf c h
  simpa [hrun] using hg c' hc'

/-- The test of a loop sees of the changed tables only the owner of its slot. -/
def Local (p : Cluster N → Slot → Bool) (c : Cluster N) : Prop :=
  ∀ c' j, Turned c c' → c'.slots j = c.slots j → p c' j = p c j

section

variable {p : Cluster N → Slot → Bool} {body : Slot → Step N} {target : Option N}
  (hbody : ∀ {c}, c.Consistent → ∀ j, ∃ c', body j c = some c' ∧ Turned c c' ∧
    c'.slots = update c.slots j target)
include hbody

theorem forSlots_turned (h : c.Consistent) : ∃ c', forSlots p body c = some c' ∧ c'.Consistent ∧
    (Local p c → ∀ j, c'.slots j = if p c j then target else c.slots j) := by
  have hloop : ∀ l : List Slot, l.Nodup →
      ∃ c', l.foldlM (fun c j => if p c j then body j c else some c) c = some c' ∧ Turned c c' ∧
        (∀ j ∉ l, c'.slots j = c.slots j) ∧
        (Local p c → ∀ j ∈ l, c'.slots j = if p c j then target else c.slots j) := by
    intro l
    induction l using List.reverseRecOn with
    | nil => exact fun _ => ⟨c, rfl, ⟨h, rfl, fun _ => rfl⟩, fun _ _ => rfl, by simp⟩
    | append_singleton l i ih =>
      intro hl
      obtain ⟨hi, hl⟩ := List.nodup_cons.mp (List.nodup_append_comm.mp hl)
      obtain ⟨c1, hrun, hc1, hsame, hend⟩ := ih hl
      obtain ⟨c2, hstep, hturn, hslots⟩ : ∃ c2, (if p c1 i then body i c1 else some c1) = some c2 ∧
          Turned c1 c2 ∧ c2.slots = update c1.slots i (if p c1 i then target else c1.slots i) := by
        split_ifs
        · exact hbody hc1.consistent i
        · exact ⟨c1, rfl, ⟨hc1.consistent, rfl, fun _ => rfl⟩, (update_eq_self _ _).symm⟩
      have hkept : ∀ j ≠ i, c2.slots j = c1.slots j := fun j hj => by rw [hslots, update_of_ne hj]
      refine ⟨c2, by simp [hrun, hstep], hc1.trans hturn, fun j hj => ?_, fun hstable j hj => ?_⟩
      · grind
      · by_cases hji : j = i
        · simp [hji, hslots, hsame i hi, hstable c1 i hc1]
        · grind
  obtain ⟨c', hrun, hc', -, hend⟩ := hloop _ (List.nodup_finRange _)
  exact ⟨c', hrun, hc'.consistent, fun hstable j => hend hstable j (List.mem_finRange j)⟩

theorem forSlots_safe : Safe (forSlots p body) := by
  intro c h
  obtain ⟨c', hrun, hc', -⟩ := forSlots_turned (p := p) hbody h
  exact ⟨c', hrun, hc'⟩

end

variable [DecidableEq N]

theorem clusterAddSlot_turned (h : c.Consistent) (hj : c.slots j = none) :
    Turned c (clusterAddSlot n j c) ∧ (clusterAddSlot n j c).slots = update c.slots j (some n) := by
  rw [clusterAddSlot, hj]
  refine ⟨⟨fun m => ⟨fun i => ?_, ?_⟩, rfl, fun m => ?_⟩, rfl⟩
  all_goals
    have := h m
    simp only [Cluster.setNode, clusterNodeSetSlotBit, update_apply]
    grind

theorem clusterDelSlot_turned (h : c.Consistent) (j : Slot) :
    ∃ c', clusterDelSlot j c = some c' ∧ Turned c c' ∧ c'.slots = update c.slots j none := by
  unfold clusterDelSlot
  cases hj : c.slots j with
  | none => exact ⟨c, rfl, ⟨h, rfl, fun _ => rfl⟩, by rw [← hj, update_eq_self]⟩
  | some n =>
    have hbit : j ∈ (c.nodes n).slots := ((h n).1 j).mpr hj
    refine ⟨_, if_pos hbit, ⟨fun m => ⟨fun i => ?_, ?_⟩, rfl, fun m => ?_⟩, rfl⟩
    all_goals
      have := h m
      simp only [Cluster.setNode, clusterNodeClearSlotBit, update_apply]
      grind

theorem rebind_turned (n : N) (h : c.Consistent) (j : Slot) :
    ∃ c', rebind n j c = some c' ∧ Turned c c' ∧ c'.slots = update c.slots j (some n) := by
  obtain ⟨c1, hdel, ht, hs⟩ := clusterDelSlot_turned h j
  obtain ⟨ht', hs'⟩ := clusterAddSlot_turned (n := n) ht.consistent (show c1.slots j = none by simp [hs])
  exact ⟨_, by rw [rebind, hdel]; rfl, ht.trans ht', by rw [hs', hs, update_idem]⟩

/-! ### Runs -/

theorem consistent_setNode (f : ClusterNode N → ClusterNode N) (hf : ∀ n, (f n).slots = n.slots ∧
    (f n).numslots = n.numslots) (h : c.Consistent) : (c.setNode n f).Consistent := by
  intro m
  have := h m
  simp only [Cluster.setNode, update_apply]
  grind

theorem clusterSetNodeAsMaster_consistent (h : c.Consistent) : (clusterSetNodeAsMaster n c).Consistent :=
  consistent_setNode _ (fun n => by split_ifs; all_goals exact ⟨rfl, rfl⟩) h

theorem clusterDelNodeSlots_safe (n : N) : Safe (clusterDelNodeSlots n) := forSlots_safe clusterDelSlot_turned

theorem clusterUpdateSlotsConfigWith_safe (n : N) (epoch : ℕ) (slots : Finset Slot) :
    Safe (clusterUpdateSlotsConfigWith myself n epoch slots) := by
  intro c h
  unfold clusterUpdateSlotsConfigWith
  split_ifs
  · exact ⟨c, rfl, h⟩
  · exact forSlots_safe (rebind_turned n) c h

theorem Op.safe {op : Step N} (hop : Op myself op) : Safe op := by
  cases hop with
  | addSlot n j =>
    intro c h
    cases hj : c.slots j with
    | none => exact ⟨_, rfl, (clusterAddSlot_turned h hj).1.consistent⟩
    | some m => exact ⟨c, by simp [clusterAddSlot, hj], h⟩
  | delSlot j =>
    intro c h
    obtain ⟨c', hrun, hturn, -⟩ := clusterDelSlot_turned h j
    exact ⟨c', hrun, hturn.consistent⟩
  | delNodeSlots n => exact clusterDelNodeSlots_safe n
  | updateSlots n epoch slots => exact clusterUpdateSlotsConfigWith_safe n epoch slots
  | packet n slave epoch slots =>
    refine Safe.bind (fun c h => ?_) fun c h => ?_
    · split_ifs
      · exact ⟨_, rfl, clusterSetNodeAsMaster_consistent h⟩
      · obtain ⟨c', hrun, hc'⟩ := clusterDelNodeSlots_safe n c h
        rw [hrun]
        exact ⟨_, rfl, consistent_setNode (fun n => { n with master := false }) (fun _ => ⟨rfl, rfl⟩) hc'⟩
      · exact ⟨c, rfl, h⟩
    · split_ifs
      · exact clusterUpdateSlotsConfigWith_safe n epoch slots c h
      · exact ⟨c, rfl, h⟩
  | failover =>
    intro c h
    unfold clusterFailoverReplaceYourMaster
    split
    · exact forSlots_safe (rebind_turned myself) _ (clusterSetNodeAsMaster_consistent h)
    · exact ⟨c, rfl, h⟩
  | delNode n =>
    intro c h
    obtain ⟨c', hrun, hc'⟩ := forSlots_safe clusterDelSlot_turned
      { c with importingSlotsFrom := fun j => (c.importingSlotsFrom j).filter (· ≠ n) } h
    rw [clusterDelNode, hrun]
    exact ⟨_, rfl, hc'⟩
  | other f hsame =>
    refine fun c h => ⟨_, rfl, fun n => ?_⟩
    rw [(hsame c).1, ((hsame c).2 n).1, ((hsame c).2 n).2]
    exact h n

/-- After any operations no assertion has failed, the bitmap of every node has the slots that the table
gives it, and its counter their number; and a claim of slots by another node binds to it exactly those
that are not being imported and that nobody with an epoch as great has. -/
theorem slot_tables_agree {ops : List (Step N)} (hops : ∀ op ∈ ops, Op myself op) :
    ∃ c, run ops = some c ∧ c.Consistent ∧
      ∀ n ≠ myself, ∀ epoch slots, ∃ c', clusterUpdateSlotsConfigWith myself n epoch slots c = some c' ∧
        ∀ j, c'.slots j =
          if j ∈ slots ∧ c.importingSlotsFrom j = none ∧ ∀ m ∈ c.slots j, m ≠ n ∧
          (c.nodes m).configEpoch < epoch then some n else c.slots j := by
  have hsafe : ∀ c : Cluster N, c.Consistent → ∃ c', ops.foldlM (fun c op => op c) c = some c' ∧
    c'.Consistent := by
    induction ops with
    | nil => exact fun c h => ⟨c, rfl, h⟩
    | cons op ops ih =>
      rw [List.forall_mem_cons] at hops
      exact hops.1.safe.bind (ih hops.2)
  obtain ⟨c, hrun, hc⟩ := hsafe .start fun n => by simp [Cluster.start]
  refine ⟨c, hrun, hc, fun n hn epoch slots => ?_⟩
  unfold clusterUpdateSlotsConfigWith
  rw [if_neg hn]
  obtain ⟨c', hrun, -, hslots⟩ := forSlots_turned (rebind_turned n) hc
  refine ⟨c', hrun, fun j => ?_⟩
  rw [hslots fun c' j ht hj => by simp only [hj, ht.importing, ht.epochs]]
  cases c.slots j with
  | none => simp
  | some m => simp [and_left_comm]

/-- The local node becomes a replica of the owner of a slot, and takes its place. -/
theorem slot_tables_agree_failover : ∃ c,
    run [fun c => some (clusterAddSlot true ⟨5, by decide⟩ c),
      fun c => some (c.setNode false fun n => { n with master := false, slaveof := some true }),
      clusterFailoverReplaceYourMaster false] = some c ∧
      (c.nodes false).numslots = (c.nodes false).slots.card := by
  have hreplica : ∀ c : Cluster Bool,
      SameTables c (c.setNode false fun n => { n with master := false, slaveof := some true }) := by
    refine fun c => ⟨rfl, fun n => ?_⟩
    cases n with
    | false => exact ⟨rfl, rfl⟩
    | true => exact ⟨rfl, rfl⟩
  obtain ⟨c, hrun, hc, -⟩ := slot_tables_agree (List.forall_mem_cons.mpr ⟨.addSlot true ⟨5, by decide⟩,
    List.forall_mem_cons.mpr ⟨.other _ hreplica, List.forall_mem_singleton.mpr (Op.failover : Op false _)⟩⟩)
  exact ⟨c, hrun, (hc false).2⟩

end RedisIR.Slots
