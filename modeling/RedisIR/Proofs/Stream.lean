import RedisIR.Spec.Stream

/-! What the operations of a stream do to the list of its live entries. -/

namespace RedisIR.Streams

open CLib List Option

variable {start last : StreamID}
variable {it : Item} {its : List Item} {ns : List Node} {full : Node → Bool} {s : Stream} {fields : Fields}
  {useId : Option StreamID} {now : ℕ} {id : StreamID}

def items (ns : List Node) : List Item := ns.flatMap Node.items

theorem items_cons (n : Node) (ns : List Node) : items (n :: ns) = n.items ++ items ns := flatMap_cons

/-- The entries of a list that are not deleted. -/
def live (its : List Item) : List Item := its.filter (fun it => !it.deleted)

theorem live_nil : live [] = [] := rfl

theorem live_append (its jts : List Item) : live (its ++ jts) = live its ++ live jts := filter_append ..

theorem mem_live : it ∈ live its ↔ it ∈ its ∧ it.deleted = false := by
  simp [live]

theorem live_cons_deleted (h : it.deleted = true) (its : List Item) : live (it :: its) = live its :=
  filter_cons_of_neg (by simp [h])

theorem live_cons (h : it.deleted = false) (its : List Item) : live (it :: its) = it :: live its :=
  filter_cons_of_pos (by simp [h])

theorem Node.count_eq (n : Node) : n.count = (live n.items).length := countP_eq_length_filter

structure Node.Valid (n : Node) : Prop where
  key : n.items.head?.map Item.id = some n.key
  count : 0 < n.count

structure Stream.Valid (s : Stream) : Prop where
  nodes : ∀ n ∈ s.nodes, n.Valid
  sorted : (items s.nodes).Pairwise (fun a b => a.id < b.id)
  bounded : ∀ it ∈ items s.nodes, it.id ≤ s.lastId
  length : s.length = (live (items s.nodes)).length

theorem streamNew_valid : streamNew.Valid := ⟨by simp [streamNew], .nil, by simp [streamNew, items], rfl⟩

/-! ### Appending -/

theorem items_appendNode (full : Node → Bool) (it : Item) (ns : List Node) :
    items (appendNode full it ns) = items ns ++ [it] := by
  induction ns with
  | nil => simp [appendNode, items]
  | cons n ns ih =>
    rcases ns with _ | ⟨m, ns⟩
    · by_cases h : full n <;> simp [appendNode, items, h]
    · rw [appendNode, items_cons, ih, items_cons n, append_assoc]

theorem appendNode_valid (full : Node → Bool) (hit : it.deleted = false) (h : ∀ n ∈ ns, n.Valid) :
    ∀ n ∈ appendNode full it ns, n.Valid := by
  have hnew : (⟨it.id, [it]⟩ : Node).Valid := ⟨rfl, by simp [Node.count, hit]⟩
  induction ns with
  | nil => simpa [appendNode] using hnew
  | cons n ns ih =>
    have hn := h n (by simp)
    rcases ns with _ | ⟨m, ns⟩
    · rw [appendNode]
      split_ifs
      · simpa using ⟨hn, hnew⟩
      · simp only [mem_singleton, forall_eq]
        refine ⟨?_, by simp [Node.count, hit]⟩
        obtain ⟨a, ha, hk⟩ := map_eq_some_iff.mp hn.key
        simp [ha, hk]
    · rw [appendNode]
      intro n' hn'
      rcases mem_cons.mp hn' with rfl | hn'
      · exact hn
      · exact ih (forall_mem_cons.mp h).2 n' hn'

theorem streamAppendItem_none :
    streamAppendItem full s fields useId now = none ↔ useId.getD (streamNextID s.lastId now) ≤ s.lastId := by
  simp only [streamAppendItem, streamCompareID_nonpos]
  split_ifs with h <;> simp [h]

theorem streamAppendItem_some {s' : Stream} (h : streamAppendItem full s fields useId now = some (s', id)) :
    id = useId.getD (streamNextID s.lastId now) ∧ s.lastId < id ∧
      s' = ⟨appendNode full ⟨id, fields, false⟩ s.nodes, s.length + 1, id⟩ := by
  simp only [streamAppendItem, streamCompareID_nonpos] at h
  split_ifs at h with hle
  cases h
  exact ⟨rfl, not_le.mp hle, rfl⟩

theorem Stream.Valid.append {s' : Stream} (hs : s.Valid)
    (h : streamAppendItem full s fields useId now = some (s', id)) :
    s'.Valid ∧ live (items s'.nodes) = live (items s.nodes) ++ [⟨id, fields, false⟩] ∧ s'.lastId = id := by
  obtain ⟨-, hlt, rfl⟩ := streamAppendItem_some h
  have hl : live (items s.nodes ++ [⟨id, fields, false⟩]) =
    live (items s.nodes) ++ [⟨id, fields, false⟩] := live_append _ _
  refine ⟨⟨appendNode_valid full rfl hs.nodes, ?_, ?_, ?_⟩, ?_, rfl⟩
  · rw [items_appendNode, pairwise_append]
    exact ⟨hs.sorted, by simp, fun a ha b hb => by
      obtain rfl := mem_singleton.mp hb
      exact (hs.bounded a ha).trans_lt hlt⟩
  · rw [items_appendNode]
    intro it hit
    rcases mem_append.mp hit with hit | hit
    · exact (hs.bounded it hit).trans hlt.le
    · obtain rfl := mem_singleton.mp hit
      exact le_rfl
  · rw [items_appendNode, hl, length_append, hs.length]
    rfl
  · rw [items_appendNode, hl]

/-! ### Iterating -/

theorem emit_eq (h : its.Pairwise (fun a b => a.id < b.id)) :
    emit start last its = (live its).filter (fun it => start ≤ it.id ∧ it.id ≤ last) := by
  induction its with
  | nil => rfl
  | cons it its ih =>
    obtain ⟨hlt, hits⟩ := pairwise_cons.mp h
    rw [emit]
    split_ifs with hin hgt
    · obtain ⟨hstart, hd⟩ : start ≤ it.id ∧ it.deleted = false := by simpa using hin
      -- the entries that follow are out of the range as well
      symm
      rw [filter_eq_nil_iff]
      intro a ha
      have hle : it.id ≤ a.id := by
        rcases mem_cons.mp (mem_live.mp ha).1 with rfl | ha
        · exact le_rfl
        · exact (hlt a ha).le
      simpa using fun _ => hgt.trans_le hle
    · obtain ⟨hstart, hd⟩ : start ≤ it.id ∧ it.deleted = false := by simpa using hin
      rw [ih hits, live_cons hd, filter_cons_of_pos (by simpa [hstart] using hgt)]
    · rw [ih hits]
      by_cases hd : it.deleted
      · rw [live_cons_deleted hd]
      · have hn : ¬ start ≤ it.id := fun hs => hin ⟨hs, by simp [hd]⟩
        rw [live_cons (by simpa using hd), filter_cons_of_neg (by simp [hn])]

theorem Node.Valid.key_mem {n : Node} (h : n.Valid) : ∃ it ∈ n.items, it.id = n.key := by
  obtain ⟨it, hit, hk⟩ := map_eq_some_iff.mp h.key
  exact ⟨it, List.mem_of_mem_head? hit, hk⟩

/-- The nodes that the seek leaves out hold only entries before `start`. -/
theorem filter_seekNodes {ns : List Node} (hv : ∀ n ∈ ns, n.Valid)
    (h : (items ns).Pairwise (fun a b => a.id < b.id)) :
    (items (seekNodes start ns)).Pairwise (fun a b => a.id < b.id) ∧ ∀ p : Item → Bool, (∀ it, p it →
        start ≤ it.id) → (live (items (seekNodes start ns))).filter p = (live (items ns)).filter p := by
  induction ns using seekNodes.induct start with
  | case1 n m ns hle ih =>
    rw [items_cons, pairwise_append] at h
    obtain ⟨hs, hf⟩ := ih (forall_mem_cons.mp hv).2 h.2.1
    rw [seekNodes, if_pos hle]
    refine ⟨hs, fun p hp => ?_⟩
    rw [hf p hp, items_cons n, live_append, filter_append]
    -- an entry of the first node is before the key of the second one
    obtain ⟨k, hk, hkey⟩ := (hv m (by simp)).key_mem
    have hnil : (live n.items).filter p = [] := by
      rw [filter_eq_nil_iff]
      intro it hit hpit
      have hlt := h.2.2 it (mem_live.mp hit).1 k (by simp [items_cons, hk])
      rw [hkey] at hlt
      exact absurd (hlt.trans_le hle) (not_lt.mpr (hp it hpit))
    rw [hnil, nil_append]
  | case2 n m ns hle =>
    rw [seekNodes, if_neg hle]
    exact ⟨h, fun _ _ => rfl⟩
  | case3 ns hns =>
    have : seekNodes start ns = ns := by
      rcases ns with _ | ⟨n, _ | ⟨m, ns⟩⟩
      · rfl
      · rfl
      · exact absurd rfl (hns n m ns)
    rw [this]
    exact ⟨h, fun _ _ => rfl⟩

/-- A forward iteration returns the live entries of the range, in order. -/
theorem Stream.Valid.range (hs : s.Valid) (start last : StreamID) :
    streamRange s start last = (live (items s.nodes)).filter (fun it => start ≤ it.id ∧ it.id ≤ last) := by
  obtain ⟨hsorted, hf⟩ := @filter_seekNodes start _ hs.nodes hs.sorted
  rw [streamRange, ← items, emit_eq hsorted]
  exact hf _ fun it hit => by simp at hit; exact hit.1

theorem live_sorted (h : its.Pairwise (fun a b => a.id < b.id)) :
    (live its).Pairwise (fun a b => a.id < b.id) := h.filter _

theorem Stream.Valid.mem_range (hs : s.Valid) :
    it ∈ streamRange s start last ↔ it ∈ live (items s.nodes) ∧ start ≤ it.id ∧ it.id ≤ last := by
  rw [hs.range, mem_filter]
  simp

/-! ### Trimming -/

theorem markDeleted_ids (k : ℕ) (its : List Item) : (markDeleted k its).map Item.id = its.map Item.id := by
  induction k, its using markDeleted.induct with
  | case1 => rw [markDeleted]
  | case2 => rw [markDeleted]
  | case3 k it its hd ih => rw [markDeleted, if_pos hd, map_cons, ih, map_cons]
  | case4 k it its hd ih => rw [markDeleted, if_neg hd, map_cons, ih, map_cons]

theorem live_markDeleted (k : ℕ) (its : List Item) : live (markDeleted k its) = (live its).drop k := by
  induction k, its using markDeleted.induct with
  | case1 => rw [markDeleted, drop_zero]
  | case2 => simp [markDeleted, live]
  | case3 k it its hd ih => rw [markDeleted, if_pos hd, live_cons_deleted hd, ih, live_cons_deleted hd]
  | case4 k it its hd ih =>
    rw [markDeleted, if_neg hd, live_cons_deleted rfl, ih, live_cons (by simpa using hd), drop_succ_cons]

/-- What trimming leaves of some nodes: their live entries but the first ones. -/
structure Trimmed (maxlen : ℕ) (approx : Bool) (ns : List Node) (length : ℕ) (r : List Node × ℕ) : Prop where
  nodes : ∀ n ∈ r.1, n.Valid
  ids : ∃ ids, (items ns).map Item.id = ids ++ (items r.1).map Item.id
  live : live (items r.1) = (live (items ns)).drop (length - r.2)
  le : r.2 ≤ length
  exact : approx = false → length - (Streams.live (items ns)).length ≤ maxlen → r.2 = min maxlen length

theorem trimNodes_trimmed (maxlen : ℕ) (approx : Bool) {length : ℕ} (hv : ∀ n ∈ ns, n.Valid)
    (hlen : (live (items ns)).length ≤ length) :
    Trimmed maxlen approx ns length (trimNodes maxlen approx ns length) := by
  induction ns generalizing length with
  | nil =>
    refine ⟨by simp [trimNodes], ⟨[], rfl⟩, by simp [trimNodes, items, live], le_rfl, fun _ h => ?_⟩
    simp only [items, live, flatMap_nil, filter_nil, length_nil, Nat.sub_zero] at h
    simp [trimNodes, h]
  | cons n ns ih =>
    have hn := hv n (by simp)
    have hcons : (live (items (n :: ns))).length = n.count + (live (items ns)).length := by
      rw [items_cons, live_append, length_append, ← Node.count_eq]
    rw [trimNodes]
    split_ifs with h1 h2 h3
    · exact ⟨hv, ⟨[], rfl⟩, by simp, le_rfl, fun _ _ => by simp [h1]⟩
    · have h := @ih (length - n.count) (forall_mem_cons.mp hv).2 (by omega)
      obtain ⟨ids, hids⟩ := h.ids
      refine ⟨h.nodes, ⟨n.items.map Item.id ++ ids, by rw [items_cons, map_append, hids, append_assoc]⟩,
        ?_, h.le.trans (Nat.sub_le ..), fun ha hm => ?_⟩
      · have hle := h.le
        have hn : (live n.items).length ≤ length - (trimNodes maxlen approx ns (length - n.count)).2 := by
          rw [← Node.count_eq]
          omega
        rw [h.live, items_cons, live_append, drop_append, drop_of_length_le hn, nil_append,
          ← Node.count_eq]
        congr 1
        omega
      · rw [h.exact ha (by omega)]
        omega
    · exact ⟨hv, ⟨[], rfl⟩, by simp, le_rfl, fun ha => by simp [ha] at h3⟩
    · have hmark := live_markDeleted (length - maxlen) n.items
      have hids := markDeleted_ids (length - maxlen) n.items
      refine ⟨?_, ⟨[], ?_⟩, ?_, (by omega : maxlen ≤ length),
        fun _ _ => (by omega : maxlen = min maxlen length)⟩
      · intro m hm
        rcases mem_cons.mp hm with rfl | hm
        · refine ⟨?_, ?_⟩
          · simpa only [← List.head?_map, hids] using hn.key
          · rw [Node.count_eq, hmark, length_drop, ← Node.count_eq]
            omega
        · exact hv m (mem_cons_of_mem _ hm)
      · simp [items_cons, map_append, hids, nil_append]
      · simp only [items_cons, live_append, hmark]
        rw [drop_append_of_le_length]
        rw [← Node.count_eq]
        omega

theorem pairwise_ids : its.Pairwise (fun a b => a.id < b.id) ↔ (its.map Item.id).Pairwise (· < ·) := by
  rw [pairwise_map]

theorem Stream.Valid.trim (hs : s.Valid) (maxlen : ℕ) (approx : Bool) :
      (streamTrimByLength s maxlen approx).1.Valid ∧ live (items (streamTrimByLength s maxlen approx).1.nodes) =
        (live (items s.nodes)).drop (s.length - (streamTrimByLength s maxlen approx).1.length) ∧
      (streamTrimByLength s maxlen approx).1.length ≤ s.length ∧
      (streamTrimByLength s maxlen approx).1.lastId = s.lastId ∧
      (approx = false → (streamTrimByLength s maxlen approx).1.length = min maxlen s.length) := by
  have h := trimNodes_trimmed maxlen approx hs.nodes hs.length.ge
  obtain ⟨ids, hids⟩ := h.ids
  have hsorted := hs.sorted
  rw [pairwise_ids, hids, pairwise_append] at hsorted
  refine ⟨⟨h.nodes, pairwise_ids.mpr hsorted.2.1, fun it hit => ?_, ?_⟩, h.live, h.le, rfl, fun ha => ?_⟩
  · have hmem : it.id ∈ (items s.nodes).map Item.id := by
      rw [hids]
      exact mem_append_right _ (List.mem_map_of_mem hit)
    obtain ⟨it', hit', he⟩ := List.mem_map.mp hmem
    rw [← he]
    exact hs.bounded it' hit'
  · simp only [streamTrimByLength]
    rw [h.live, length_drop, ← hs.length]
    have := h.le
    omega
  · exact h.exact ha (by rw [← hs.length]; omega)

/-! ### Deleting -/

theorem markEntry_id (id : StreamID) (it : Item) : (markEntry id it).id = it.id := by
  rw [markEntry]
  split_ifs <;> rfl

theorem live_markEntry (id : StreamID) (its : List Item) :
    live (its.map (markEntry id)) = (live its).filter (fun it => it.id ≠ id) := by
  induction its with
  | nil => rfl
  | cons it its ih =>
    rw [map_cons]
    by_cases hd : it.deleted
    · have hd' : (markEntry id it).deleted = true := by
        rw [markEntry]
        split_ifs
        · rfl
        · exact hd
      rw [live_cons_deleted hd, live_cons_deleted hd', ih]
    · rw [live_cons (by simpa using hd) its, filter_cons]
      by_cases h : it.id = id
      · rw [live_cons_deleted (by simp [markEntry, h]), ih]
        simp [h]
      · rw [markEntry, if_neg h, live_cons (by simpa using hd), ih]
        simp [h]

theorem any_live_iff : its.any (fun it => it.id = id ∧ !it.deleted) ↔ ∃ it ∈ live its, it.id = id := by
  simp only [List.any_eq_true, decide_eq_true_eq, mem_live]
  constructor
  · rintro ⟨it, hit, hid, hd⟩
    exact ⟨it, ⟨hit, by simpa using hd⟩, hid⟩
  · rintro ⟨it, ⟨hit, hd⟩, hid⟩
    exact ⟨it, hit, hid, by simpa using hd⟩

theorem exists_other (hs : its.Pairwise (fun a b => a.id < b.id)) (h : 2 ≤ its.length) (id : StreamID) :
    ∃ it ∈ its, it.id ≠ id := by
  rcases its with _ | ⟨a, _ | ⟨b, its⟩⟩
  · simp at h
  · simp at h
  · have hab : a.id < b.id := rel_of_pairwise_cons hs (by simp)
    by_cases ha : a.id = id
    · exact ⟨b, by simp, fun hb => hab.ne (ha.trans hb.symm)⟩
    · exact ⟨a, by simp, ha⟩

theorem length_filter_ne (hs : its.Pairwise (fun a b => a.id < b.id)) (h : ∃ it ∈ its, it.id = id) :
    (its.filter (fun it => it.id ≠ id)).length + 1 = its.length := by
  induction its with
  | nil => simp at h
  | cons a its ih =>
    obtain ⟨ha, hs⟩ := pairwise_cons.mp hs
    by_cases hid : a.id = id
    · rw [filter_cons_of_neg (by simp [hid]), filter_eq_self.mpr, length_cons]
      intro b hb
      simpa using fun h => (ha b hb).ne (hid.trans h.symm)
    · obtain ⟨it, hit, h⟩ := h
      have hit : it ∈ its := (mem_cons.mp hit).resolve_left fun he => hid (he ▸ h)
      rw [filter_cons_of_pos (by simpa using hid), length_cons, ih hs ⟨it, hit, h⟩, length_cons]

theorem removeEntry_spec {id : StreamID} {n : Node} (hn : n.Valid) (hs : n.items.Pairwise (fun a b => a.id < b.id)) :
    (∀ m ∈ removeEntry id n, m.Valid) ∧
      ((items (removeEntry id n).toList).map Item.id).Sublist (n.items.map Item.id) ∧
      live (items (removeEntry id n).toList) = (live n.items).filter (fun it => it.id ≠ id) := by
  rw [removeEntry]
  split_ifs with h1 h2
  · obtain ⟨it, hit, hid⟩ := any_live_iff.mp h1
    obtain ⟨a, ha⟩ := length_eq_one_iff.mp (n.count_eq.symm.trans h2)
    obtain rfl : it = a := by simpa [ha] using hit
    exact ⟨by simp, by simp [items], by simp [ha, hid, items, live_nil]⟩
  · have hids : (n.items.map (markEntry id)).map Item.id = n.items.map Item.id := by
      rw [List.map_map]
      exact map_congr_left fun it _ => markEntry_id id it
    refine ⟨?_, ?_, ?_⟩
    · simp only [mem_def, some.injEq, forall_eq']
      refine ⟨?_, ?_⟩
      · rw [← List.head?_map]
        exact (congrArg List.head? hids).trans (List.head?_map.trans hn.key)
      · rw [Node.count_eq]
        rw [live_markEntry]
        obtain ⟨it, hit, hne⟩ :=
          exists_other (live_sorted hs) (by have := hn.count; rw [Node.count_eq] at this h2; omega) id
        exact length_pos_of_mem (mem_filter.mpr ⟨hit, by simpa using hne⟩)
    · simp only [items, toList_some, flatMap_cons, flatMap_nil, append_nil]
      exact hids ▸ List.Sublist.refl _
    · simpa [items] using live_markEntry id n.items
  · refine ⟨by simpa using hn, by simp [items], ?_⟩
    rw [filter_eq_self.mpr]
    · simp [items]
    · intro it hit
      have : ¬ ∃ it ∈ live n.items, it.id = id := fun h => h1 (any_live_iff.mpr h)
      simpa using fun hid => this ⟨it, hit, hid⟩

theorem items_filterMap (f : Node → Option Node) (ns : List Node) :
    items (ns.filterMap f) = ns.flatMap (fun n => items (f n).toList) := by
  induction ns with
  | nil => rfl
  | cons n ns ih =>
    rw [flatMap_cons, ← ih, filterMap_cons]
    rcases f n with _ | m
    · simp [items]
    · simp [items]

theorem removeEntries_spec (id : StreamID) (hv : ∀ n ∈ ns, n.Valid)
    (hs : (items ns).Pairwise (fun a b => a.id < b.id)) : (∀ m ∈ ns.filterMap (removeEntry id), m.Valid) ∧
      ((items (ns.filterMap (removeEntry id))).map Item.id).Sublist ((items ns).map Item.id) ∧
      live (items (ns.filterMap (removeEntry id))) = (live (items ns)).filter (fun it => it.id ≠ id) := by
  refine ⟨fun m hm => ?_, ?_⟩
  · obtain ⟨n, hn, hm⟩ := mem_filterMap.mp hm
    exact (removeEntry_spec (hv n hn) ((pairwise_flatMap.mp hs).1 n hn)).1 m hm
  · rw [items_filterMap]
    induction ns with
    | nil => simp [items, live]
    | cons n ns ih =>
      rw [items_cons, pairwise_append] at hs
      obtain ⟨-, hsub, hlive⟩ := @removeEntry_spec id n (hv n (by simp)) hs.1
      obtain ⟨hsub', hlive'⟩ := ih (forall_mem_cons.mp hv).2 hs.2.1
      rw [flatMap_cons, items_cons, map_append, map_append, live_append, live_append, filter_append,
        hlive, hlive']
      exact ⟨hsub.append hsub', rfl⟩

theorem Stream.Valid.delete (hs : s.Valid) (id : StreamID) : (streamDeleteItem s id).1.Valid ∧
      live (items (streamDeleteItem s id).1.nodes) = (live (items s.nodes)).filter (fun it => it.id ≠ id) ∧
      (streamDeleteItem s id).1.lastId = s.lastId ∧
      ((streamDeleteItem s id).2 = true ↔ ∃ it ∈ live (items s.nodes), it.id = id) := by
  have hmem : streamRange s id id = [] ↔ ¬ ∃ it ∈ live (items s.nodes), it.id = id := by
    rw [eq_nil_iff_forall_not_mem]
    simp only [hs.mem_range, not_exists, not_and]
    exact ⟨fun h it hit hid => h it hit hid.ge hid.le, fun h it hit hge hle => h it hit (le_antisymm hle hge)⟩
  rw [streamDeleteItem]
  split_ifs with h
  · refine ⟨hs, ?_, rfl, by simpa using hmem.mp h⟩
    symm
    rw [filter_eq_self]
    intro it hit
    simpa using fun hid => hmem.mp h ⟨it, hit, hid⟩
  · obtain ⟨hv, hsub, hlive⟩ := removeEntries_spec id hs.nodes hs.sorted
    have hex : ∃ it ∈ live (items s.nodes), it.id = id := not_not.mp fun hn => h (hmem.mpr hn)
    refine ⟨⟨hv, ?_, ?_, ?_⟩, hlive, rfl, by simpa using hex⟩
    · rw [pairwise_ids]
      exact (pairwise_ids.mp hs.sorted).sublist hsub
    · intro it hit
      obtain ⟨it', hit', he⟩ := List.mem_map.mp (hsub.subset (List.mem_map_of_mem hit))
      exact he ▸ hs.bounded it' hit'
    · have := length_filter_ne (live_sorted hs.sorted) hex
      simp only [hs.length, hlive]
      omega

end RedisIR.Streams
