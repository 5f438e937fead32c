import RedisIR.Proofs.Restorer

/-! A server that recovers while it runs, against one that was fully loaded before its
first command. The two databases differ exactly at the keys the loader has still to
bring in, as long as no step makes a key come back that was brought in and deleted. The values are
the same if the counters fit into their blocks; otherwise the same keys exist. -/

namespace RedisIR

open CLib Option Function Server

variable {k b : Bytes} {c : Cmd}

/-- A key on both sides or on none, and the same value if `p`. -/
def Same (p : Prop) (x y : Option Bytes) : Prop := (x = none ↔ y = none) ∧ (p → x = y)

theorem Same.refl (p : Prop) (x : Option Bytes) : Same p x x := ⟨Iff.rfl, fun _ => rfl⟩

theorem Same.trans {p : Prop} {x y z : Option Bytes} (h : Same p x y) (h' : Same p y z) : Same p x z :=
  ⟨h.1.trans h'.1, fun hp => (h.2 hp).trans (h'.2 hp)⟩

theorem same_some {p : Prop} {v w : Bytes} : Same p (some v) (some w) ↔ (p → v = w) := by
  simp [Same]

/-- What the incremental loader makes of the records of `k`. -/
def Allocator.view (m : Allocator) (idx : IndexedLog) (k : CStr) : Option Bytes :=
  if idx.get k = [] then none else some (m.loaderValue (idx.get k))

/-- Nothing has restored `k`, and the loader will. -/
def Server.awaits (s : Server) (k : CStr) : Prop := k ∉ s.restored ∧ (s.ahead k ∨ s.holds k)

instance (s : Server) (k : CStr) : Decidable (s.awaits k) := inferInstanceAs (Decidable (_ ∧ _))

/-- What the loader will put at the database key `b` if it stays absent until then. -/
def Server.expects (idx : IndexedLog) (s : Server) (b : Bytes) : Option Bytes :=
  if (cstr b).val = b ∧ s.awaits (cstr b) then s.allocator.view idx (cstr b) else none

/-- `t` is the database with all that is still expected. -/
def Agrees (p : Prop) (idx : IndexedLog) (s : Server) (t : Db) : Prop :=
  ∀ b, Same p (t b) ((s.db b).or (s.expects idx b))

structure LoaderInv (idx : IndexedLog) (s : Server) : Prop where
  cursor : ∃ ks : List CStr, ks.Nodup ∧ (∀ k ∈ ks, idx.get k ≠ []) ∧ s.loader.rest = idx.scan ks
  value : s.loader.pc = .send → s.allocator.view idx s.loader.keyIR = some s.loader.valueIR.text
  held : ∀ k, s.holds k → k ∈ s.restored → s.db k.val ≠ none
  passed : s.loader.pc = .send ∨ s.loader.pc = .mark → ¬ s.ahead s.loader.keyIR
  ended : s.loader.pc = .clear ∨ s.loader.pc = .lower ∨ s.loader.pc = .done → s.loader.rest = []
  flag : s.performing = false → s.loader.pc = .start ∨ s.loader.pc = .done

/-- The recovering server `s` stands for the fully loaded database `t`. -/
structure Sim (p : Prop) (idx : IndexedLog) (s : Server) (t : Db) : Prop where
  agrees : Agrees p idx s t
  inv : LoaderInv idx s

section

variable {p : Prop} {idx : IndexedLog} {s s' : Server} {t : Db} {m : Allocator}

theorem view_eq_none {k : CStr} (h : idx.get k = []) : m.view idx k = none := if_pos h

theorem view_eq_some {k : CStr} (h : idx.get k ≠ []) : m.view idx k = some (m.loaderValue (idx.get k)) := if_neg h

/-- With room for the counters it is the value that the records stand for. -/
theorem view_of_fits {k : CStr} (h : TextsFit m.usable (idx.get k)) : m.view idx k = view idx k := by
  rw [Allocator.view, view, foldedValue, loaderValue_eq h]

theorem Agrees.congr (h : Agrees p idx s t) (hm : s'.allocator = s.allocator) (hdb : s'.db = s.db)
    (haw : ∀ k, s'.awaits k ↔ s.awaits k) : Agrees p idx s' t := by
  intro b
  have hb := h b
  simpa [expects, haw, hm, hdb] using hb

theorem Agrees.eq_of_not_awaits (h : Agrees p idx s t) (hb : (cstr b).val ≠ b ∨ ¬ s.awaits (cstr b)) :
    Same p (t b) (s.db b) := by
  have hb' := h b
  rwa [expects, if_neg (by tauto), or_none] at hb'

theorem Agrees.eq_of_here (h : Agrees p idx s t) (hb : s.db b ≠ none) : Same p (t b) (s.db b) := by
  obtain ⟨v, hv⟩ := ne_none_iff_exists'.mp hb
  have hb' := h b
  rwa [hv, some_or, ← hv] at hb'

theorem Agrees.eq_view (h : Agrees p idx s t) {k : CStr} (hdb : s.db k.val = none) (haw : s.awaits k) :
    Same p (t k.val) (s.allocator.view idx k) := by
  have hk := h k.val
  rwa [hdb, none_or, expects, cstr_val, if_pos ⟨rfl, haw⟩] at hk

theorem LoaderInv.get_ne_nil (h : LoaderInv idx s) {k : CStr} (hk : s.ahead k) : idx.get k ≠ [] := by
  obtain ⟨ks, -, hks, hrest⟩ := h.cursor
  rw [ahead, hrest, mem_keys_scan hks] at hk
  exact hks k hk

theorem LoaderInv.indexed (h : LoaderInv idx s) {k : CStr} (hk : s.awaits k) : idx.get k ≠ [] := by
  rcases hk.2 with hahead | ⟨hpc, rfl⟩
  · exact h.get_ne_nil hahead
  · intro hnil
    have := h.value hpc
    rw [view_eq_none hnil] at this
    cases this

/-! ### Bringing a key in -/

theorem setIRCommand_here (k v : Bytes) (db : Db) : (setIRCommand k v db).db k ≠ none := by
  rw [setIRCommand_db]
  split_ifs with h
  · simp
  · exact h

theorem setIRCommand_ne (k v : Bytes) (db : Db) (hb : b ≠ k) : (setIRCommand k v db).db b = db b := by
  rw [setIRCommand_db]
  split_ifs
  · rw [update_of_ne hb]
  · rfl

/-- A `setIR` of an awaited key, or of a key that is in memory anyway, changes nothing
that a fully loaded server would notice. -/
theorem Agrees.bring (h : Agrees p idx s t) {k : CStr} {v : Bytes}
    (hv : Same p (s.allocator.view idx k) (some v)) (hok : s.db k.val ≠ none ∨ s.awaits k)
    (hm : s'.allocator = s.allocator) (hdb : s'.db = (setIRCommand k.val v s.db).db)
    (haw : ∀ j, j ≠ k → (s'.awaits j ↔ s.awaits j)) : Agrees p idx s' t := by
  intro b
  by_cases hb : b = k.val
  · subst hb
    rw [hdb, setIRCommand_db]
    split_ifs with hnone
    · rw [update_self, some_or]
      exact (h.eq_view hnone (hok.resolve_left (not_not.mpr hnone))).trans hv
    · have hhere := h.eq_of_here hnone
      obtain ⟨w, hw⟩ := ne_none_iff_exists'.mp hnone
      rwa [hw, some_or, ← hw]
  · have hexpects : s'.expects idx b = s.expects idx b := by
      unfold expects
      by_cases hc : (cstr b).val = b
      · have hne : cstr b ≠ k := by
          rintro rfl
          exact hb hc.symm
        simp [haw _ hne, hm]
      · rw [if_neg (by tauto), if_neg (by tauto)]
    rw [hdb, setIRCommand_ne _ _ _ hb, hexpects]
    exact h b

/-! ### Loader steps -/

theorem Sim.scan_nil (h : Sim p idx s t) (hpc : s.loader.pc = .scan) (hrest : s.loader.rest = []) :
    Sim p idx (loaderStep idx s) t := by
  obtain ⟨hag, hinv⟩ := h
  rw [loaderStep_scan_nil hpc hrest]
  refine ⟨hag.congr rfl rfl fun k => ?_, ⟨hinv.cursor, ?_, ?_, ?_, fun _ => hrest, fun hp => ?_⟩⟩
  · simp [awaits, ahead, holds, hpc]
  · simp
  · simp [holds]
  · simp
  · simpa [hpc] using hinv.flag hp

theorem Sim.scan_cons (hidx : Redoable idx) (h : Sim p idx s t) (hpc : s.loader.pc = .scan) {k : CStr}
    {ks : List CStr} (hnodup : (k :: ks).Nodup) (hks : ∀ j ∈ k :: ks, idx.get j ≠ [])
    (hrest : s.loader.rest = idx.scan (k :: ks)) : Sim p idx (loaderStep idx s) t := by
  obtain ⟨hag, hinv⟩ := h
  have hk := hks k (by simp)
  have hks' : ∀ j ∈ ks, idx.get j ≠ [] := (List.forall_mem_cons.mp hks).2
  have hnodup' := List.nodup_cons.mp hnodup
  have hout : k ∉ (idx.scan ks).map Prod.fst := by
    rw [mem_keys_scan hks']
    exact hnodup'.1
  have hkeys : ∀ j, j ∈ s.loader.rest.map Prod.fst ↔ j = k ∨ j ∈ (idx.scan ks).map Prod.fst := by
    intro j
    rw [hrest, mem_keys_scan hks, mem_keys_scan hks', List.mem_cons]
  have hflag : s.performing = false → False := fun hp => by simpa [hpc] using hinv.flag hp
  by_cases hres : k ∈ s.restored
  · rw [loaderStep_scan_skip hrest hk hout hpc hres]
    refine ⟨hag.congr rfl rfl fun j => ?_,
      ⟨⟨ks, hnodup'.2, hks', rfl⟩, ?_, ?_, ?_, ?_, fun hp => (hflag hp).elim⟩⟩
    · simp only [awaits, ahead, holds, hpc, reduceCtorEq, false_and, or_false, hkeys]
      refine ⟨?_, ?_⟩
      · exact fun hj => ⟨hj.1, Or.inr hj.2⟩
      · rintro ⟨h1, rfl | h2⟩
        · exact absurd hres h1
        · exact ⟨h1, h2⟩
    all_goals simp [holds, hpc]
  · rw [loaderStep_scan_read (hrest.trans (RedisIR.scan_cons idx k ks)) hk hout hpc (redoable_get hidx k) hres]
    refine ⟨hag.congr rfl rfl fun j => ?_,
      ⟨⟨ks, hnodup'.2, hks', rfl⟩, fun _ => view_eq_some hk, ?_, fun _ => hout, ?_,
      fun hp => (hflag hp).elim⟩⟩
    · simp only [awaits, ahead, holds, hpc, reduceCtorEq, false_and, or_false, true_and, hkeys]
      rw [or_comm, eq_comm]
    · rintro j ⟨-, rfl⟩ hj
      exact absurd hj hres
    · simp

theorem Sim.loader (hidx : Redoable idx) (h : Sim p idx s t) : Sim p idx (loaderStep idx s) t := by
  have ⟨hag, hinv⟩ := h
  cases hpc : s.loader.pc with
  | start =>
    rw [loaderStep_start hpc]
    refine ⟨hag.congr rfl rfl fun k => ?_, ⟨hinv.cursor, ?_, ?_, ?_, ?_, ?_⟩⟩
    · simp [awaits, ahead, holds, hpc]
    all_goals simp [holds]
  | scan =>
    obtain ⟨ks, hnodup, hks, hrest⟩ := hinv.cursor
    cases ks with
    | nil => exact h.scan_nil hpc hrest
    | cons k ks => exact h.scan_cons hidx hpc hnodup hks hrest
  | send =>
    rw [loaderStep_send hpc]
    have hv := hinv.value hpc
    refine ⟨hag.bring (hv ▸ .refl _ _) ?_ rfl rfl fun j hj => ?_,
      ⟨hinv.cursor, ?_, ?_, fun _ => hinv.passed (.inl hpc), ?_, fun hp => ?_⟩⟩
    · -- held but restored on demand in the meantime: then it is in memory
      by_cases hres : s.loader.keyIR ∈ s.restored
      · exact .inl (hinv.held _ ⟨hpc, rfl⟩ hres)
      · exact .inr ⟨hres, .inr ⟨hpc, rfl⟩⟩
    · simp [awaits, ahead, holds, Ne.symm hj]
    · simp
    · simp [holds]
    · simp
    · simpa [hpc] using hinv.flag hp
  | mark =>
    rw [loaderStep_mark hpc]
    have hpassed := hinv.passed (.inr hpc)
    refine ⟨hag.congr rfl rfl fun k => ?_, ⟨hinv.cursor, ?_, ?_, ?_, ?_, fun hp => ?_⟩⟩
    · simp only [awaits, ahead, holds, hpc, reduceCtorEq, false_and, or_false,
        List.mem_cons, not_or]
      refine ⟨?_, ?_⟩
      · exact fun ⟨⟨_, h1⟩, h2⟩ => ⟨h1, h2⟩
      · rintro ⟨h1, h2⟩
        refine ⟨⟨?_, h1⟩, h2⟩
        rintro rfl
        exact hpassed h2
    · simp
    · simp [holds]
    · simp
    · simp
    · simpa [hpc] using hinv.flag hp
  | clear =>
    rw [loaderStep_clear hpc]
    have hrest := hinv.ended (.inl hpc)
    refine ⟨hag.congr rfl rfl fun k => ?_, ⟨hinv.cursor, ?_, ?_, ?_, fun _ => hrest, fun hp => ?_⟩⟩
    · simp [awaits, ahead, holds, hpc, hrest]
    · simp
    · simp
    · simp
    · simpa [hpc] using hinv.flag hp
  | lower =>
    rw [loaderStep_lower hpc]
    have hrest := hinv.ended (.inr (.inl hpc))
    refine ⟨hag.congr rfl rfl fun k => ?_, ⟨hinv.cursor, ?_, ?_, ?_, fun _ => hrest, fun _ => .inr rfl⟩⟩
    · simp [awaits, ahead, holds, hpc, hrest]
    · simp
    · simp [holds]
    · simp
  | done =>
    rw [loaderStep_done hpc]
    exact ⟨hag, hinv⟩

/-! ### Client commands -/

theorem Sim.load (h : Sim p idx s t) (hp : p → Roomy s.allocator.usable idx) {k : CStr} (hnot : k ∉ s.restored)
    (hok : idx.get k ≠ [] → s.db k.val = none → s.ahead k ∨ s.holds k) :
    Sim p idx (loadRecordFromIndexedLog idx k s).1 t := by
  have ⟨hag, hinv⟩ := h
  have haw : ∀ s' : Server, s'.loader = s.loader → s'.restored = k :: s.restored → ∀ j, j ≠ k →
      (s'.awaits j ↔ s.awaits j) := by
    intro s' hl hr j hj
    simp [awaits, ahead, holds, hl, hr, hj]
  unfold loadRecordFromIndexedLog
  split_ifs with hget
  · refine ⟨hag.congr rfl rfl fun j => ?_, ⟨hinv.cursor, hinv.value, ?_, hinv.passed, hinv.ended, hinv.flag⟩⟩
    · by_cases hj : j = k
      · subst hj
        refine iff_of_false (fun haw => haw.1 (by simp [addRestoredTuple])) (fun haw => hinv.indexed haw hget)
      · exact haw (addRestoredTuple s k) rfl rfl j hj
    · intro j hj hmem
      rcases List.mem_cons.mp hmem with rfl | hmem
      · exact absurd hget (hinv.indexed ⟨hnot, .inr hj⟩)
      · exact hinv.held j hj hmem
  · have hv : Same p (s.allocator.view idx k) (some (s.allocator.onDemandValue (idx.get k))) := by
      rw [view_eq_some hget, same_some]
      exact fun h => by rw [loaderValue_eq ((hp h).get k), onDemandValue_eq ((hp h).get k)]
    refine ⟨hag.bring hv ?_ rfl rfl (haw _ rfl rfl),
      ⟨hinv.cursor, hinv.value, ?_, hinv.passed, hinv.ended, hinv.flag⟩⟩
    · by_cases hhere : s.db k.val = none
      · exact .inr ⟨hnot, hok hget hhere⟩
      · exact .inl hhere
    · intro j hj hmem
      by_cases hjk : j = k
      · subst hjk
        exact setIRCommand_here _ _ _
      · have hmem' := (List.mem_cons.mp hmem).resolve_left hjk
        have hne : j.val ≠ k.val := fun he => hjk (CStr.ext he)
        simpa [addRestoredTuple, setIRCommand_ne _ _ _ hne] using hinv.held j hj hmem'

theorem restored_load (idx : IndexedLog) (k : CStr) (s : Server) :
    k ∈ (loadRecordFromIndexedLog idx k s).1.restored := by
  unfold loadRecordFromIndexedLog
  split_ifs <;> simp [addRestoredTuple]

/-- Before its command is executed, a key that `call` restores has its final value in memory. -/
theorem Sim.restore (h : Sim p idx s t) (hp : p → Roomy s.allocator.usable idx) (hc : c.onDemand = some k)
    (hload : LoadSafe idx s (cstr k)) : Sim p idx (restoreOnDemand idx c s).1 t ∧
      (s.performing = true → Same p (t k) ((restoreOnDemand idx c s).1.db k)) := by
  have hsettled : ∀ s' : Server, Sim p idx s' t → cstr k ∈ s'.restored → Same p (t k) (s'.db k) := by
    intro s' h' hmem
    exact h'.agrees.eq_of_not_awaits (.inr fun haw => haw.1 hmem)
  simp only [restoreOnDemand, hc, isRestoredTuple, decide_eq_true_eq]
  split_ifs with hcond
  · have h' := h.load hp hcond.2 (hload hcond.1 hcond.2)
    exact ⟨h', fun _ => hsettled _ h' (restored_load idx _ s)⟩
  · refine ⟨h, fun hp => hsettled s h ?_⟩
    by_contra hnot
    exact hcond ⟨hp, hnot⟩

theorem Sim.update (h : Sim p idx s t) (k : Bytes) {x y : Option Bytes} (hxy : Same p y x)
    (hx : x ≠ none ∨ (cstr k).val ≠ k ∨ (¬ s.awaits (cstr k) ∧ ¬ s.holds (cstr k))) :
    Sim p idx { s with db := update s.db k x } (update t k y) := by
  obtain ⟨hag, hinv⟩ := h
  refine ⟨fun b => ?_, ⟨hinv.cursor, hinv.value, ?_, hinv.passed, hinv.ended, hinv.flag⟩⟩
  · by_cases hb : b = k
    · subst hb
      simp only [update_self]
      cases x with
      | some v => exact hxy
      | none =>
        have hno : ¬ ((cstr b).val = b ∧ s.awaits (cstr b)) := by tauto
        have hnone : s.expects idx b = none := if_neg hno
        change Same p y (s.expects idx b)
        rwa [hnone]
    · simp only [update_of_ne hb]
      exact hag b
  · intro j hj hmem
    by_cases hjk : j.val = k
    · subst hjk
      rw [cstr_val] at hx
      rcases hx with hx | hx | ⟨-, hx⟩
      · simpa using hx
      · exact absurd rfl hx
      · exact absurd hj hx
    · simpa [update_of_ne hjk] using hinv.held j hj hmem

theorem incrValue_ne_none (x : Option Bytes) : incrValue x ≠ none := by
  unfold incrValue
  cases x with
  | none => simp [getLongLongFromObject, LLONG_MAX]
  | some v =>
    split
    · simp
    · split_ifs <;> simp

theorem Same.incr {p : Prop} {x y : Option Bytes} (h : Same p x y) : Same p (incrValue x) (incrValue y) :=
  ⟨iff_of_false (incrValue_ne_none x) (incrValue_ne_none y), fun hp => by rw [h.2 hp]⟩

/-- Two replies say that a key is absent, or none of them does; they are the same if `p`. -/
def SameReply (p : Prop) (r r' : Reply) : Prop := (r = .nullBulk ↔ r' = .nullBulk) ∧ (p → r = r')

theorem SameReply.of_eq {p : Prop} {r r' : Reply} (h : r = r') : SameReply p r r' := by
  subst h
  exact ⟨Iff.rfl, fun _ => rfl⟩

theorem incrCommand_ne_null (k : Bytes) (db : Db) : (incrCommand k db).reply ≠ .nullBulk := by
  unfold incrCommand incrDecrCommand
  cases getLongLongFromObject (db k) with
  | none => simp
  | some n =>
    dsimp only
    split_ifs <;> simp

theorem incrCommand_reply {db db' : Db} (h : db k = db' k) : (incrCommand k db).reply = (incrCommand k db').reply := by
  unfold incrCommand incrDecrCommand
  rw [h]
  cases getLongLongFromObject (db' k) with
  | none => rfl
  | some n =>
    dsimp only
    split_ifs <;> rfl

/-- The command itself, once the two sides agree at its key. `SET` does not look at it. -/
theorem Sim.proc (h : Sim p idx s t) (hc : c.onDemand = some k)
    (hk : Same p (t k) (s.db k) ∨ ∃ v, c = .set k v) :
    Sim p idx { s with db := (c.proc s.db).db } (c.proc t).db ∧
      SameReply p (c.proc s.db).reply (c.proc t).reply := by
  cases c with
  | set k' v => exact ⟨h.update k' (.refl _ (some v)) (.inl (by simp)), .of_eq rfl⟩
  | get k' =>
    obtain rfl : k' = k := by simpa [Cmd.onDemand] using hc
    have hk' : Same p (t k') (s.db k') := hk.resolve_right (by rintro ⟨v, hv⟩; cases hv)
    have hdb : ∀ db, (getCommand k' db).db = db := by
      intro db
      unfold getCommand
      split <;> rfl
    have hnull : ∀ db, (getCommand k' db).reply = .nullBulk ↔ db k' = none := by
      intro db
      unfold getCommand
      cases db k' <;> simp
    refine ⟨by simpa only [Cmd.proc, hdb] using h, ?_, fun hroom => ?_⟩
    · exact (hnull s.db).trans (hk'.1.symm.trans (hnull t).symm)
    · simp only [Cmd.proc, getCommand, hk'.2 hroom]
      split <;> rfl
  | incr k' =>
    obtain rfl : k' = k := by simpa [Cmd.onDemand] using hc
    have hk' : Same p (t k') (s.db k') := hk.resolve_right (by rintro ⟨v, hv⟩; cases hv)
    refine ⟨?_, iff_of_false (incrCommand_ne_null _ _) (incrCommand_ne_null _ _),
      fun hroom => incrCommand_reply (hk'.2 hroom).symm⟩
    simp only [Cmd.proc, incrCommand_db]
    exact h.update k' hk'.incr (.inl (incrValue_ne_none _))
  | _ => simp [Cmd.onDemand] at hc

theorem delCommand_reply {db db' : Db} (h : db k = none ↔ db' k = none) :
    (delCommand [k] db).reply = (delCommand [k] db').reply := by
  have hsome : (db k).isSome = (db' k).isSome := by
    rw [Bool.eq_iff_iff, isSome_iff_ne_none, isSome_iff_ne_none]
    exact not_congr h
  unfold delCommand delLoop
  rw [hsome]
  cases (db' k).isSome <;> rfl

theorem Sim.del (h : Sim p idx s t) (hk : (cstr k).val ≠ k ∨ (¬ s.awaits (cstr k) ∧ ¬ s.holds (cstr k))) :
    Sim p idx { s with db := (delCommand [k] s.db).db } (delCommand [k] t).db ∧
      (delCommand [k] s.db).reply = (delCommand [k] t).reply := by
  have heq : Same p (t k) (s.db k) := h.agrees.eq_of_not_awaits (hk.imp_right And.left)
  rw [delCommand_db, delCommand_db]
  exact ⟨h.update k (.refl _ none) (.inr hk), delCommand_reply heq.1.symm⟩

theorem Sim.client (h : Sim p idx s t) (hp : p → Roomy s.allocator.usable idx) (hc : c.onDemand = some k)
    (hload : LoadSafe idx s (cstr k)) (hgate : (∃ v, c = .set k v) ∨ GateSafe idx s k) :
    Sim p idx (call idx c s).server (c.proc t).db ∧
      SameReply p (call idx c s).reply (c.proc t).reply := by
  obtain ⟨h', hagree⟩ := h.restore hp hc hload
  refine h'.proc hc ?_
  by_cases hp : s.performing = true
  · exact .inl (hagree hp)
  · -- without the flag nothing is restored, and the key had better be settled already
    have hp' : s.performing = false := by simpa using hp
    have hsame : (restoreOnDemand idx c s).1 = s := by simp [restoreOnDemand, hc, hp']
    rw [hsame]
    refine hgate.symm.imp_left fun hgate => ?_
    by_cases hdb : s.db k = none
    · apply h.agrees.eq_of_not_awaits
      by_cases hval : (cstr k).val = k
      · refine .inr fun haw => ?_
        rcases h.inv.flag hp' with hpc | hpc
        · exact hgate ⟨hval, h.inv.indexed haw⟩ hdb hpc
        · rcases haw.2 with hahead | ⟨hpc', -⟩
          · simp [ahead, h.inv.ended (.inr (.inr hpc))] at hahead
          · rw [hpc] at hpc'
            cases hpc'
      · exact .inl hval
    · exact h.agrees.eq_of_here hdb

theorem Sim.client_del (h : Sim p idx s t) (hdel : DelSafe idx s k) :
    Sim p idx (call idx (.del [k]) s).server (delCommand [k] t).db ∧
      (call idx (.del [k]) s).reply = (delCommand [k] t).reply := by
  refine h.del ?_
  by_cases hval : (cstr k).val = k
  · refine .inr ?_
    by_cases hget : idx.get (cstr k) = []
    · refine ⟨fun haw => h.inv.indexed haw hget, fun hheld => ?_⟩
      have := h.inv.value hheld.1
      rw [hheld.2, view_eq_none hget] at this
      cases this
    · obtain ⟨hheld, hset⟩ := hdel ⟨hval, hget⟩
      exact ⟨fun haw => haw.2.elim (fun ha => hset.elim haw.1 fun hna => hna ha) hheld, hheld⟩
  · exact .inl hval

end

end RedisIR
