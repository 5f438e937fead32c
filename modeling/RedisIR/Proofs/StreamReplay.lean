import RedisIR.Proofs.StreamCommands

/-! The commands that a stream propagates rebuild it on a copy, as far as a user can tell. -/

namespace RedisIR.Streams

open CLib ByteOrder List Function GroupView StreamView Option

variable {g : GroupView}
variable {now : ℕ} {name group : Bytes} {minidle : ℤ} {opts : ClaimOptions} {clock : ℕ → ℕ} {noack : Bool}
  {rs : List Timed} {ids : List StreamID}

/-- The time that a command sets is not in the future of the clock that it is run with. -/
def Timed.NotBehind (r : Timed) : Prop :=
  match r.command with
  | .xclaim _ _ _ _ ⟨.time ms, _, _, _, _⟩ => ms ≤ r.clock 0
  | _ => True

/-- The delivery count that a command sets was printed without a sign. -/
def Command.CountFits : Command → Prop
  | .xclaim _ _ _ _ opts => 0 ≤ opts.retrycount
  | _ => True

namespace GroupView

variable (g : GroupView)

variable (id : StreamID)

theorem lastId_set (p : Option Pending) : (g.set id p).lastId = g.lastId := rfl

theorem advance_of_not_lt {id : StreamID} (h : ¬ g.lastId < id) : g.advance id = g := if_neg h

theorem pel_advance : (g.advance id).pel = g.pel := by
  rw [advance]
  split_ifs <;> rfl

theorem lastId_advance : { g with lastId := (g.advance id).lastId } = g.advance id := by
  rw [advance]
  split_ifs <;> rfl

theorem advance_lastId_advance : g.advance (g.advance id).lastId = g.advance id := by
  by_cases h : g.lastId < id
  · have he : (g.advance id).lastId = id := by simp [advance, h]
    rw [he]
  · rw [g.advance_of_not_lt h, g.advance_of_not_lt (lt_irrefl _)]

end GroupView

theorem claimTime_nonneg (o : DeliveryOption) (now : ℕ) : 0 ≤ claimTime o now := by
  simp only [claimTime]
  split_ifs <;> omega

theorem claimTime_time {t : ℤ} (h0 : 0 ≤ t) (h : t ≤ now) : claimTime (.time t) now = t := by
  simp only [claimTime]
  rw [if_pos (by omega), if_neg (by omega)]

theorem claimedAs_some {b : Bool} {o : Option Pending} {p : Pending}
    (h : claimedAs b name minidle opts now o = some p) : 0 ≤ p.deliveryTime ∧ (o ≠ none ∨ b) := by
  rcases o with _ | q
  · simp only [claimedAs] at h
    split_ifs at h with hb
    cases h
    exact ⟨claimTime_nonneg _ _, .inr hb.2⟩
  · simp only [claimedAs] at h
    split_ifs at h
    cases h
    exact ⟨claimTime_nonneg _ _, .inl (by simp)⟩

namespace StreamView

variable (v : StreamView)

/-- The view with `g` as a group. -/
def withGroup (group : Bytes) (g : GroupView) : StreamView :=
  { v with groups := update v.groups group (some g) }

def replay (v : StreamView) (rs : List Timed) : StreamView := rs.foldl (fun v r => (v.exec r.clock r.command).1) v

theorem replay_cons (r : Timed) (rs : List Timed) : v.replay (r :: rs) = (v.exec r.clock r.command).1.replay rs := rfl

theorem replay_append (rs rs' : List Timed) : v.replay (rs ++ rs') = (v.replay rs).replay rs' := foldl_append

theorem withGroup_self (hg : v.groups group = some g) : v.withGroup group g = v := by
  rw [withGroup, ← hg, update_eq_self]

theorem onGroup_withGroup (group : Bytes) (g : GroupView) (f : GroupView → GroupView × List Command) :
    ((v.withGroup group g).onGroup group f).1 = v.withGroup group (f g).1 := by
  simp [onGroup, withGroup]

theorem replay_setid (group : Bytes) (g : GroupView) (id : StreamID) (clock : ℕ → ℕ) :
    ((v.withGroup group g).exec clock (.xgroupSetid group (some id))).1 =
      v.withGroup group { g with lastId := id } := by
  rw [exec, onGroup_withGroup]
  rfl

theorem replay_xclaim (g' : GroupView) {id : StreamID} {p : Pending}
    (hin : g.pel id ≠ none ∨ v.has id) (h0 : 0 ≤ p.deliveryTime) (ht : p.deliveryTime ≤ clock 0)
    (hc : 0 ≤ p.deliveryCount.toInt) : ((v.withGroup group g).exec clock (g'.xclaim group id p)).1 =
      v.withGroup group ((g.advance g'.lastId).set id (some p)) := by
  have hcount : ∀ k o, claimCount ⟨o, p.deliveryCount.toInt, true, true, g'.lastId⟩ k = p.deliveryCount :=
    fun k o => by
    simp [claimCount, hc]
  have hclaimed : claimedAs (v.has id) p.owner 0 ⟨.time p.deliveryTime, p.deliveryCount.toInt, true, true,
      g'.lastId⟩ (clock 0) ((g.advance g'.lastId).pel id) = some p := by
    rw [pel_advance]
    rcases hp : g.pel id with _ | q
    · simp [claimedAs, hcount, claimTime_time h0 ht, hin.resolve_left (fun h => h hp)]
    · simp [claimedAs, hcount, claimTime_time h0 ht]
  have hhas : (v.withGroup group g).has = v.has := rfl
  rw [GroupView.xclaim, exec, onGroup_withGroup]
  simp [claim, GroupView.claim, hhas, max_self, hclaimed]

theorem replay_deliver {its : List Item} (hits : ∀ it ∈ its, v.has it.id) (g : GroupView)
    (clock : ℕ → ℕ) (b : Bool)
    (hrs : rs.map Timed.command = (g.deliver group noack name its clock b).2) (hclock : ∀ r ∈ rs, r.NotBehind) :
    (v.withGroup group g).replay rs = v.withGroup group (g.deliver group noack name its clock b).1 := by
  induction its generalizing g clock b rs with
  | nil =>
    obtain rfl := map_eq_nil_iff.mp hrs
    rfl
  | cons it its ih =>
    have hits' : ∀ it ∈ its, v.has it.id := (forall_mem_cons.mp hits).2
    cases noack with
    | true =>
      simp only [GroupView.deliver, if_true] at hrs ⊢
      by_cases hb : (b || decide (g.lastId < it.id)) = true
      · rw [hb, if_pos rfl, singleton_append] at hrs
        obtain ⟨r, rs, rfl, hr, hrs⟩ := map_eq_cons_iff.mp hrs
        rw [replay_cons, hr, replay_setid, lastId_advance, hb]
        exact ih hits' _ _ _ hrs (forall_mem_cons.mp hclock).2
      · have hlt : ¬ g.lastId < it.id := fun h => hb (by simp [h])
        rw [if_neg hb, nil_append] at hrs
        rw [g.advance_of_not_lt hlt] at hrs ⊢
        exact ih hits' _ _ _ hrs hclock
    | false =>
      simp only [GroupView.deliver, Bool.false_eq_true, if_false] at hrs ⊢
      obtain ⟨r, rs, rfl, hr, hrs⟩ := map_eq_cons_iff.mp hrs
      have ht : (clock 0 : ℤ) ≤ r.clock 0 := by
        have := hclock r (by simp)
        rwa [Timed.NotBehind, hr] at this
      rw [replay_cons, hr, replay_xclaim v _ (.inr (hits it (by simp))) (Int.natCast_nonneg _) ht
          (show (0 : ℤ) ≤ (1 : BitVec 64).toInt by decide),
        lastId_set, g.advance_lastId_advance]
      exact ih hits' _ _ _ hrs (forall_mem_cons.mp hclock).2

theorem replay_claim (ids : List StreamID) {g₀ : GroupView} (hadv : g₀.advance g.lastId = g)
    (hrs : rs.map Timed.command = (g.claim v.has group name minidle opts now ids).2)
    (hclock : ∀ r ∈ rs, r.NotBehind)
    (hcount : ∀ r ∈ rs, r.command.CountFits) :
    (rs = [] → (g.claim v.has group name minidle opts now ids).1 = g) ∧
      (rs ≠ [] → (v.withGroup group g₀).replay rs =
        v.withGroup group (g.claim v.has group name minidle opts now ids).1) := by
  induction ids generalizing g₀ g rs with
  | nil =>
    obtain rfl := map_eq_nil_iff.mp hrs
    exact ⟨fun _ => rfl, fun h => absurd rfl h⟩
  | cons id ids ih =>
    rw [GroupView.claim] at hrs ⊢
    rcases hp : claimedAs (v.has id) name minidle opts now (g.pel id) with _ | p
    · simp only [hp] at hrs ⊢
      exact ih hadv hrs hclock hcount
    · simp only [hp] at hrs ⊢
      obtain ⟨r, rs, rfl, hr, hrs⟩ := map_eq_cons_iff.mp hrs
      refine ⟨fun h => by simp at h, fun _ => ?_⟩
      obtain ⟨h0, hin⟩ := claimedAs_some hp
      have hpel : g.pel id = g₀.pel id := by rw [← hadv, pel_advance]
      have ht : p.deliveryTime ≤ r.clock 0 := by
        have := hclock r (by simp)
        rwa [Timed.NotBehind, hr] at this
      have hc : 0 ≤ p.deliveryCount.toInt := by
        have := hcount r (by simp)
        rwa [hr] at this
      rw [replay_cons, hr, replay_xclaim v _ (hpel ▸ hin) h0 ht hc, lastId_set, hadv]
      -- from here on the copy's last ID is the group's
      obtain ⟨hnil, hne⟩ := ih ((g.set id (some p)).advance_of_not_lt (lt_irrefl _)) hrs
        (forall_mem_cons.mp hclock).2 (forall_mem_cons.mp hcount).2
      by_cases hrs' : rs = []
      · rw [hnil hrs', hrs']
        rfl
      · exact hne hrs'

/-! ### One command -/

theorem replay_singleton {c : Command} (hrs : rs.map Timed.command = [c]) :
    ∃ clock, v.replay rs = (v.exec clock c).1 := by
  obtain ⟨r, rs, rfl, hr, hrs⟩ := map_eq_cons_iff.mp hrs
  obtain rfl := map_eq_nil_iff.mp hrs
  exact ⟨r.clock, by rw [replay_cons, hr]; rfl⟩

theorem replay_onGroup {f : GroupView → GroupView × List Command}
    (hrs : rs.map Timed.command = (v.onGroup group f).2)
    (h : ∀ g, rs.map Timed.command = (f g).2 → (v.withGroup group g).replay rs = v.withGroup group (f g).1) :
    v.replay rs = (v.onGroup group f).1 := by
  rw [onGroup] at hrs ⊢
  rcases hg : v.groups group with _ | g
  · simp only [hg] at hrs ⊢
    obtain rfl := map_eq_nil_iff.mp hrs
    rfl
  · simp only [hg] at hrs ⊢
    have := h g hrs
    rwa [v.withGroup_self hg] at this

theorem replay_readNew {count : ℕ}
    (hrs : rs.map Timed.command = (v.readNew group name count noack clock g).2) (hclock : ∀ r ∈ rs, r.NotBehind) :
    (v.withGroup group g).replay rs = v.withGroup group (v.readNew group name count noack clock g).1 := by
  rw [readNew] at hrs ⊢
  split_ifs at hrs ⊢ with hlt
  · refine v.replay_deliver (fun it hit => ?_) g clock false hrs hclock
    have hmem : it ∈ v.entries := by
      rw [limit] at hit
      split_ifs at hit
      · exact mem_of_mem_filter hit
      · exact mem_of_mem_filter (mem_of_mem_take hit)
    exact any_eq_true.mpr ⟨it, hmem, decide_eq_true rfl⟩
  · obtain rfl := map_eq_nil_iff.mp hrs
    rfl

theorem replay_claimGroup (hrs : rs.map Timed.command = (v.claim group name minidle ids opts now g).2)
    (hclock : ∀ r ∈ rs, r.NotBehind) (hcount : ∀ r ∈ rs, r.command.CountFits) :
    (v.withGroup group g).replay rs = v.withGroup group (v.claim group name minidle ids opts now g).1 := by
  rw [claim] at hrs ⊢
  simp only at hrs ⊢
  by_cases hset : g.lastId < opts.lastid ∧
      ((g.advance opts.lastid).claim v.has group name (max minidle 0) opts now ids).2 = []
  · -- nothing was claimed, and the new last ID is propagated on its own
    rw [if_pos hset] at hrs
    obtain ⟨hnil, -⟩ := v.replay_claim ids (g.advance_lastId_advance opts.lastid)
      (show List.map Timed.command [] = _ from hset.2.symm) (by simp) (by simp)
    obtain ⟨clock, he⟩ := (v.withGroup group g).replay_singleton hrs
    rw [he, replay_setid, hnil rfl, g.lastId_advance]
  · rw [if_neg hset] at hrs
    obtain ⟨hnil, hne⟩ := v.replay_claim ids (g.advance_lastId_advance opts.lastid) hrs hclock hcount
    by_cases hrs' : rs = []
    · subst hrs'
      have hlt : ¬ g.lastId < opts.lastid := fun h => hset ⟨h, hrs.symm⟩
      rw [hnil rfl, g.advance_of_not_lt hlt]
      rfl
    · exact hne hrs'

theorem foldl_filter_eq {es : List Item} (h : ∀ id ∈ ids, ∀ it ∈ es, it.id ≠ id) :
    ids.foldl (fun es id => es.filter (fun it => it.id ≠ id)) es = es := by
  induction ids with
  | nil => rfl
  | cons id ids ih =>
    rw [foldl_cons, filter_eq_self.mpr fun it hit => by simpa using h id (by simp) it hit]
    exact ih (forall_mem_cons.mp h).2

theorem foldl_update_eq {pel : StreamID → Option Pending} (h : ∀ id ∈ ids, pel id = none) :
    ids.foldl (fun pel id => update pel id none) pel = pel := by
  induction ids with
  | nil => rfl
  | cons id ids ih =>
    rw [foldl_cons, update_eq_self_iff.mpr (h id (by simp)).symm]
    exact ih (forall_mem_cons.mp h).2

theorem replay_exec (clock : ℕ → ℕ) (c : Command) (hrs : rs.map Timed.command = (v.exec clock c).2)
    (hclock : ∀ r ∈ rs, r.NotBehind) (hcount : ∀ r ∈ rs, r.command.CountFits) :
    v.replay rs = (v.exec clock c).1 := by
  cases c with
  | xadd maxlen id fields =>
    rw [exec] at hrs ⊢
    split_ifs at hrs ⊢ with h
    · obtain rfl := map_eq_nil_iff.mp hrs
      rfl
    · obtain ⟨clock', he⟩ := v.replay_singleton hrs
      rw [he, exec]
      generalize id.getD (streamNextID v.lastId (clock 0)) = newId at h ⊢
      have hzero : newId ≠ .zero := fun h0 => h (.inr (.inr (h0 ▸ StreamID.zero_le _)))
      have hnot : ¬ (fields = [] ∨ some newId = some .zero ∨ newId ≤ v.lastId) := by
        simp only [some.injEq, hzero, false_or]
        exact fun h' => h (h'.imp_right .inr)
      simp only [getD_some, if_neg hnot]
  | xdel ids =>
    rw [exec] at hrs ⊢
    simp only at hrs ⊢
    split_ifs at hrs with h
    · obtain ⟨clock', he⟩ := v.replay_singleton hrs
      rw [he, exec]
    · obtain rfl := map_eq_nil_iff.mp hrs
      rw [foldl_filter_eq fun id hid it hit he =>
        h (any_eq_true.mpr ⟨id, hid, any_eq_true.mpr ⟨it, hit, decide_eq_true he⟩⟩)]
      rfl
  | xtrim approx maxlen =>
    rw [exec] at hrs ⊢
    simp only at hrs ⊢
    split_ifs at hrs with h
    · obtain ⟨clock', he⟩ := v.replay_singleton hrs
      rw [he, exec]
    · obtain rfl := map_eq_nil_iff.mp hrs
      rw [Nat.sub_eq_zero_of_le (not_lt.mp h), drop_zero]
      rfl
  | xgroupCreate group id =>
    rw [exec] at hrs ⊢
    split_ifs at hrs ⊢ with h
    · obtain rfl := map_eq_nil_iff.mp hrs
      rfl
    · obtain ⟨clock', he⟩ := v.replay_singleton hrs
      rw [he, exec, if_neg h]
  | xgroupSetid group id =>
    refine v.replay_onGroup hrs fun g hrs => ?_
    obtain ⟨clock', he⟩ := (v.withGroup group g).replay_singleton hrs
    rw [he, exec, onGroup_withGroup]
    rfl
  | xgroupDestroy group =>
    rw [exec] at hrs ⊢
    split_ifs at hrs ⊢ with h
    · obtain ⟨clock', he⟩ := v.replay_singleton hrs
      rw [he, exec, if_pos h]
    · obtain rfl := map_eq_nil_iff.mp hrs
      rfl
  | xgroupDelconsumer group consumer =>
    refine v.replay_onGroup hrs fun g hrs => ?_
    obtain ⟨clock', he⟩ := (v.withGroup group g).replay_singleton hrs
    rw [he, exec, onGroup_withGroup]
  | xreadgroup group consumer id count noack =>
    refine v.replay_onGroup hrs fun g hrs => ?_
    split_ifs at hrs ⊢ with h
    · obtain rfl := map_eq_nil_iff.mp hrs
      rfl
    · exact v.replay_readNew hrs hclock
  | unblock group consumer count noack => exact v.replay_onGroup hrs fun g hrs => v.replay_readNew hrs hclock
  | xack group ids =>
    refine v.replay_onGroup hrs fun g hrs => ?_
    simp only at hrs ⊢
    split_ifs at hrs with h
    · obtain ⟨clock', he⟩ := (v.withGroup group g).replay_singleton hrs
      rw [he, exec, onGroup_withGroup]
    · obtain rfl := map_eq_nil_iff.mp hrs
      rw [foldl_update_eq (by simpa using h)]
      rfl
  | xclaim group consumer minidle ids opts =>
    exact v.replay_onGroup hrs fun g hrs => v.replay_claimGroup hrs hclock hcount

end StreamView

/-! ### Whole runs -/

/-- A command whose effect on the view does not depend on the nodes of the stream. -/
def Command.Determined (c : Command) : Prop := c.ReadsNew ∧ ∀ k, c.exact k = c

theorem GroupView.deliver_determined {its : List Item} {b : Bool} :
    ∀ p ∈ (g.deliver group noack name its clock b).2, p.Determined := by
  induction its generalizing g clock b with
  | nil => simp [GroupView.deliver]
  | cons it its ih =>
    intro p hp
    cases noack with
    | true =>
      simp only [GroupView.deliver, if_true, mem_append] at hp
      rcases hp with hp | hp
      · split_ifs at hp
        · rw [mem_singleton.mp hp]
          exact ⟨trivial, fun _ => rfl⟩
        · simp at hp
      · exact ih p hp
    | false =>
      simp only [GroupView.deliver, Bool.false_eq_true, if_false, mem_cons] at hp
      rcases hp with rfl | hp
      · exact ⟨trivial, fun _ => rfl⟩
      · exact ih p hp

theorem GroupView.claim_determined {inStream : StreamID → Bool} :
    ∀ p ∈ (g.claim inStream group name minidle opts now ids).2, p.Determined := by
  induction ids generalizing g with
  | nil => simp [GroupView.claim]
  | cons id ids ih =>
    intro p hp
    rw [GroupView.claim] at hp
    rcases hq : claimedAs (inStream id) name minidle opts now (g.pel id) with _ | q
    · simp only [hq] at hp
      exact ih p hp
    · simp only [hq, mem_cons] at hp
      rcases hp with rfl | hp
      · exact ⟨trivial, fun _ => rfl⟩
      · exact ih p hp

theorem StreamView.onGroup_determined {v : StreamView} {f : GroupView → GroupView × List Command}
    (hf : ∀ g, ∀ p ∈ (f g).2, p.Determined) : ∀ p ∈ (v.onGroup group f).2, p.Determined := by
  rw [StreamView.onGroup]
  split
  · simp
  · exact hf _

theorem StreamView.readNew_determined {v : StreamView} {count : ℕ} :
    ∀ p ∈ (v.readNew group name count noack clock g).2, p.Determined := by
  rw [StreamView.readNew]
  split_ifs
  · exact deliver_determined
  · simp

theorem Command.exact_exact (c : Command) (k j : ℕ) : (c.exact k).exact j = c.exact k := by
  rcases c with ⟨_ | _⟩ | _ | _ | _ | _ | _ | _ | _ | _ | _ | _ <;> rfl

theorem StreamView.exec_determined (v : StreamView) (clock : ℕ → ℕ) {c : Command} (hc : ∀ k, c.exact k = c) :
    ∀ p ∈ (v.exec clock c).2, p.Determined := by
  have hself : ∀ {d : Command} {q : Prop} [Decidable q], d.Determined →
    ∀ p ∈ (if q then [d] else []), p.Determined := by
    intro d q _ hd p hp
    split_ifs at hp
    · exact mem_singleton.mp hp ▸ hd
    · simp at hp
  have hone : ∀ {d : Command}, d.Determined → ∀ p ∈ [d], p.Determined :=
    fun hd p hp => mem_singleton.mp hp ▸ hd
  cases c with
  | xadd maxlen id fields =>
    rw [StreamView.exec]
    split_ifs
    · simp
    · refine hone ⟨trivial, fun k => ?_⟩
      rcases maxlen with _ | ⟨approx, maxlen⟩
      · rfl
      · simpa [Command.exact] using hc k
  | xdel ids => exact hself ⟨trivial, hc⟩
  | xtrim approx maxlen => exact hself ⟨trivial, hc⟩
  | xgroupCreate group id =>
    rw [StreamView.exec]
    split_ifs
    · simp
    · exact hone ⟨trivial, hc⟩
  | xgroupDestroy group =>
    rw [StreamView.exec]
    split_ifs
    · exact hone ⟨trivial, hc⟩
    · simp
  | xgroupSetid group id => exact onGroup_determined fun g => hone ⟨trivial, hc⟩
  | xgroupDelconsumer group consumer => exact onGroup_determined fun g => hone ⟨trivial, hc⟩
  | xreadgroup group consumer id count noack =>
    refine onGroup_determined fun g => ?_
    split_ifs
    · simp
    · exact readNew_determined
  | unblock group consumer count noack => exact onGroup_determined fun g => readNew_determined
  | xack group ids => exact onGroup_determined fun g => hself ⟨trivial, hc⟩
  | xclaim group consumer minidle ids opts =>
    refine onGroup_determined fun g => ?_
    rw [StreamView.claim]
    split_ifs
    · exact hone ⟨trivial, fun _ => rfl⟩
    · exact claim_determined

theorem run_replay (full : Node → Bool) {st : State} (hst : Consistent st)
    (hrs : ∀ r ∈ rs, r.command.Determined) :
    ∃ st' ps, run full rs st = some (st', ps) ∧ Consistent st' ∧ st'.view = st.view.replay rs := by
  induction rs generalizing st with
  | nil => exact ⟨st, [], rfl, hst, rfl⟩
  | cons r rs ih =>
    obtain ⟨hnew, hexact⟩ := hrs r (by simp)
    obtain ⟨st₁, ps₁, he₁, hst₁, hv₁⟩ := exec_spec full r.clock hst r.command
    obtain ⟨k, hk⟩ := hv₁ hnew
    rw [hexact k] at hk
    obtain ⟨st₂, ps₂, he₂, hst₂, hv₂⟩ := ih hst₁ (forall_mem_cons.mp hrs).2
    refine ⟨st₂, ps₁ ++ ps₂, by simp [run, he₁, he₂], hst₂, ?_⟩
    rw [hv₂, replay_cons, ← hk]

theorem run_propagates (full : Node → Bool) {st : State} (hst : Consistent st) {cs : List Timed}
    (hcs : ∀ c ∈ cs, c.command.ReadsNew) :
    ∃ st' ps, run full cs st = some (st', ps) ∧ (∀ p ∈ ps, p.Determined) ∧
      ∀ rs : List Timed, rs.map Timed.command = ps → (∀ r ∈ rs, r.NotBehind) →
        (∀ r ∈ rs, r.command.CountFits) → st.view.replay rs = st'.view := by
  induction cs generalizing st with
  | nil =>
    refine ⟨st, [], rfl, by simp, fun rs hrs _ _ => ?_⟩
    obtain rfl := map_eq_nil_iff.mp hrs
    rfl
  | cons c cs ih =>
    obtain ⟨st₁, ps₁, he₁, hst₁, hv₁⟩ := exec_spec full c.clock hst c.command
    obtain ⟨k, hk⟩ := hv₁ (hcs c (by simp))
    obtain ⟨st₂, ps₂, he₂, hdet₂, hrep₂⟩ := ih hst₁ (forall_mem_cons.mp hcs).2
    have hview := congrArg Prod.fst hk
    have hps := congrArg Prod.snd hk
    refine ⟨st₂, ps₁ ++ ps₂, by simp [run, he₁, he₂], fun p hp => ?_, fun rs hrs hclock hcount => ?_⟩
    · rcases mem_append.mp hp with hp | hp
      · exact st.view.exec_determined c.clock (c.command.exact_exact k) p (hps ▸ hp)
      · exact hdet₂ p hp
    · obtain ⟨rs₁, rs₂, rfl, hrs₁, hrs₂⟩ := map_eq_append_iff.mp hrs
      rw [forall_mem_append] at hclock hcount
      rw [replay_append, st.view.replay_exec c.clock _ (hrs₁.trans hps) hclock.1 hcount.1, ← hview]
      exact hrep₂ rs₂ hrs₂ hclock.2 hcount.2

/-- Any commands on a stream, without reads of a consumer's history, and the commands that they
propagate: on a copy that looks the same, whatever its nodes, these give a stream that looks the
same, as long as no delivery count is printed as a negative number. -/
theorem replay_rebuilds_stream (full full' : Node → Bool) {st copy : State} (hst : Consistent st)
    (hcopy : Consistent copy)
    (hview : copy.view = st.view) (cs : List Timed) (hcs : ∀ c ∈ cs, c.command.ReadsNew) :
    ∃ st' ps, run full cs st = some (st', ps) ∧
      ∀ rs : List Timed, rs.map Timed.command = ps → (∀ r ∈ rs, r.NotBehind) →
        (∀ r ∈ rs, r.command.CountFits) →
        ∃ copy' qs, run full' rs copy = some (copy', qs) ∧ copy'.view = st'.view := by
  obtain ⟨st', ps, he, hdet, hrep⟩ := run_propagates full hst hcs
  refine ⟨st', ps, he, fun rs hrs hclock hcount => ?_⟩
  obtain ⟨copy', qs, he', -, hv'⟩ := run_replay full' hcopy fun r hr => hdet _ (hrs ▸ mem_map_of_mem hr)
  exact ⟨copy', qs, he', by rw [hv', hview, hrep rs hrs hclock hcount]⟩

/-- An entry that `b` claims from `a`, on a clock that stands still. -/
def claimRun (retrycount : ℤ) : List Timed :=
  [.xadd none (some ⟨1, 1⟩) [([102], [118])], .xgroupCreate [103] (some .zero), .xreadgroup [103] [97] .max 0 false,
    .xclaim [103] [98] 0 [⟨1, 1⟩] ⟨.none, retrycount, false, false, .zero⟩,
    .xclaim [103] [99] 0 [⟨1, 1⟩] ⟨.none, -1, false, false, .zero⟩].map fun c => ⟨c, fun _ => 1000⟩

def claimRunCount (st : State) : Option (BitVec 64) := do
  let g ← st.view.groups [103]
  let p ← g.pel ⟨1, 1⟩
  pure p.deliveryCount

/-- What `claimRun 5` propagates, with the same clock. -/
def claimReplay : List Timed :=
  [.xadd none (some ⟨1, 1⟩) [([102], [118])], .xgroupCreate [103] (some .zero),
    .xclaim [103] [97] 0 [⟨1, 1⟩] ⟨.time 1000, 1, true, true, ⟨1, 1⟩⟩,
    .xclaim [103] [98] 0 [⟨1, 1⟩] ⟨.time 1000, 5, true, true, ⟨1, 1⟩⟩,
    .xclaim [103] [99] 0 [⟨1, 1⟩] ⟨.time 1000, 6, true, true, ⟨1, 1⟩⟩].map fun c => ⟨c, fun _ => 1000⟩

theorem claimReplay_rebuilds :
    (∀ c ∈ claimRun 5, c.command.ReadsNew) ∧ (∀ r ∈ claimReplay, r.NotBehind) ∧
      (∀ r ∈ claimReplay, r.command.CountFits) ∧
      ∃ st copy qs, run (fun _ => false) (claimRun 5) State.new = some (st, claimReplay.map Timed.command) ∧
        run (fun _ => true) claimReplay State.new = some (copy, qs) ∧ copy.view = st.view := by
  have hnew : ∀ c ∈ claimRun 5, c.command.ReadsNew := by simp [claimRun, Command.ReadsNew]
  have hclock : ∀ r ∈ claimReplay, r.NotBehind := by simp [claimReplay, Timed.NotBehind]
  have hcount : ∀ r ∈ claimReplay, r.command.CountFits := by simp [claimReplay, Command.CountFits]
  obtain ⟨st, ps, he, h⟩ :=
    replay_rebuilds_stream (fun _ => false) (fun _ => true) Consistent.new Consistent.new rfl (claimRun 5) hnew
  have hps : (run (fun _ => false) (claimRun 5) State.new).map Prod.snd = some (claimReplay.map Timed.command) := by
    decide +kernel
  rw [he, map_some, some.injEq] at hps
  subst hps
  obtain ⟨copy, qs, he', hview⟩ := h claimReplay rfl hclock hcount
  exact ⟨hnew, hclock, hcount, st, copy, qs, he, he', hview⟩

/-- A count of 2 ^ 63 is printed as a negative number, which the copy takes for no count at all. -/
theorem hugeCount_lost :
    ((run (fun _ => false) (claimRun (2 ^ 63 - 1)) State.new).map fun r => claimRunCount r.1) = some (some (2 ^ 63)) ∧
      ((run (fun _ => false) (claimRun (2 ^ 63 - 1)) State.new).bind fun r =>
        (run (fun _ => false) (r.2.map fun c => ⟨c, fun _ => 1000⟩) State.new).map fun r => claimRunCount r.1) =
        some (some (2 ^ 63 - 1)) := by
  decide +kernel

/-- The limits of the nodes do not show, as long as no trim is approximate. -/
theorem node_limits_invisible (full full' : Node → Bool) {cs : List Timed}
    (hcs : ∀ c ∈ cs, c.command.Determined) :
    ∃ st st' ps ps', run full cs State.new = some (st, ps) ∧ run full' cs State.new = some (st', ps') ∧
      st'.view = st.view := by
  obtain ⟨st, ps, he, -, hv⟩ := run_replay full Consistent.new hcs
  obtain ⟨st', ps', he', -, hv'⟩ := run_replay full' Consistent.new hcs
  exact ⟨st, st', ps, ps', he, he', by rw [hv', hv]⟩

def twoAdds : List Timed :=
  [⟨.xadd none (some ⟨1, 0⟩) [([97], [49])], fun _ => 0⟩,
    ⟨.xadd none (some ⟨2, 0⟩) [([97], [50])], fun _ => 0⟩]

/-- The second entry is put into the node of the first, or into one of its own. -/
theorem twoAdds_limits_invisible :
    (∃ st st' ps ps', run (fun _ => false) twoAdds State.new = some (st, ps) ∧
      run (fun _ => true) twoAdds State.new = some (st', ps') ∧ st'.view = st.view) ∧
    (run (fun _ => false) twoAdds State.new).map (·.1.stream.nodes.length) = some 1 ∧
      (run (fun _ => true) twoAdds State.new).map (·.1.stream.nodes.length) = some 2 :=
  ⟨node_limits_invisible _ _ (by simp [twoAdds, Command.Determined, Command.ReadsNew, Command.exact]),
    by decide, by decide⟩

end RedisIR.Streams
