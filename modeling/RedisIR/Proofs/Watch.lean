import RedisIR.Lib.Mirror
import RedisIR.Spec.Watch

/-! The two kinds of lists of `WATCH` agree at every moment, and the flag of a client says
whether one of its watched keys was touched. -/

namespace RedisIR.Watch

open Mirror List Function Option

variable {C K : Type}

variable {s s' : Server C K} {c : C} {wk : WatchedKey K}
variable {f : Client K → Client K}

/-! ### The trace -/

variable {T : List (Mark C K)} {m : Mark C K}

theorem watching_concat : Watching c wk (T ++ [m]) ↔ m = .watched c wk ∨ (Watching c wk T ∧ ¬ m.Ends c) :=
  Since.open_concat

theorem touched_concat :
    Touched c (T ++ [m]) ↔ ¬ m.Ends c ∧ (Touched c T ∨ ∃ wk, Watching c wk T ∧ m.Touches wk) := by
  simp [Touched, Watching, Since.hit_concat, exists_and_left, exists_or]

theorem refused_concat : Refused c (T ++ [m]) ↔ m = .refused c ∨ (Refused c T ∧ m ≠ .ended c) :=
  Since.open_concat

theorem refused_notMem_call (c c' : C) (s : Server C K) (cmd : Command K) : .refused c' ∉ cmd.marks c s := by
  cases cmd with
  | other actions =>
    rw [Command.marks, mem_flatMap]
    rintro ⟨a, -, ha⟩
    cases a <;> simp [Action.marks] at ha
  | _ => simp [Command.marks]

/-! ### Lists and flags -/

/-- A client is in the list of a key if and only if the key is in the list of the client. -/
structure Linked (s : Server C K) : Prop where
  listed : ∀ c wk, c ∈ (s.watchedKeys wk).getD [] ↔ wk ∈ (s.clients c).watchedKeys
  own_nodup : ∀ c, (s.clients c).watchedKeys.Nodup
  nodup : ∀ wk, ((s.watchedKeys wk).getD []).Nodup

theorem linked_iff :
    Linked s ↔ Mirrored (fun wk => (s.watchedKeys wk).getD []) fun c => (s.clients c).watchedKeys :=
  ⟨fun h => ⟨h.listed, h.nodup, h.own_nodup⟩, fun h => ⟨h.mem, h.own_nodup, h.nodup⟩⟩

theorem linked_start (dict : WatchedKey K → Bool) : Linked (Server.start dict : Server C K) :=
  ⟨fun _ _ => by simp [Server.start, createClient], fun _ => nodup_nil, fun _ => nodup_nil⟩

theorem Linked.of_lists (h : Linked s) (htable : s'.watchedKeys = s.watchedKeys)
    (hown : ∀ c, (s'.clients c).watchedKeys = (s.clients c).watchedKeys) : Linked s' :=
  ⟨fun c wk => by rw [htable, hown]; exact h.listed c wk, fun c => by rw [hown]; exact h.own_nodup c,
    fun wk => by rw [htable]; exact h.nodup wk⟩

/-- The lists hold what is watched, and the flags say what was touched and refused. -/
structure Tracks (s : Server C K) (T : List (Mark C K)) : Prop where
  linked : Linked s
  own : ∀ c wk, wk ∈ (s.clients c).watchedKeys ↔ Watching c wk T
  dirtyCas : ∀ c, (s.clients c).dirtyCas = true ↔ Touched c T
  dirtyExec : ∀ c, (s.clients c).dirtyExec = true ↔ Refused c T

theorem tracks_start (dict : WatchedKey K → Bool) : Tracks (Server.start dict : Server C K) [] where
  linked := linked_start dict
  own := fun _ _ => by simp [Server.start, createClient, Watching, Since.not_open_nil]
  dirtyCas := fun _ => by simp [Server.start, createClient, Touched, Since.not_hit_nil]
  dirtyExec := fun _ => by simp [Server.start, createClient, Refused, Since.not_open_nil]

structure SameWatches (s s' : Server C K) : Prop where
  table : s'.watchedKeys = s.watchedKeys
  own : ∀ c, (s'.clients c).watchedKeys = (s.clients c).watchedKeys
  dirtyCas : ∀ c, (s'.clients c).dirtyCas = (s.clients c).dirtyCas
  dirtyExec : ∀ c, (s'.clients c).dirtyExec = (s.clients c).dirtyExec

theorem Tracks.same (h : Tracks s T) (hs : SameWatches s s') : Tracks s' T where
  linked := h.linked.of_lists hs.table hs.own
  own := fun c wk => by rw [hs.own]; exact h.own c wk
  dirtyCas := fun c => by rw [hs.dirtyCas]; exact h.dirtyCas c
  dirtyExec := fun c => by rw [hs.dirtyExec]; exact h.dirtyExec c

theorem Tracks.touch (h : Tracks s T) (htable : s'.watchedKeys = s.watchedKeys)
    (hclients : ∀ c, s'.clients c = s.clients c ∨ s'.clients c = { s.clients c with dirtyCas := true })
    (hflag : ∀ c, (s'.clients c).dirtyCas = true ↔
      (s.clients c).dirtyCas = true ∨ ∃ wk ∈ (s.clients c).watchedKeys, m.Touches wk)
    (hm : (∃ wk, m = .signalled wk) ∨ ∃ dbid dict, m = .flushed dbid dict) : Tracks s' (T ++ [m]) := by
  have hown : ∀ c, (s'.clients c).watchedKeys = (s.clients c).watchedKeys := by
    intro c
    rcases hclients c with hc | hc <;> rw [hc]
  have hexec : ∀ c, (s'.clients c).dirtyExec = (s.clients c).dirtyExec := by
    intro c
    rcases hclients c with hc | hc <;> rw [hc]
  have hends : ∀ c, ¬ m.Ends c := by
    rcases hm with ⟨wk, rfl⟩ | ⟨dbid, dict, rfl⟩ <;> simp [Mark.Ends]
  refine ⟨h.linked.of_lists htable hown, fun c wk => ?_, fun c => ?_, fun c => ?_⟩
  · rw [hown, h.own, watching_concat]
    have hne : m ≠ .watched c wk := by
      rcases hm with ⟨wk, rfl⟩ | ⟨dbid, dict, rfl⟩ <;> simp
    simp [hne, hends c]
  · rw [hflag, touched_concat, h.dirtyCas]
    simp [hends c, h.own]
  · rw [hexec, h.dirtyExec, refused_concat]
    have hne : m ≠ .refused c ∧ m ≠ .ended c := by
      rcases hm with ⟨wk, rfl⟩ | ⟨dbid, dict, rfl⟩ <;> simp
    simp [hne.1, hne.2]

theorem Tracks.touchWatchedKeysOnFlush (h : Tracks s T) (dbid : Option ℕ) :
    Tracks (touchWatchedKeysOnFlush dbid s) (T ++ [.flushed dbid s.dict]) := by
  refine h.touch rfl (fun c => ?_) (fun c => ?_) (.inr ⟨dbid, s.dict, rfl⟩)
  · simp only [Watch.touchWatchedKeysOnFlush]
    split_ifs
    · exact .inr rfl
    · exact .inl rfl
  · simp only [Watch.touchWatchedKeysOnFlush, Mark.Touches]
    split_ifs with hc
    · simp [hc]
    · simp [hc]

section

variable [DecidableEq C]

@[simp] theorem setClient_watchedKeys (s : Server C K) (c : C) (f : Client K → Client K) :
    (s.setClient c f).watchedKeys = s.watchedKeys := rfl

@[simp] theorem setClient_self (s : Server C K) (c : C) (f : Client K → Client K) :
    (s.setClient c f).clients c = f (s.clients c) := update_self ..

theorem setClient_of_ne {c' : C} (h : c' ≠ c) (s : Server C K) (f : Client K → Client K) :
    (s.setClient c f).clients c' = s.clients c' := update_of_ne h ..

theorem setClient_own (hf : ∀ cl, (f cl).watchedKeys = cl.watchedKeys) (s : Server C K) (c c' : C) :
    ((s.setClient c f).clients c').watchedKeys = (s.clients c').watchedKeys := by
  by_cases hc : c' = c
  · rw [hc, setClient_self, hf]
  · rw [setClient_of_ne hc]

theorem Linked.setClient (h : Linked s) (hf : ∀ cl, (f cl).watchedKeys = cl.watchedKeys) :
    Linked (s.setClient c f) := h.of_lists rfl (setClient_own hf s c)

theorem Tracks.setClient (h : Tracks s T) (hown : ∀ cl, (f cl).watchedKeys = cl.watchedKeys)
    (hcas : ∀ cl, (f cl).dirtyCas = cl.dirtyCas) (hexec : ∀ cl, (f cl).dirtyExec = cl.dirtyExec) :
    Tracks (s.setClient c f) T := by
  refine h.same ⟨rfl, setClient_own hown s c, fun c' => ?_, fun c' => ?_⟩
  · by_cases hc : c' = c
    · rw [hc, setClient_self, hcas]
    · rw [setClient_of_ne hc]
  · by_cases hc : c' = c
    · rw [hc, setClient_self, hexec]
    · rw [setClient_of_ne hc]

theorem Tracks.left (h : Tracks s T) (hlinked : Linked s') {cl : Client K} (hown : cl.watchedKeys = [])
    (hcas : cl.dirtyCas = false) (hexec : cl.dirtyExec = true ↔ Refused c (T ++ [m]))
    (hclients : s'.clients = update s.clients c cl) (hm : m = .unwatched c ∨ m = .ended c) :
    Tracks s' (T ++ [m]) := by
  refine ⟨hlinked, fun c' wk => ?_, fun c' => ?_, fun c' => ?_⟩ <;> by_cases hc : c' = c
  · rcases hm with rfl | rfl <;> simp [hclients, hc, hown, watching_concat, Mark.Ends]
  · rcases hm with rfl | rfl <;> simp [hclients, hc, watching_concat, Mark.Ends, Ne.symm hc, h.own]
  · rcases hm with rfl | rfl <;> simp [hclients, hc, hcas, touched_concat, Mark.Ends]
  · rcases hm with rfl | rfl <;>
      simp [hclients, hc, touched_concat, Mark.Ends, Mark.Touches, Ne.symm hc, h.dirtyCas]
  · simpa [hclients, hc] using hexec
  · rcases hm with rfl | rfl <;> simp [hclients, hc, refused_concat, Ne.symm hc, h.dirtyExec]

theorem Tracks.unwatched (h : Tracks s T) (hlinked : Linked s')
    (hclients : s'.clients = update s.clients c { s.clients c with watchedKeys := [], dirtyCas := false }) :
    Tracks s' (T ++ [.unwatched c]) :=
  h.left hlinked rfl rfl (by simp [refused_concat, h.dirtyExec]) hclients (.inl rfl)

theorem Tracks.ended (h : Tracks s T) (hlinked : Linked s') (cl : Client K) (hown : cl.watchedKeys = [])
    (hcas : cl.dirtyCas = false) (hexec : cl.dirtyExec = false) (hclients : s'.clients = update s.clients c cl) :
    Tracks s' (T ++ [.ended c]) :=
  h.left hlinked hown hcas (by simp [hexec, refused_concat]) hclients (.inr rfl)

theorem flag_foldl (cs : List C) (s : Server C K) (c : C) :
    (cs.foldl (fun s c => s.setClient c fun cl => { cl with dirtyCas := true }) s).clients c =
      if c ∈ cs then { s.clients c with dirtyCas := true } else s.clients c := by
  induction cs generalizing s with
  | nil => simp
  | cons c' cs ih =>
    rw [foldl_cons, ih]
    by_cases hc : c = c'
    · subst hc
      simp
    · simp [hc, setClient_of_ne hc]

theorem flag_foldl_table (cs : List C) (s : Server C K) :
    (cs.foldl (fun s c => s.setClient c fun cl => { cl with dirtyCas := true }) s).watchedKeys = s.watchedKeys := by
  induction cs generalizing s with
  | nil => rfl
  | cons c' cs ih => rw [foldl_cons, ih, setClient_watchedKeys]

theorem Tracks.touchWatchedKey (h : Tracks s T) (wk : WatchedKey K) :
    Tracks (touchWatchedKey s wk) (T ++ [.signalled wk]) := by
  refine h.touch (flag_foldl_table _ s) (fun c => ?_) (fun c => ?_) (.inl ⟨wk, rfl⟩)
  · rw [Watch.touchWatchedKey, flag_foldl]
    split_ifs
    · exact .inr rfl
    · exact .inl rfl
  · have htouch : (∃ wk' ∈ (s.clients c).watchedKeys, Mark.Touches wk' (.signalled wk : Mark C K)) ↔
        c ∈ (s.watchedKeys wk).getD [] := by
      simp [Mark.Touches, h.linked.listed]
    rw [Watch.touchWatchedKey, flag_foldl, htouch]
    split_ifs with hc
    · simp [hc]
    · simp [hc]

theorem Tracks.flagTransaction (h : Tracks s T) (c : C) :
    Tracks (flagTransaction c s) (T ++ if (s.clients c).multi then [.refused c] else []) := by
  unfold Watch.flagTransaction
  split_ifs
  · refine ⟨h.linked.setClient fun _ => rfl, fun c' wk => ?_, fun c' => ?_, fun c' => ?_⟩
    · have hown := setClient_own (f := fun cl => { cl with dirtyExec := true }) (fun _ => rfl) s c c'
      rw [hown, h.own, watching_concat]
      simp [Mark.Ends]
    · rw [touched_concat, ← h.dirtyCas]
      by_cases hc : c' = c
      · subst hc
        simp [Mark.Ends, Mark.Touches]
      · simp [setClient_of_ne hc, Mark.Ends, Mark.Touches]
    · rw [refused_concat, ← h.dirtyExec]
      by_cases hc : c' = c
      · subst hc
        simp
      · simp [setClient_of_ne hc, Ne.symm hc]
  · simpa using h

end

variable [DecidableEq C] [DecidableEq K]

/-! ### Watching -/

theorem Linked.watch (h : Linked s) (hnew : wk ∉ (s.clients c).watchedKeys) :
    Linked { s.setClient c (fun cl => { cl with watchedKeys := cl.watchedKeys ++ [wk] }) with
      watchedKeys := update s.watchedKeys wk (some ((s.watchedKeys wk).getD [] ++ [c])) } := by
  refine linked_iff.mpr ((linked_iff.mp h).join hnew (fun wk' => ?_) fun c' => ?_)
  · by_cases hwk : wk' = wk <;> simp [hwk]
  · by_cases hc : c' = c
    · simp [hc]
    · simp [hc, setClient_of_ne hc]

theorem Linked.unwatch (h : Linked s) {wks : List (WatchedKey K)} {clients : List C}
    (hown : (s.clients c).watchedKeys = wk :: wks) (htable : s.watchedKeys wk = some clients) :
    Linked { s.setClient c (fun cl => { cl with watchedKeys := wks }) with
      watchedKeys := update s.watchedKeys wk
        (if clients.erase c = [] then none else some (clients.erase c)) } := by
  have hlist : (if clients.erase c = [] then none else some (clients.erase c)).getD [] = clients.erase c := by
    split_ifs with hnil
    · rw [hnil]
      rfl
    · rfl
  generalize (if clients.erase c = [] then none else some (clients.erase c)) = rest at hlist ⊢
  refine linked_iff.mpr ((linked_iff.mp h).leave hown (fun wk' => ?_) fun c' => ?_)
  · by_cases hwk : wk' = wk <;> simp [hwk, hlist, htable]
  · by_cases hc : c' = c
    · simp [hc]
    · simp [hc, setClient_of_ne hc]

/-- The assertion holds in every round, and only the list of the client changes. -/
theorem unwatchLoop_linked (wks : List (WatchedKey K)) (h : Linked s) (hown : (s.clients c).watchedKeys = wks) :
    ∃ s', unwatchLoop c wks s = some s' ∧ Linked s' ∧ s'.dict = s.dict ∧
      s'.clients = update s.clients c { s.clients c with watchedKeys := [] } := by
  induction wks generalizing s with
  | nil =>
    refine ⟨s, rfl, h, rfl, ?_⟩
    rw [← hown, update_eq_self]
  | cons wk wks ih =>
    have hmem : c ∈ (s.watchedKeys wk).getD [] := (h.listed c wk).mpr (by simp [hown])
    cases htable : s.watchedKeys wk with
    | none => simp [htable] at hmem
    | some clients =>
      rw [htable, getD_some] at hmem
      obtain ⟨s', hloop, hlinked, hdict, hclients⟩ := ih (h.unwatch hown htable) (by simp)
      refine ⟨s', ?_, hlinked, hdict, ?_⟩
      · simp only [unwatchLoop, htable, if_pos hmem]
        exact hloop
      · rw [hclients]
        simp [Server.setClient]

theorem unwatchAllKeys_linked (h : Linked s) (c : C) :
    ∃ s', unwatchAllKeys c s = some s' ∧ Linked s' ∧ s'.dict = s.dict ∧
      s'.clients = update s.clients c { s.clients c with watchedKeys := [] } :=
  unwatchLoop_linked _ h rfl

section

variable (h : Tracks s T)
include h

section

variable (dbnum : ℕ) (c : C)

theorem Tracks.watchForKey (key : K) :
    Tracks (watchForKey c s key) (T ++ [.watched c ⟨(s.clients c).db, key⟩]) := by
  have htouch : ∀ c', Touched c' (T ++ [.watched c ⟨(s.clients c).db, key⟩]) ↔ Touched c' T := by
    simp [touched_concat, Mark.Ends, Mark.Touches]
  have hrefuse : ∀ c', Refused c' (T ++ [.watched c ⟨(s.clients c).db, key⟩]) ↔ Refused c' T := by
    simp [refused_concat]
  simp only [Watch.watchForKey]
  split_ifs with hmem
  · refine ⟨h.linked, fun c' wk => ?_, fun c' => ?_, fun c' => ?_⟩
    · rw [watching_concat, h.own c' wk]
      refine ⟨fun hw => .inr ⟨hw, by simp [Mark.Ends]⟩, ?_⟩
      rintro (heq | hw)
      · obtain ⟨rfl, rfl⟩ := Mark.watched.inj heq
        exact (h.own c _).mp hmem
      · exact hw.1
    · rw [htouch]
      exact h.dirtyCas c'
    · rw [hrefuse]
      exact h.dirtyExec c'
  · refine ⟨h.linked.watch hmem, fun c' wk => ?_, fun c' => ?_, fun c' => ?_⟩
    · rw [watching_concat, ← h.own c' wk]
      by_cases hc : c' = c
      · subst hc
        simp [Mark.Ends, or_comm, eq_comm]
      · simp [setClient_of_ne hc, Mark.Ends, Ne.symm hc]
    · rw [htouch, ← h.dirtyCas]
      by_cases hc : c' = c
      · subst hc
        simp
      · simp [setClient_of_ne hc]
    · rw [hrefuse, ← h.dirtyExec]
      by_cases hc : c' = c
      · subst hc
        simp
      · simp [setClient_of_ne hc]

theorem Tracks.discardTransaction :
    ∃ s', discardTransaction c s = some s' ∧ Tracks s' (T ++ [.ended c]) ∧ s'.dict = s.dict := by
  obtain ⟨s', hs', hlinked, hdict, hclients⟩ :=
    unwatchAllKeys_linked (h.linked.setClient (c := c)
      (f := fun cl => { cl with commands := [], multi := false, dirtyCas := false, dirtyExec := false }) fun _ => rfl) c
  refine ⟨s', hs', ?_, hdict⟩
  rw [setClient_self] at hclients
  exact h.ended hlinked _ rfl rfl rfl (hclients.trans (update_idem ..))

/-! ### Commands -/

theorem Tracks.call (cmd : Command K) : ∃ s', cmd.call dbnum c s = some s' ∧ Tracks s' (T ++ cmd.marks c s) := by
  cases cmd with
  | select id =>
    refine ⟨_, rfl, ?_⟩
    rw [Command.marks, append_nil, selectDb]
    split_ifs
    · exact h
    · exact h.setClient (fun _ => rfl) (fun _ => rfl) fun _ => rfl
  | unwatch =>
    obtain ⟨s', hs', hlinked, hdict, hclients⟩ := unwatchAllKeys_linked h.linked c
    refine ⟨_, congrArg (Option.map _) hs', h.unwatched (hlinked.setClient fun _ => rfl) ?_⟩
    simp [Server.setClient, hclients]
  | flushdb => exact ⟨_, rfl,
      (h.touchWatchedKeysOnFlush _).same ⟨rfl, fun _ => rfl, fun _ => rfl, fun _ => rfl⟩⟩
  | flushall => exact ⟨_, rfl,
      (h.touchWatchedKeysOnFlush _).same ⟨rfl, fun _ => rfl, fun _ => rfl, fun _ => rfl⟩⟩
  | other actions =>
    refine ⟨_, rfl, ?_⟩
    rw [Command.marks]
    induction actions generalizing s T with
    | nil => simpa using h
    | cons a actions ih =>
      rw [foldl_cons, flatMap_cons, ← append_assoc]
      cases a with
      | signalModifiedKey wk => exact ih (h.touchWatchedKey wk)
      | dict wk present =>
        rw [Action.marks, append_nil]
        exact ih (h.same ⟨rfl, fun _ => rfl, fun _ => rfl, fun _ => rfl⟩)

theorem Tracks.callAll (cmds : List (Command K)) :
    ∃ s', callAll dbnum c cmds s = some s' ∧ Tracks s' (T ++ queueMarks dbnum c cmds s) := by
  induction cmds generalizing s T with
  | nil => exact ⟨s, rfl, by simpa [queueMarks] using h⟩
  | cons cmd cmds ih =>
    obtain ⟨s1, hcall, h1⟩ := h.call dbnum c cmd
    obtain ⟨s2, hall, h2⟩ := ih h1
    refine ⟨s2, by rw [Watch.callAll, hcall, bind_some, hall], ?_⟩
    rw [queueMarks, hcall, elim_some, ← append_assoc]
    exact h2

theorem Tracks.execCommand (hmulti : (s.clients c).multi = true) :
    ∃ s' reply, execCommand dbnum c s = some (s', reply) ∧ Tracks s' (T ++ execMarks dbnum c s) ∧
      ((s.clients c).dirtyExec = true ∧ reply = .execaborterr ∧ s'.dict = s.dict ∨
        (s.clients c).dirtyExec = false ∧ (s.clients c).dirtyCas = true ∧ reply = .nullmultibulk ∧
        s'.dict = s.dict ∨ (s.clients c).dirtyExec = false ∧ (s.clients c).dirtyCas = false ∧
          reply = .multibulk (s.clients c).commands.length) := by
  by_cases hdirty : (s.clients c).dirtyCas = true ∨ (s.clients c).dirtyExec = true
  · obtain ⟨s', hs', htracks, hdict⟩ := h.discardTransaction c
    refine ⟨s', if (s.clients c).dirtyExec then .execaborterr else .nullmultibulk, ?_, ?_, ?_⟩
    · simp [Watch.execCommand, hmulti, hdirty, hs']
    · simpa [execMarks, hmulti, hdirty] using htracks
    · cases hexec : (s.clients c).dirtyExec with
      | true => exact .inl ⟨rfl, rfl, hdict⟩
      | false => exact .inr (.inl ⟨rfl, hdirty.resolve_right (by simp [hexec]), rfl, hdict⟩)
  · rw [not_or, Bool.not_eq_true, Bool.not_eq_true] at hdirty
    obtain ⟨s1, hs1, hlinked, -, hclients⟩ := unwatchAllKeys_linked h.linked c
    have h1 : Tracks s1 (T ++ [.unwatched c]) := h.unwatched hlinked (by rw [hclients, ← hdirty.1])
    obtain ⟨s2, hs2, h2⟩ := h1.callAll dbnum c (s.clients c).commands
    obtain ⟨s3, hs3, h3, -⟩ := h2.discardTransaction c
    refine ⟨s3, .multibulk (s.clients c).commands.length, ?_, ?_, .inr (.inr ⟨hdirty.2, hdirty.1, rfl⟩)⟩
    · simp [Watch.execCommand, hmulti, hdirty, hs1, hs2, hs3]
    · simpa [execMarks, hmulti, hdirty, hs1, append_assoc] using h3

theorem Tracks.watchAll (keys : List K) :
    Tracks (keys.foldl (Watch.watchForKey c) s) (T ++ keys.map fun key => .watched c ⟨(s.clients c).db, key⟩) := by
  induction keys generalizing s T with
  | nil => simpa using h
  | cons key keys ih =>
    have hdb : ((Watch.watchForKey c s key).clients c).db = (s.clients c).db := by
      simp only [Watch.watchForKey]
      split_ifs
      · rfl
      · simp
    have hrest := ih (h.watchForKey c key)
    rw [hdb] at hrest
    rw [foldl_cons, map_cons, ← singleton_append, ← append_assoc]
    exact hrest

theorem Tracks.processCommand (r : Request K) :
    ∃ s' reply, processCommand dbnum c s r = some (s', reply) ∧ Tracks s' (T ++ r.marks dbnum c s) := by
  cases r with
  | watch keys =>
    refine ⟨(watchCommand c keys s).1, (watchCommand c keys s).2, rfl, ?_⟩
    by_cases hmulti : (s.clients c).multi = true
    · simpa [watchCommand, Request.marks, hmulti] using h
    · simpa [watchCommand, Request.marks, hmulti] using h.watchAll c keys
  | multi =>
    refine ⟨(multiCommand c s).1, (multiCommand c s).2, rfl, ?_⟩
    rw [Request.marks, append_nil]
    by_cases hmulti : (s.clients c).multi = true
    · simpa [multiCommand, hmulti] using h
    · simp only [multiCommand, if_neg hmulti]
      exact h.setClient (fun _ => rfl) (fun _ => rfl) fun _ => rfl
  | exec =>
    by_cases hmulti : (s.clients c).multi = true
    · obtain ⟨s', reply, hs', htracks, -⟩ := h.execCommand dbnum c hmulti
      exact ⟨s', reply, hs', htracks⟩
    · refine ⟨s, .error "EXEC without MULTI", if_pos hmulti, ?_⟩
      simpa [Request.marks, execMarks, hmulti] using h
  | discard =>
    by_cases hmulti : (s.clients c).multi = true
    · obtain ⟨s', hs', htracks, -⟩ := h.discardTransaction c
      exact ⟨s', .ok, by simp [Watch.processCommand, discardCommand, hmulti, hs'],
        by simpa [Request.marks, hmulti] using htracks⟩
    · refine ⟨s, .error "DISCARD without MULTI", if_neg hmulti, ?_⟩
      simpa [Request.marks, hmulti] using h
  | command cmd =>
    by_cases hmulti : (s.clients c).multi = true
    · refine ⟨_, _, if_pos hmulti, ?_⟩
      rw [Request.marks, if_pos hmulti, append_nil]
      exact h.setClient (fun _ => rfl) (fun _ => rfl) fun _ => rfl
    · obtain ⟨s', hs', htracks⟩ := h.call dbnum c cmd
      exact ⟨s', .command, by simp [Watch.processCommand, hmulti, hs'],
        by simpa [Request.marks, hmulti] using htracks⟩
  | refused => exact ⟨_, _, rfl, h.flagTransaction c⟩

theorem Tracks.exec (e : Event C K) : ∃ s', e.exec dbnum s = some s' ∧ Tracks s' (T ++ e.marks dbnum s) := by
  cases e with
  | request c r =>
    obtain ⟨s', reply, hs', htracks⟩ := h.processCommand dbnum c r
    exact ⟨s', by simp [Event.exec, hs'], htracks⟩
  | disconnect c =>
    obtain ⟨s', hs', hlinked, -, hclients⟩ := unwatchAllKeys_linked h.linked c
    refine ⟨s'.setClient c fun _ => createClient, by simp [Event.exec, freeClient, hs'], ?_⟩
    refine h.ended (hlinked.of_lists rfl fun c' => ?_) createClient rfl rfl rfl (by simp [Server.setClient, hclients])
    by_cases hc : c' = c
    · subst hc
      simp [hclients, createClient]
    · rw [setClient_of_ne hc]

end

end

/-! ### Runs -/

variable (dbnum : ℕ) (dict : WatchedKey K → Bool) (es : List (Event C K))

/-- The server does not end, and its lists and flags say what the trace says. -/
theorem run_tracks : ∃ s, (run dbnum dict es).1 = some s ∧ Tracks s (run dbnum dict es).2 := by
  have hstep : ∀ (o : Option (Server C K)) T e, (∃ s, o = some s ∧ Tracks s T) → True →
      ∃ s, (step dbnum e o).1 = some s ∧ Tracks s (T ++ (step dbnum e o).2) := by
    rintro o T e ⟨s, rfl, htracks⟩ -
    exact htracks.exec dbnum e
  have hinv := Machine.trace_invariant (I := fun o T => ∃ s : Server C K, o = some s ∧ Tracks s T) hstep
    ⟨Server.start dict, rfl, tracks_start dict⟩ (Machine.along_true es _)
  simpa [run] using hinv

theorem refused_notMem_queue (c c' : C) (cmds : List (Command K)) (s : Server C K) :
    .refused c' ∉ queueMarks dbnum c cmds s := by
  induction cmds generalizing s with
  | nil => simp [queueMarks]
  | cons cmd cmds ih =>
    rw [queueMarks, mem_append, not_or]
    refine ⟨refused_notMem_call c c' s cmd, ?_⟩
    cases cmd.call dbnum c s with
    | none => simp
    | some s1 => exact ih s1

theorem of_refused_mem {dbnum : ℕ} {e : Event C K} (h : .refused c ∈ e.marks dbnum s) :
    e = .request c .refused := by
  cases e with
  | disconnect c' => simp [Event.marks] at h
  | request c' r =>
    cases r with
    | watch keys =>
      simp only [Event.marks, Request.marks] at h
      split_ifs at h <;> simp at h
    | multi => simp [Event.marks, Request.marks] at h
    | exec =>
      simp only [Event.marks, Request.marks, execMarks] at h
      split_ifs at h
      · simp at h
      · cases hs : unwatchAllKeys c' s with
        | none => simp [hs] at h
        | some s1 => simp [hs, refused_notMem_queue] at h
      · cases h
    | discard =>
      simp only [Event.marks, Request.marks] at h
      split_ifs at h <;> simp at h
    | command cmd =>
      simp only [Event.marks, Request.marks] at h
      split_ifs at h
      · cases h
      · exact absurd h (refused_notMem_call c' c s cmd)
    | refused =>
      simp only [Event.marks, Request.marks] at h
      split_ifs at h
      · obtain rfl : c = c' := by simpa using h
        rfl
      · cases h

theorem refused_mem_run {dbnum : ℕ} {es : List (Event C K)} {o : Option (Server C K)}
    (h : .refused c ∈ (Machine.run (step dbnum) es o).2) : .request c .refused ∈ es := by
  induction es generalizing o with
  | nil => cases h
  | cons e es ih =>
    rw [Machine.run, mem_append] at h
    rcases h with h | h
    · cases o with
      | none => cases h
      | some s => exact mem_cons.mpr (.inl (of_refused_mem h).symm)
    · exact mem_cons_of_mem _ (ih h)

/-- After any events: the lists agree, the assertion has not failed, and an `EXEC` of any client
inside a transaction replies nil, and executes nothing, exactly when a key that it watches was
touched. A request that was refused inside the transaction changes the reply to `EXECABORT`. -/
theorem watch_sound_exact :
    ∃ s, (run dbnum dict es).1 = some s ∧ (∀ c wk, c ∈ (s.watchedKeys wk).getD [] ↔
      wk ∈ (s.clients c).watchedKeys) ∧
      ∀ c, (s.clients c).multi = true → ∃ s' reply, execCommand dbnum c s = some (s', reply) ∧
          ((∀ c, .request c .refused ∉ es) → (reply = .nullmultibulk ↔ Touched c (run dbnum dict es).2)) ∧
          (reply = .nullmultibulk ↔ Touched c (run dbnum dict es).2 ∧ ¬ Refused c (run dbnum dict es).2) ∧
          (reply = .execaborterr ↔ Refused c (run dbnum dict es).2) ∧
          (reply = .multibulk (s.clients c).commands.length ∨ s'.dict = s.dict) := by
  obtain ⟨s, hs, htracks⟩ := run_tracks dbnum dict es
  refine ⟨s, hs, htracks.linked.listed, fun c hmulti => ?_⟩
  obtain ⟨s', reply, hexec, -, hends⟩ := htracks.execCommand dbnum c hmulti
  refine ⟨s', reply, hexec, fun hserved => ?_, ?_, ?_, ?_⟩
  · have hnot : (s.clients c).dirtyExec ≠ true := by
      rw [Ne, htracks.dirtyExec]
      intro hrefused
      obtain ⟨m, hm, rfl⟩ := hrefused.mem
      exact hserved c (refused_mem_run hm)
    rw [← htracks.dirtyCas]
    rcases hends with ⟨hd, -⟩ | ⟨-, hcas, rfl, -⟩ | ⟨-, hcas, rfl⟩
    · exact absurd hd hnot
    · simp [hcas]
    · simp [hcas]
  · rw [← htracks.dirtyCas, ← htracks.dirtyExec]
    rcases hends with ⟨hd, rfl, -⟩ | ⟨hd, hcas, rfl, -⟩ | ⟨hd, hcas, rfl⟩ <;> simp [*]
  · rw [← htracks.dirtyExec]
    rcases hends with ⟨hd, rfl, -⟩ | ⟨hd, hcas, rfl, -⟩ | ⟨hd, hcas, rfl⟩ <;> simp [*]
  · rcases hends with ⟨-, -, hdict⟩ | ⟨-, -, -, hdict⟩ | ⟨-, -, hreply⟩
    · exact .inr hdict
    · exact .inr hdict
    · exact .inl hreply

/-- A key that another client modifies, and one that does not exist when all is flushed. -/
example :
    let run := fun cmd => ((run 16 (fun _ => false) [.request 0 (.watch [7]), .request 1 (.command cmd),
      .request 0 .multi] : Option (Server ℕ ℕ) × _).1.bind (execCommand 16 0)).map Prod.snd
    run (.other [.signalModifiedKey ⟨0, 7⟩]) = some .nullmultibulk ∧
      run .flushall = some (.multibulk 0) := by decide

end RedisIR.Watch
