import RedisIR.Proofs.Folding
import RedisIR.Spec.Restorer

/-! What each step of the loader thread does when its cursor stands before the groups of
some keys, and that it comes to an end. -/

namespace RedisIR

open CLib List

variable {ks : List CStr}

/-! ### The block of `valueIR` -/

section Block

variable {usable : ℕ → ℕ} {records : List CStr} {m : Allocator} {x : Sds × Bool} {y : Sds}

theorem incrText_length (x : Option Bytes) : (incrText x).length ≤ 11 := by
  obtain ⟨h1, h2⟩ := wrapInt_range (atoi (x.getD zeroText) + 1)
  unfold incrText decimal
  split_ifs
  · exact Nat.succ_le_succ (natDecimal_length_le (k := 10) (by omega) (by norm_num))
  · exact (natDecimal_length_le (k := 10) (by omega) (by norm_num)).trans (by norm_num)

theorem le_room (henough : ∀ n, n ≤ usable n) (len : ℕ) : len ≤ room usable len := by
  have := henough (sdsHdrSize len + len + 1)
  unfold room
  omega

/-- The fold that tells whether the texts fit is the fold of the values. -/
theorem replayFits_text (x : Sds × Bool) (data : CStr) :
    (Sds.replayFits usable x data).1.text = replayRecord x.1.text data := by
  unfold Sds.replayFits replayRecord sdsnew
  split_ifs <;> rfl

theorem foldl_replayFits_text (x : Sds × Bool) :
    (records.foldl (Sds.replayFits usable) x).1.text = records.foldl replayRecord x.1.text := by
  induction records generalizing x with
  | nil => rfl
  | cons d ds ih => rw [foldl_cons, ih, replayFits_text, foldl_cons]

/-- A text is not longer than the one that the block was made for, or it is that of an `int`. If
all texts fit, it fits. -/
def Sds.Sized (usable : ℕ → ℕ) (x : Sds × Bool) : Prop :=
  x.1.text.length ≤ max x.1.len 11 ∧ (x.2 = true → x.1.text.length ≤ room usable x.1.len)

theorem Sds.sized_new (henough : ∀ n, n ≤ usable n) (text : Bytes) : Sds.Sized usable (sdsnew text, true) :=
  ⟨le_max_left _ _, fun _ => le_room henough _⟩

theorem Sds.Sized.replay (henough : ∀ n, n ≤ usable n) (h : Sds.Sized usable x) (data : CStr) :
    Sds.Sized usable (Sds.replayFits usable x data) := by
  unfold Sds.replayFits
  split_ifs
  · exact Sds.sized_new henough _
  · exact ⟨(incrText_length _).trans (le_max_right _ _), by simp⟩
  · exact h

theorem sized_foldl (henough : ∀ n, n ≤ usable n) (records : List CStr) (h : Sds.Sized usable x) :
    Sds.Sized usable (records.foldl (Sds.replayFits usable) x) := by
  induction records generalizing x with
  | nil => exact h
  | cons d ds ih => exact ih (h.replay henough d)

/-- What a loader holds: the right text as long as all texts fit, and in any case the block. -/
def Sds.Holds (y : Sds) (x : Sds × Bool) : Prop := y.len = x.1.len ∧ (x.2 = true → y.text = x.1.text)

theorem Sds.holds_new (text : Bytes) : (sdsnew text).Holds (sdsnew text, true) := ⟨rfl, fun _ => rfl⟩

theorem Sds.Holds.replay (overrun : Bytes → Bytes) (h : y.Holds x) (data : CStr) :
    (y.replayRecord usable overrun data).Holds (Sds.replayFits usable x data) := by
  obtain ⟨hlen, htext⟩ := h
  unfold Sds.replayRecord Sds.replayFits
  split_ifs
  · exact ⟨rfl, fun _ => rfl⟩
  · refine ⟨hlen, fun hfits => ?_⟩
    simp only [Bool.and_eq_true, decide_eq_true_eq] at hfits
    simp only [Sds.sprintf, htext hfits.1, hlen, if_pos hfits.2]
  · exact ⟨hlen, htext⟩

theorem holds_foldl (overrun : Bytes → Bytes) (records : List CStr) (h : y.Holds x) :
    (records.foldl (Sds.replayRecord usable overrun) y).Holds (records.foldl (Sds.replayFits usable) x) := by
  induction records generalizing x y with
  | nil => exact h
  | cons d ds ih => exact ih (h.replay overrun d)

/-- The text that the incremental loader makes of the records of a key. -/
def Allocator.loaderValue (m : Allocator) (records : List CStr) : Bytes :=
  (records.foldl (Sds.replayRecord m.usable m.loader) (sdsnew zeroText)).text

theorem loaderValue_eq (h : TextsFit m.usable records) :
    m.loaderValue records = records.foldl replayRecord zeroText := by
  have hholds := @holds_foldl m.usable _ _ m.loader records (Sds.holds_new zeroText)
  rw [Allocator.loaderValue, hholds.2 h, foldl_replayFits_text]
  rfl

/-- The copy of a text that fits into the block of `valueIR` fits into its own block. -/
theorem copy_fits (h : Sds.Sized m.usable x) (hfits : x.2 = true) :
    x.1.text.length < m.usable (x.1.len + 5) := by
  have hroom := h.2 hfits
  have hmax := h.1
  have henough := m.enough (x.1.len + 5)
  have hmono : sdsHdrSize x.1.len ≤ 4 → m.usable (sdsHdrSize x.1.len + x.1.len + 1) ≤ m.usable (x.1.len + 5) :=
    fun hhdr => m.mono (by omega)
  have hlarge := m.enough (sdsHdrSize x.1.len + x.1.len + 1)
  have hhdr : sdsHdrSize x.1.len ≤ 4 ∨ 2 ^ 8 ≤ x.1.len := by
    unfold sdsHdrSize
    split_ifs <;> omega
  unfold room at hroom
  omega

theorem onDemandValue_eq (h : TextsFit m.usable records) :
    m.onDemandValue records = records.foldl replayRecord zeroText := by
  have hholds := @holds_foldl m.usable _ _ m.onDemand records (Sds.holds_new zeroText)
  have hcopy := copy_fits (sized_foldl m.enough records (Sds.sized_new m.enough zeroText)) h
  rw [Allocator.onDemandValue]
  simp only [hholds.1, hholds.2 h, if_pos hcopy]
  rw [foldl_replayFits_text]
  rfl

/-! A text that has run over its block may be any. One of eleven characters runs over it again with
the next `INCR`, so a loader that reads it once keeps it. -/

/-- The text of one of the two least `int`s. -/
def leastText (second : Bool) : Bytes := decimal (-2 ^ 31 + if second then 1 else 0)

theorem leastText_length (second : Bool) :
    (leastText second).length = 11 ∧ (incrText (some (leastText second))).length = 11 := by
  revert second
  decide +kernel

def Sds.Keeps (usable : ℕ → ℕ) (text : Bytes) (y : Sds) (x : Sds × Bool) : Prop :=
  y.Holds x ∧ (x.2 = false → y.text = text ∧ room usable y.len < 11)

theorem Sds.Keeps.replay {second : Bool} (h : y.Keeps usable (leastText second) x)
    (data : CStr) : (y.replayRecord usable (fun _ => leastText second) data).Keeps usable (leastText second)
      (Sds.replayFits usable x data) := by
  refine ⟨h.1.replay _ data, ?_⟩
  obtain ⟨⟨hlen, htext⟩, hkeep⟩ := h
  unfold Sds.replayRecord Sds.replayFits
  split_ifs
  · simp
  · intro hover
    simp only [Bool.and_eq_false_iff, decide_eq_false_iff_not, not_le] at hover
    have hlong : room usable y.len < (incrText (some y.text)).length ∧ room usable y.len < 11 := by
      by_cases hx : x.2 = true
      · have hroom := hover.resolve_left (by simp [hx])
        rw [hlen, htext hx]
        exact ⟨hroom, hroom.trans_le (incrText_length _)⟩
      · obtain ⟨hy, hroom⟩ := hkeep (by simpa using hx)
        rw [hy, (leastText_length second).2]
        exact ⟨hroom, hroom⟩
    simp only [Sds.sprintf, if_neg (Nat.not_le.mpr hlong.1), true_and]
    exact hlong.2
  · exact hkeep

theorem keeps_foldl {second : Bool} (records : List CStr)
    (h : y.Keeps usable (leastText second) x) :
    (records.foldl (Sds.replayRecord usable fun _ => leastText second) y).Keeps usable (leastText second)
      (records.foldl (Sds.replayFits usable) x) := by
  induction records generalizing x y with
  | nil => exact h
  | cons d ds ih => exact ih (h.replay d)

/-- The same blocks, with other memory behind them. -/
def Allocator.reading (m : Allocator) (onDemand loader : Bool) : Allocator :=
  { m with onDemand := fun _ => leastText onDemand, loader := fun _ => leastText loader }

theorem overrun_text {second : Bool} (h : ¬ TextsFit usable records) :
    (records.foldl (Sds.replayRecord usable fun _ => leastText second) (sdsnew zeroText)).text = leastText second :=
  ((keeps_foldl records ⟨Sds.holds_new zeroText, by simp⟩).2 (by simpa [TextsFit] using h)).1

theorem reading_loaderValue (onDemand loader : Bool) (h : ¬ TextsFit m.usable records) :
    (m.reading onDemand loader).loaderValue records = leastText loader := overrun_text h

theorem reading_onDemandValue (onDemand loader : Bool) (h : ¬ TextsFit m.usable records) :
    (m.reading onDemand loader).onDemandValue records = leastText onDemand := by
  simp only [Allocator.onDemandValue, Allocator.reading, overrun_text h, ite_self]

theorem leastText_ne : leastText false ≠ leastText true := by
  decide +kernel

/-- What both loaders have in common: they read the value of the records if the texts fit, and
whatever lies behind the block if not. -/
structure Loads (value : Allocator → List CStr → Bytes) : Prop where
  eq : ∀ {m : Allocator} {records : List CStr}, TextsFit m.usable records →
    value m records = records.foldl replayRecord zeroText
  differs : ∀ {m : Allocator} {records : List CStr}, ¬ TextsFit m.usable records →
    ∃ m₁ m₂ : Allocator, m₁.usable = m.usable ∧ m₂.usable = m.usable ∧
      value m₁ records ≠ value m₂ records

theorem loads_loader : Loads Allocator.loaderValue := by
  refine ⟨loaderValue_eq, fun {m _} h => ⟨m.reading false false, m.reading false true, rfl, rfl, ?_⟩⟩
  rw [reading_loaderValue false false h, reading_loaderValue false true h]
  exact leastText_ne

theorem loads_onDemand : Loads Allocator.onDemandValue := by
  refine ⟨onDemandValue_eq, fun {m _} h => ⟨m.reading false false, m.reading true false, rfl, rfl, ?_⟩⟩
  rw [reading_onDemandValue false false h, reading_onDemandValue true false h]
  exact leastText_ne

theorem ne_nil_of_not_fits (h : ¬ TextsFit usable records) : records ≠ [] := by
  rintro rfl
  exact h rfl

theorem Roomy.get {idx : IndexedLog} (h : Roomy usable idx) (k : CStr) : TextsFit usable (idx.get k) := by
  by_cases hk : idx.get k = []
  · rw [hk]
    rfl
  · obtain ⟨d, hd⟩ := exists_mem_of_ne_nil _ hk
    obtain ⟨e, he, rfl⟩ := mem_map.mp hd
    obtain ⟨hmem, hkey⟩ := mem_filter.mp he
    rw [← of_decide_eq_true hkey]
    exact h e hmem

end Block

/-! ### Reading a group -/

theorem scan_cons (idx : IndexedLog) (k : CStr) (ks : List CStr) :
    idx.scan (k :: ks) = (idx.get k).map (fun d => (k, d)) ++ idx.scan ks := rfl

theorem mem_keys_scan {idx : IndexedLog} (h : ∀ k ∈ ks, idx.get k ≠ []) (k : CStr) :
    k ∈ (idx.scan ks).map Prod.fst ↔ k ∈ ks := by
  induction ks with
  | nil => simp [Multimap.scan]
  | cons k' ks ih =>
    obtain ⟨d, ds, hd⟩ := exists_cons_of_ne_nil (h k' (by simp))
    have hmem : k ∈ ((idx.get k').map fun d => (k', d)).map Prod.fst ↔ k = k' := by
      simp [hd]
    rw [scan_cons, map_append, mem_append, hmem, ih (forall_mem_cons.mp h).2, mem_cons]

variable (m : Allocator)

theorem readGroup_group (k : CStr) (ds : List CStr) {rest : List (CStr × CStr)}
    (hrest : k ∉ rest.map Prod.fst) (l : Loader) :
    Loader.readGroup m k (ds.map (fun d => (k, d)) ++ rest) l =
      { ds.foldl (fun l d => l.readRecord m k d) l with rest := rest } := by
  induction ds generalizing l with
  | nil =>
    cases rest with
    | nil => rfl
    | cons e rest =>
      have hne : ¬ e.1 = k := by
        rintro rfl
        simp at hrest
      simp [Loader.readGroup, hne]
  | cons d ds ih => simpa [Loader.readGroup] using ih (l.readRecord m k d)

theorem foldl_readRecord (k : CStr) (ds : List CStr) (hne : ds ≠ [])
    (hds : ∀ d ∈ ds, recordCommand d = SET_COMMAND ∨ recordCommand d = INCR_COMMAND) (l : Loader) :
    ds.foldl (fun l d => l.readRecord m k d) l =
      { l with
        commandIR := SET_COMMAND
        keyIR := k
        valueIR := ds.foldl (Sds.replayRecord m.usable m.loader) l.valueIR } := by
  induction ds generalizing l with
  | nil => exact absurd rfl hne
  | cons d ds ih =>
    have hd : l.readRecord m k d =
        { l with
          commandIR := SET_COMMAND
          keyIR := k
          valueIR := l.valueIR.replayRecord m.usable m.loader d } :=
      if_pos (hds d (by simp))
    by_cases hds' : ds = []
    · subst hds'
      exact hd
    · rw [foldl_cons, ih hds' fun d' hd' => hds d' (by simp [hd']), hd]
      rfl

theorem redoable_get {idx : IndexedLog} (h : Redoable idx) (k : CStr) :
    ∀ d ∈ idx.get k, recordCommand d = SET_COMMAND ∨ recordCommand d = INCR_COMMAND := by
  intro d hd
  obtain ⟨e, he, rfl⟩ := mem_map.mp hd
  exact h e (mem_filter.mp he).1

/-! ### Steps -/

section Steps

variable {idx : IndexedLog} {s : Server} {k : CStr} {rest : List (CStr × CStr)}

theorem loaderStep_start (hpc : s.loader.pc = .start) :
    loaderStep idx s = { s with performing := true, loader := { s.loader with pc := .scan } } := by
  rw [loaderStep, hpc]

theorem loaderStep_scan_nil (hpc : s.loader.pc = .scan) (hrest : s.loader.rest = []) :
    loaderStep idx s = { s with loader := { s.loader with pc := .clear } } := by
  rw [loaderStep, hpc, hrest]

variable (hrest : s.loader.rest = (idx.get k).map (fun d => (k, d)) ++ rest) (hk : idx.get k ≠ [])
  (hks : k ∉ rest.map Prod.fst)

include hrest hk hks in
theorem loaderStep_scan_read (hpc : s.loader.pc = .scan)
    (hds : ∀ d ∈ idx.get k, recordCommand d = SET_COMMAND ∨ recordCommand d = INCR_COMMAND)
    (hnot : k ∉ s.restored) : loaderStep idx s = { s with
      loader := ⟨.send, rest, SET_COMMAND, k,
        (idx.get k).foldl (Sds.replayRecord s.allocator.usable s.allocator.loader) (sdsnew zeroText)⟩ } := by
  have hgroup := readGroup_group s.allocator k (idx.get k) hks { s.loader with valueIR := sdsnew zeroText }
  rw [foldl_readRecord s.allocator k _ hk hds] at hgroup
  obtain ⟨d, ds, hd⟩ := exists_cons_of_ne_nil hk
  rw [hd] at hrest hgroup ⊢
  rw [map_cons, cons_append] at hrest hgroup
  rw [loaderStep, hpc, hrest]
  simp [isRestoredTuple, hnot, hgroup]

include hrest hk hks in
theorem loaderStep_scan_skip (hpc : s.loader.pc = .scan) (hres : k ∈ s.restored) :
    loaderStep idx s = { s with loader := { s.loader with rest := rest } } := by
  obtain ⟨d, ds, hd⟩ := exists_cons_of_ne_nil hk
  have hdrop : (ds.map (fun d => (k, d)) ++ rest).dropWhile (fun e => e.1 = k) = rest := by
    rw [dropWhile_append_of_pos (by simp)]
    cases rest with
    | nil => rfl
    | cons e rest =>
      have hne : ¬ e.1 = k := by
        rintro rfl
        simp at hks
      simp [hne]
  rw [hd, map_cons, cons_append] at hrest
  rw [loaderStep, hpc, hrest]
  simp [isRestoredTuple, hres, decide_true, hdrop]

theorem loaderStep_send (hpc : s.loader.pc = .send) :
    loaderStep idx s = { s with
      db := (setIRCommand s.loader.keyIR.val s.loader.valueIR.text s.db).db
      loader := { s.loader with pc := .mark } } := by
  rw [loaderStep, hpc]
  rfl

theorem loaderStep_mark (hpc : s.loader.pc = .mark) :
    loaderStep idx s = { s with
      restored := s.loader.keyIR :: s.restored
      loader := { s.loader with pc := .scan } } := by
  rw [loaderStep, hpc]
  rfl

theorem loaderStep_clear (hpc : s.loader.pc = .clear) :
    loaderStep idx s = { s with restored := [], loader := { s.loader with pc := .lower } } := by
  rw [loaderStep, hpc]
  rfl

theorem loaderStep_lower (hpc : s.loader.pc = .lower) :
    loaderStep idx s = { s with performing := false, loader := { s.loader with pc := .done } } := by
  rw [loaderStep, hpc]

theorem loaderStep_done (hpc : s.loader.pc = .done) : loaderStep idx s = s := by
  rw [loaderStep, hpc]

end Steps

/-! ### Termination -/

/-- How many steps the loader has still to make, at most, with `n` records before it. -/
def LoaderPc.togo (n : ℕ) : LoaderPc → ℕ
  | .start => 3 * n + 4
  | .scan => 3 * n + 3
  | .send => 3 * n + 5
  | .mark => 3 * n + 4
  | .clear => 2
  | .lower => 1
  | .done => 0

def Loader.togo (l : Loader) : ℕ := l.pc.togo l.rest.length

theorem readGroup_length (k : CStr) (rest : List (CStr × CStr)) (l : Loader) :
    (Loader.readGroup m k rest l).rest.length ≤ rest.length := by
  induction rest generalizing l with
  | nil => simp [Loader.readGroup]
  | cons e rest ih =>
    obtain ⟨k', d⟩ := e
    rw [Loader.readGroup]
    split_ifs
    · exact (ih _).trans (by simp)
    · simp

theorem readGroup_length_cons (k d : CStr) (rest : List (CStr × CStr)) (l : Loader) :
    (Loader.readGroup m k ((k, d) :: rest) l).rest.length ≤ rest.length := by
  rw [Loader.readGroup, if_pos rfl]
  exact readGroup_length ..

theorem togo_eq_zero (l : Loader) : l.togo = 0 ↔ l.pc = .done := by
  unfold Loader.togo
  cases l.pc <;> simp [LoaderPc.togo]

theorem loaderStep_togo (idx : IndexedLog) (s : Server) (h : s.loader.togo ≠ 0) :
    (loaderStep idx s).loader.togo < s.loader.togo := by
  cases hpc : s.loader.pc with
  | start => simp [loaderStep_start hpc, Loader.togo, hpc, LoaderPc.togo]
  | scan =>
    cases hrest : s.loader.rest with
    | nil => simp [loaderStep_scan_nil hpc hrest, Loader.togo, hpc, LoaderPc.togo]
    | cons e rest =>
      obtain ⟨k, d⟩ := e
      have hskip := (dropWhile_sublist (fun e : CStr × CStr => decide (e.1 = k)) (l := rest)).length_le
      have hread := readGroup_length_cons s.allocator k d rest
        ⟨s.loader.pc, s.loader.rest, s.loader.commandIR, s.loader.keyIR, sdsnew zeroText⟩
      have hold : s.loader.togo = 3 * (rest.length + 1) + 3 := by
        rw [Loader.togo, hpc, hrest]
        rfl
      rw [hold, loaderStep, hpc, hrest]
      by_cases hres : isRestoredTuple s k
      · simp only [hres, if_true, Loader.togo, hpc, LoaderPc.togo]
        omega
      · simp only [hres, Bool.false_eq_true, if_false, Loader.togo]
        split_ifs <;> simp only [LoaderPc.togo] <;> omega
  | send => simp [loaderStep_send hpc, Loader.togo, hpc, LoaderPc.togo]
  | mark => simp [loaderStep_mark hpc, Loader.togo, hpc, LoaderPc.togo]
  | clear => simp [loaderStep_clear hpc, Loader.togo, hpc, LoaderPc.togo]
  | lower => simp [loaderStep_lower hpc, Loader.togo, hpc, LoaderPc.togo]
  | done => exact absurd ((togo_eq_zero _).mpr hpc) h

/-- From any state, that many steps without a client bring the loader to its end. -/
theorem loaderStep_iterate_done (idx : IndexedLog) (s : Server) {n : ℕ} (h : s.loader.togo ≤ n) :
    ((loaderStep idx)^[n] s).loader.pc = .done := by
  rw [← togo_eq_zero]
  refine Machine.iterate_measure (fun s hs => loaderStep_togo idx s hs) (fun s hs => ?_) h
  rw [loaderStep_done ((togo_eq_zero _).mp hs), hs]

/-! ### The two loaders -/

theorem setIRCommand_db (k v : Bytes) (db : Db) :
    (setIRCommand k v db).db = if db k = none then Function.update db k (some v) else db := by
  unfold setIRCommand setGenericCommand
  cases h : db k with
  | none => simp [setKey]
  | some w => simp

/-- The loader stands before the group of `k`, which is not restored yet. -/
def Server.Meets (idx : IndexedLog) (k : CStr) (s : Server) : Prop :=
  s.loader.pc = .scan ∧ k ∉ s.restored ∧
    ∃ rest, s.loader.rest = (idx.get k).map (fun d => (k, d)) ++ rest ∧ k ∉ rest.map Prod.fst

section Loaders

variable {idx : IndexedLog} {s u : Server} {k : CStr} (hk : idx.get k ≠ [])
  (hds : ∀ d ∈ idx.get k, recordCommand d = SET_COMMAND ∨ recordCommand d = INCR_COMMAND)

include hk hds in
theorem loader_installs (hs : s.Meets idx k) (hu : u.loader = (loaderStep idx s).loader) (hdb : u.db k.val = none) :
    (loaderStep idx u).db k.val = some (s.allocator.loaderValue (idx.get k)) := by
  obtain ⟨hpc, hnot, rest, hrest, hks⟩ := hs
  rw [loaderStep_scan_read hrest hk hks hpc hds hnot] at hu
  rw [loaderStep_send (by rw [hu]), hu]
  simp [setIRCommand_db, hdb, Allocator.loaderValue]

include hk in
theorem onDemand_installs (hdb : s.db k.val = none) :
    (loadRecordFromIndexedLog idx k s).1.db k.val = some (s.allocator.onDemandValue (idx.get k)) := by
  rw [loadRecordFromIndexedLog, if_neg hk]
  simp [addRestoredTuple, setIRCommand_db, hdb]

end Loaders

/-- Wherever the loader comes to the group of a key, whatever its variables hold by then and
whatever clients do before its `setIR`, a key that is still absent gets the value that a load on
demand gives it. This is so with any memory behind the blocks exactly if every text fits. -/
theorem loaders_agree_iff {idx : IndexedLog} {k : CStr} (hk : idx.get k ≠ [])
    (hds : ∀ d ∈ idx.get k, recordCommand d = SET_COMMAND ∨ recordCommand d = INCR_COMMAND) (m : Allocator) :
    (∀ s t u : Server, s.allocator.usable = m.usable → t.allocator = s.allocator → s.Meets idx k →
        u.loader = (loaderStep idx s).loader → u.db k.val = none → t.db k.val = none →
        ∃ v, (loaderStep idx u).db k.val = some v ∧ (loadRecordFromIndexedLog idx k t).1.db k.val = some v) ↔
      TextsFit m.usable (idx.get k) := by
  refine ⟨?_, ?_⟩
  · intro h
    by_contra hover
    let s := Server.recovering (m.reading false true) ((idx.get k).map fun d => (k, d))
    have hs : s.Meets idx k := ⟨rfl, not_mem_nil, [], (append_nil _).symm, not_mem_nil⟩
    have hu : (loaderStep idx s).db k.val = none := by
      rw [loaderStep_scan_read (append_nil _).symm hk not_mem_nil rfl hds not_mem_nil]
      rfl
    obtain ⟨v, hloader, honDemand⟩ := h s s _ rfl rfl hs rfl hu rfl
    rw [loader_installs hk hds hs rfl hu, Option.some.injEq] at hloader
    rw [onDemand_installs hk rfl, Option.some.injEq] at honDemand
    apply leastText_ne
    rw [← reading_onDemandValue false true hover, ← reading_loaderValue false true hover]
    exact honDemand.trans hloader.symm
  · intro h s t u hs ht hmeets hu hdb htdb
    rw [← hs] at h
    refine ⟨_, loader_installs hk hds hmeets hu hdb, ?_⟩
    rw [onDemand_installs hk htdb, ht, loaderValue_eq h, onDemandValue_eq h]

/-- The default build, for small blocks. When the loader reads `valueIR`, the block behind it has
the argument `n` of its `setIR`; a load on demand finds that block as it left it. -/
def jemalloc : Allocator where
  usable n := (n + 7) / 8 * 8
  enough n := by omega
  mono := fun a b h => Nat.mul_le_mul_right 8 (Nat.div_le_div_right (by omega))
  onDemand text := text
  loader text := text ++ [1, 2, 1, 110]

def setCounter : LogCmd := Op.logged (.set (ascii ['n']) (ascii ['9'])) (by decide)

def incrCounter : LogCmd := Op.logged (.incr (ascii ['n'])) (by decide)

/-- The counter `n`, set to nine and incremented once. -/
def nineIncr : IndexedLog := indexRecords Multimap.empty [setCounter, incrCounter]

theorem loaders_agree_counter : ∃ v,
    (loaderStep nineIncr (loaderStep nineIncr (.recovering jemalloc nineIncr.cursor))).db (ascii ['n']) = some v ∧
      (loadRecordFromIndexedLog nineIncr (cstr (ascii ['n'])) (.restarted jemalloc [])).1.db (ascii ['n']) =
        some v := by
  have hagree := (@loaders_agree_iff nineIncr (cstr (ascii ['n'])) (by decide +kernel)
    (by decide +kernel) jemalloc).mpr (by decide +kernel)
  have hmeets : (Server.recovering jemalloc nineIncr.cursor).Meets nineIncr (cstr (ascii ['n'])) :=
    ⟨rfl, not_mem_nil, [], by decide +kernel, not_mem_nil⟩
  exact hagree (.recovering jemalloc _) (.restarted jemalloc []) _ rfl rfl hmeets rfl (by decide +kernel) rfl

/-- The counter `n`, set to 999999 and incremented once. -/
def sixNines : LogCmd := Op.logged (.set (ascii ['n']) (ascii ['9', '9', '9', '9', '9', '9'])) (by decide)

def sixNinesIncr : IndexedLog := indexRecords Multimap.empty [sixNines, incrCounter]

/-- The block of six characters has no room for the zero behind the seventh. -/
theorem loaders_disagree :
    (loaderStep sixNinesIncr (loaderStep sixNinesIncr (.recovering jemalloc sixNinesIncr.cursor))).db (ascii ['n']) =
        some (decimal 1000000 ++ [1, 2, 1, 110]) ∧
      (loadRecordFromIndexedLog sixNinesIncr (cstr (ascii ['n'])) (.restarted jemalloc [])).1.db (ascii ['n']) =
        some (decimal 1000000) := by
  decide +kernel

end RedisIR
