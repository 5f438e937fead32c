import RedisIR.Proofs.Folding
import RedisIR.Proofs.Torn
import RedisIR.Spec.Indexer

/-! The online indexer on a log that grows between its rounds: whatever part of the file a
round sees, the commands go into the queue once each and in order, and from the queue into
the indexed log. -/

namespace RedisIR

open CLib List

variable {P R : List Entry} {done : List RecordToIndex} {mem : NodeMemory} {s : Indexer} {m : IndexedLog}
variable {n : ℕ} {polls : List Bytes}

/-! ### One command -/

/-- The variables `key` and `value`, which a command with fewer words leaves as they are. -/
structure Carried where
  key : CStr
  value : CStr

def Entry.carry (e : Entry) (v : Carried) : Carried where
  key := e.argv[1]?.elim v.key cstr
  value := e.argv[2]?.elim v.value cstr

/-- The variables after the commands `P`. -/
def carriedBy (P : List Entry) : Carried := P.foldl (fun v e => e.carry v) ⟨cstr [], cstr []⟩

theorem carriedBy_concat (P : List Entry) (e : Entry) : carriedBy (P ++ [e]) = e.carry (carriedBy P) := by
  simp [carriedBy]

/-- The command word in capitals, as far as `sdscpy` copies it. -/
def Entry.command (e : Entry) : CStr := cstr (sdstoupper (cstr (e.argv.getD 0 [])).val)

theorem indexerArgs_catBulk {a : Bytes} (ha : a.length < 2 ^ 63) (n j : ℕ) (rest : Bytes) (s : Indexer) :
    indexerArgs (n + 1) j (catBulk a ++ rest) s =
      indexerArgs n (j + 1) rest
        { s with
          seek := s.seek + (catBulk a).length
          command := if j = 0 then cstr (sdstoupper (cstr a).val) else s.command
          key := if j = 1 then cstr a else s.key
          value := if j = 2 then cstr a else s.value } := by
  rw [indexerArgs, readArg_catBulk ha]
  simp only [fread_crlf, Indexer.assign, length_catBulk ha, add_assoc]

theorem indexerArgs_args (args : List Bytes) (h : ∀ a ∈ args, a.length < 2 ^ 63) (j : ℕ) (rest : Bytes)
    (s : Indexer) :
    indexerArgs args.length j (args.flatMap catBulk ++ rest) s =
      ({ s with
         seek := s.seek + (args.flatMap catBulk).length
         command := if 0 < j then s.command else args[0]?.elim s.command fun a => cstr (sdstoupper (cstr a).val)
         key := if 1 < j then s.key else args[1 - j]?.elim s.key cstr
         value := if 2 < j then s.value else args[2 - j]?.elim s.value cstr }, .ok rest) := by
  induction args generalizing j s with
  | nil => simp [indexerArgs]
  | cons a args ih =>
    rw [flatMap_cons, append_assoc, length_cons, indexerArgs_catBulk (h a (by simp)),
      ih (forall_mem_cons.mp h).2]
    rcases j with _ | _ | _ | j <;> simp [add_assoc]

theorem Entry.indexerArgs_argv (e : Entry) (rest : Bytes) (s : Indexer) :
    indexerArgs e.argv.length 0 (e.argv.flatMap catBulk ++ rest) s =
      ({ s with
         seek := s.seek + (e.argv.flatMap catBulk).length
         command := e.command
         key := (e.carry ⟨s.key, s.value⟩).key
         value := (e.carry ⟨s.key, s.value⟩).value }, .ok rest) := by
  obtain ⟨w, args, hargv⟩ := exists_cons_of_ne_nil (ne_nil_of_length_pos e.argc_pos)
  rw [indexerArgs_args e.argv e.fits, Entry.command]
  simp [hargv, Entry.carry]

/-- A variable that word number `i` is assigned to keeps its value or is read again later. -/
theorem kept_or_reread {j i : ℕ} {x y z : CStr} (h : x = (if j = i then y else z) ∨ j + 1 ≤ i ∧ i < j + 1 + n) :
    x = z ∨ j ≤ i ∧ i < j + (n + 1) := by
  rcases h with rfl | h
  · by_cases hj : j = i
    · exact .inr (by omega)
    · exact .inl (if_neg hj)
  · exact .inr (by omega)

/-- The argument loop meets the end of the file. Only words that are read again with the
command can have changed the variables. -/
theorem indexerArgs_torn (args : List Bytes) (h : ∀ a ∈ args, a.length < 2 ^ 63) (j : ℕ) {p : Bytes}
    (hp : Torn p (args.flatMap catBulk)) (s : Indexer) :
    ∃ s', indexerArgs args.length j p s = (s', .error (.readerr true)) ∧ s'.pending = s.pending ∧
      s'.nodes = s.nodes ∧ s'.disk = s.disk ∧ (s'.key = s.key ∨ j ≤ 1 ∧ 1 < j + args.length) ∧
      (s'.value = s.value ∨ j ≤ 2 ∧ 2 < j + args.length) := by
  induction args generalizing j p s with
  | nil => exact absurd hp.length_lt (by simp)
  | cons a args ih =>
    rw [flatMap_cons] at hp
    rw [length_cons]
    rcases torn_append_cases hp with ha | ⟨q, rfl, hq⟩
    · rcases readArg_torn (h a (by simp)) ha with herr | ⟨buf, arg, inp, hok, hcrlf⟩
      · refine ⟨s, ?_, rfl, rfl, rfl, .inl rfl, .inl rfl⟩
        simp [indexerArgs, herr]
      · refine ⟨s.assign j buf arg, ?_, rfl, rfl, rfl, kept_or_reread (.inl rfl), kept_or_reread (.inl rfl)⟩
        simp [indexerArgs, hok, hcrlf]
    · rw [indexerArgs_catBulk (h a (by simp))]
      obtain ⟨s', hrun, hpend, hnodes, hdisk, hkey, hval⟩ := ih (forall_mem_cons.mp h).2 (j + 1) hq _
      exact ⟨s', hrun, hpend, hnodes, hdisk, kept_or_reread hkey, kept_or_reread hval⟩

variable (mem) in
/-- A round that ends inside the command `e` gives up there and goes back to its beginning. -/
theorem indexerScan_torn (e : Entry) {p : Bytes} (hp : Torn p e.bytes) (hne : p ≠ []) (fuel : ℕ) (s : Indexer) :
    ∃ s', indexerScan mem (fuel + 1) p s = .returned (s', false) ∧ s'.seek = s.seek ∧
      s'.pending = s.pending ∧ s'.nodes = s.nodes ∧ s'.disk = s.disk ∧
      e.carry ⟨s'.key, s'.value⟩ = e.carry ⟨s.key, s.value⟩ := by
  rw [e.bytes_eq] at hp
  rcases torn_append_cases hp with hline | ⟨q, rfl, hq⟩
  · rcases readHeader_torn e.argc_pos e.argc_int hline hne with herr | ⟨buf, argc, hok⟩
    · refine ⟨s, ?_, rfl, rfl, rfl, rfl, rfl⟩
      simp [indexerScan, if_neg hne, herr]
    · refine ⟨s, ?_, rfl, rfl, rfl, rfl, rfl⟩
      simp [indexerScan, if_neg hne, hok, indexerArgs, readArg_nil]
  · obtain ⟨s', hrun, hpend, hnodes, hdisk, hkey, hval⟩ :=
      indexerArgs_torn e.argv e.fits 0 hq { s with seek := s.seek + strlen (countLine e.argv.length) }
    refine ⟨{ s' with seek := s.seek }, ?_, rfl, hpend, hnodes, hdisk, ?_⟩
    · simp only [indexerScan, if_neg hne, readHeader_countLine e.argc_pos e.argc_int, hrun]
    · have hsome : ∀ i, i < e.argv.length → ∃ a, e.argv[i]? = some a :=
        fun i hi => ⟨_, List.getElem?_eq_getElem hi⟩
      simp only [Entry.carry, Carried.mk.injEq]
      refine ⟨?_, ?_⟩
      · rcases hkey with hkey | hkey
        · rw [hkey]
        · obtain ⟨a, ha⟩ := hsome 1 (by omega)
          rw [ha]
          rfl
      · rcases hval with hval | hval
        · rw [hval]
        · obtain ⟨a, ha⟩ := hsome 2 (by omega)
          rw [ha]
          rfl
/-! ### The queue -/

def Entry.Short (e : Entry) : Prop :=
  e.command.val.length < 20 ∧ (∀ k ∈ e.argv[1]?, (cstr k).val.length < 50) ∧
    ∀ v ∈ e.argv[2]?, (cstr v).val.length < 50

theorem carriedBy_short (h : ∀ e ∈ P, e.Short) :
    (carriedBy P).key.val.length < 50 ∧ (carriedBy P).value.val.length < 50 := by
  induction P using List.reverseRecOn with
  | nil => simp [carriedBy, cstr]
  | append_singleton P e ih =>
    obtain ⟨hkey, hval⟩ := ih fun d hd => h d (by simp [hd])
    obtain ⟨-, hk, hv⟩ := h e (by simp)
    rw [carriedBy_concat, Entry.carry]
    refine ⟨?_, ?_⟩
    · cases ha : e.argv[1]? with
      | none => exact hkey
      | some a => exact hk a ha
    · cases ha : e.argv[2]? with
      | none => exact hval
      | some a => exact hv a ha

/-- The node for the command `e`, read after the commands `P`. -/
def queueNode (mem : NodeMemory) (P : List Entry) (e : Entry) : Option RecordToIndex :=
  addRecordToIndex e.command (carriedBy (P ++ [e])).key (carriedBy (P ++ [e])).value (mem P.length)

variable (mem) in
theorem queueNode_short {e : Entry}
    (h : ∀ d ∈ P ++ [e], d.Short) : ∃ r, queueNode mem P e = some r := by
  obtain ⟨hkey, hval⟩ := carriedBy_short h
  exact ⟨_, dif_pos ⟨(h e (by simp)).1, hkey, hval⟩⟩

/-- The nodes for the commands `R`, read after the commands `P`. -/
def queueNodes (mem : NodeMemory) : List Entry → List Entry → List (Option RecordToIndex)
  | _, [] => []
  | P, e :: R => queueNode mem P e :: queueNodes mem (P ++ [e]) R

theorem queueNodes_append (P Q R : List Entry) :
    queueNodes mem P (Q ++ R) = queueNodes mem P Q ++ queueNodes mem (P ++ Q) R := by
  induction Q generalizing P with
  | nil => simp [queueNodes]
  | cons e Q ih => simp [queueNodes, ih]

theorem queueNodes_length (P R : List Entry) :
    (queueNodes mem P R).length = R.length := by
  induction R generalizing P with
  | nil => rfl
  | cons e R ih => simp [queueNodes, ih]

/-- The nodes that the writer handles before it sees the stop signal. -/
def handled (stop : Option ℕ) (ri : List RecordToIndex) : List RecordToIndex := stop.elim ri ri.take

/-- Stopped or not, the writer ends with a sync and then saves the position it was given. -/
theorem writeLoop_effects (seek : ℤ) (ri : List RecordToIndex) (stop : Option ℕ) (w : Written) :
    (writeLoop seek stop ri w).effects =
      w.effects ++ (handled stop ri).map (fun r => .record r.indexOp) ++ [.sync, .writeFinalLogSeek seek] := by
  induction ri generalizing stop w with
  | nil => cases stop <;> simp [writeLoop, handled]
  | cons r ri ih =>
    rcases stop with _ | _ | n
    · simp [writeLoop, ih, handled]
    · simp [writeLoop, handled]
    · simp [writeLoop, ih, handled]

theorem writeToIndexedLog_effects (ri : List RecordToIndex) (seek : ℤ) (stop : Option ℕ) :
    (writeToIndexedLog ri seek stop).effects =
      ((handled stop ri).map RecordToIndex.indexOp).map Effect.record ++ [.sync, .writeFinalLogSeek seek] := by
  rw [writeToIndexedLog, writeLoop_effects, nil_append, map_map]
  rfl

theorem exec_writeToIndexedLog (ri : List RecordToIndex) (seek : ℤ) (stop : Option ℕ) (d : Indexing) :
    ((writeToIndexedLog ri seek stop).effects.foldl Effect.exec d).dbp =
        ((handled stop ri).map RecordToIndex.indexOp).foldl applyRecord d.dbp ∧
      ((writeToIndexedLog ri seek stop).effects.foldl Effect.exec d).files.finalLogSeek = some seek := by
  have hrecs := exec_records d ((handled stop ri).map RecordToIndex.indexOp)
  rw [writeToIndexedLog_effects, foldl_append]
  exact ⟨hrecs.1, rfl⟩

/-- The thread, which began at the position `base` with the store `m`, has read the commands
`P`, and the commands `R` are to come: the nodes `done` are in the store, the others in the
queue. The variables may come from a torn `R`. -/
structure Progress (mem : NodeMemory) (base : ℕ) (m : IndexedLog) (done : List RecordToIndex)
    (P R : List Entry) (s : Indexer) : Prop where
  seek : s.seek = base + (entryBytes P).length
  nodes : s.nodes = P.length
  vars : ∀ e ∈ R.head?, e.carry ⟨s.key, s.value⟩ = e.carry (carriedBy P)
  records : queueNodes mem [] P = (done ++ s.pending).map some
  store : s.disk.dbp = (done.map RecordToIndex.indexOp).foldl applyRecord m

section

variable {base : ℕ} {e : Entry} {s' : Indexer}

/-- The state after the whole of `e` has been read into the node `r`. -/
def Indexer.push (s : Indexer) (e : Entry) (r : RecordToIndex) : Indexer :=
  { s with
    seek := s.seek + strlen (countLine e.argv.length) + (e.argv.flatMap catBulk).length
    command := e.command
    key := (e.carry ⟨s.key, s.value⟩).key
    value := (e.carry ⟨s.key, s.value⟩).value
    pending := s.pending ++ [r]
    nodes := s.nodes + 1 }

theorem Progress.push (h : Progress mem base m done P (e :: R) s) {r : RecordToIndex}
    (hr : queueNode mem P e = some r) : Progress mem base m done (P ++ [e]) R (s.push e r) := by
  refine ⟨?_, ?_, ?_, ?_, h.store⟩
  · rw [Indexer.push, h.seek, entryBytes_append, entryBytes_cons, e.bytes_eq,
      strlen_of_nul_free (nul_not_mem_countLine _)]
    simp [entryBytes, add_assoc]
  · rw [Indexer.push, h.nodes]
    simp
  · intro d _
    rw [carriedBy_concat, ← h.vars e (by simp)]
    rfl
  · rw [queueNodes_append, h.records]
    simp [queueNodes, Indexer.push, hr]

/-- A torn command changes nothing but the variables, which are read again with it. -/
theorem Progress.torn (h : Progress mem base m done P (e :: R) s) (hseek : s'.seek = s.seek)
    (hpend : s'.pending = s.pending) (hnodes : s'.nodes = s.nodes) (hdisk : s'.disk = s.disk)
    (hvars : e.carry ⟨s'.key, s'.value⟩ = e.carry ⟨s.key, s.value⟩) :
    Progress mem base m done P (e :: R) s' := by
  refine ⟨hseek.trans h.seek, hnodes.trans h.nodes, fun d hd => ?_, ?_, ?_⟩
  · obtain rfl : e = d := by simpa using hd
    exact hvars.trans (h.vars e (by simp))
  · rw [hpend]
    exact h.records
  · rw [hdisk]
    exact h.store

theorem Progress.flush (h : Progress mem base m done P R s) :
    Progress mem base m (done ++ s.pending) P R { s with
      pending := []
      disk := (writeToIndexedLog s.pending s.seek none).effects.foldl Effect.exec s.disk } := by
  refine ⟨h.seek, h.nodes, h.vars, by rw [h.records, append_nil], ?_⟩
  rw [(exec_writeToIndexedLog s.pending s.seek none s.disk).1, map_append, foldl_append, ← h.store]
  rfl

end

/-- A scan over what a round sees of the commands `R` reads those that are whole. -/
theorem indexerScan_progress {base : ℕ} (R : List Entry) (hshort : ∀ e ∈ P ++ completeIn n R, e.Short)
    {fuel : ℕ} (hfuel : n < fuel) (hs : Progress mem base m done P R s) :
    ∃ s' full R', R = completeIn n R ++ R' ∧
      indexerScan mem fuel ((entryBytes R).take n) s = .returned (s', full) ∧
      Progress mem base m done (P ++ completeIn n R) R' s' ∧ (full = false → R' ≠ []) ∧ s'.disk = s.disk ∧
      (R' = [] → (⟨s.key, s.value⟩ : Carried) = carriedBy P →
        (⟨s'.key, s'.value⟩ : Carried) = carriedBy (P ++ completeIn n R)) := by
  induction R generalizing P n fuel s with
  | nil =>
    obtain ⟨f, rfl⟩ : ∃ f, fuel = f + 1 := ⟨fuel - 1, by omega⟩
    exact ⟨s, true, [], rfl, by simp [entryBytes, indexerScan], by simpa [completeIn] using hs, by simp,
      rfl, by simp [completeIn]⟩
  | cons e R ih =>
    obtain ⟨f, rfl⟩ : ∃ f, fuel = f + 1 := ⟨fuel - 1, by omega⟩
    have hpos := length_pos_of_ne_nil e.bytes_ne_nil
    rw [entryBytes_cons]
    unfold completeIn at hshort ⊢
    split_ifs at hshort ⊢ with hlen
    · obtain ⟨r, hr⟩ := queueNode_short mem (P := P) (e := e) fun d hd => hshort d (by simp at hd ⊢; tauto)
      have hless : n - e.bytes.length < f := by omega
      obtain ⟨s', full, R', hR, hscan, hprog, hfull, hdisk, hvars⟩ :=
        ih (P := P ++ [e]) (by simpa using hshort) hless (hs.push hr)
      refine ⟨s', full, R', by rw [cons_append, ← hR], ?_, by simpa using hprog, hfull, hdisk, fun hnil hP => ?_⟩
      rotate_left
      · simpa using hvars hnil (by rw [carriedBy_concat, ← hP]; rfl)
      have hnode : addRecordToIndex e.command (e.carry ⟨s.key, s.value⟩).key (e.carry ⟨s.key, s.value⟩).value
          (mem s.nodes) = some r := by
        rw [hs.vars e (by simp), ← carriedBy_concat, hs.nodes]
        exact hr
      rw [take_append, take_of_length_le hlen, indexerScan, if_neg (by simp [e.bytes_ne_nil]),
        e.readHeader_bytes]
      simp only [e.indexerArgs_argv, hnode]
      exact hscan
    · rw [take_append_of_le_length (by omega)]
      by_cases hnil : e.bytes.take n = []
      · refine ⟨s, true, e :: R, rfl, ?_, by simpa using hs, by simp, rfl, by simp⟩
        rw [indexerScan, if_pos hnil]
      · have htorn : Torn (e.bytes.take n) e.bytes := by
          refine ⟨List.take_prefix _ _, fun heq => ?_⟩
          have := congrArg List.length heq
          rw [length_take] at this
          omega
        obtain ⟨s', hscan, hseek, hpend, hnodes, hdisk, hvars⟩ := indexerScan_torn mem e htorn hnil f s
        refine ⟨s', false, e :: R, rfl, hscan, ?_, by simp, hdisk, by simp⟩
        rw [append_nil]
        exact hs.torn hseek hpend hnodes hdisk hvars

/-! ### Rounds -/

theorem progress_start {files : Files} {pre : Bytes} (hseek : files.finalLogSeek = some (pre.length : ℤ))
    (mem : NodeMemory) (m : IndexedLog) (R : List Entry) :
    Progress mem pre.length m [] [] R (Indexer.start files m) := by
  refine ⟨?_, rfl, fun _ _ => rfl, rfl, rfl⟩
  rw [Indexer.start, hseek]
  simp [readFinalLogSeek, entryBytes]

/-- Between two rounds the queue is empty unless the log goes on. -/
def Rested (R : List Entry) (s : Indexer) : Prop := R = [] → s.pending = []

/-- A round over the first `n` bytes of the file, which holds `pre` before the commands. -/
theorem indexerPoll_progress (pre : Bytes)
    (hn : n ≤ (pre ++ entryBytes (P ++ R)).length)
    (hshort : ∀ e ∈ P ++ completeIn (n - (pre ++ entryBytes P).length) R, e.Short)
    (hs : Progress mem pre.length m done P R s) (hrest : Rested R s) :
    ∃ s' R', R = completeIn (n - (pre ++ entryBytes P).length) R ++ R' ∧
      indexerPoll mem s ((pre ++ entryBytes (P ++ R)).take n) = .returned s' ∧
      Progress mem pre.length m
        (done ++ (pollBatch mem s ((pre ++ entryBytes (P ++ R)).take n)).flatMap Batch.records)
        (P ++ completeIn (n - (pre ++ entryBytes P).length) R) R' s' ∧
      Rested R' s' ∧
      ∀ b ∈ pollBatch mem s ((pre ++ entryBytes (P ++ R)).take n), s'.pending = [] ∧
        b.seek = (pre ++ entryBytes (P ++ completeIn (n - (pre ++ entryBytes P).length) R)).length := by
  have hseek : s.seek.toNat = (pre ++ entryBytes P).length := by
    rw [hs.seek, length_append]
    omega
  have hread : fseek ((pre ++ entryBytes (P ++ R)).take n) s.seek =
      (entryBytes R).take (n - (pre ++ entryBytes P).length) := by
    rw [fseek, hseek, drop_take, entryBytes_append, ← append_assoc, drop_left]
  rw [indexerPoll, pollBatch, hread]
  by_cases hend : (entryBytes R).take (n - (pre ++ entryBytes P).length) = []
  · rw [if_pos hend, if_pos hend]
    obtain ⟨p, htake, -⟩ := take_entryBytes (n - (pre ++ entryBytes P).length) R
    rw [hend] at htake
    have hnil := entryBytes_eq_nil (append_eq_nil_iff.mp htake.symm).1
    rw [hnil]
    exact ⟨s, R, rfl, rfl, by simpa using hs, hrest, by simp⟩
  rw [if_neg hend, if_neg hend]
  have hfuel : n - (pre ++ entryBytes P).length < ((pre ++ entryBytes (P ++ R)).take n).length + 1 := by
    rw [length_take]
    omega
  obtain ⟨s', full, R', hR, hscan, hprog, hfull, -⟩ := indexerScan_progress R hshort hfuel hs
  rw [hscan]
  have hlen : (s'.seek : ℤ) =
      (pre ++ entryBytes (P ++ completeIn (n - (pre ++ entryBytes P).length) R)).length := by
    simp [hprog.seek, length_append, Nat.cast_add]
  cases full with
  | false => exact ⟨s', R', hR, rfl, by simpa using hprog, fun h => absurd h (hfull rfl), by simp⟩
  | true => exact ⟨_, R', hR, rfl, by simpa using hprog.flush, fun _ => rfl, by simpa using hlen⟩

def reach (polls : List Bytes) : ℕ := (polls.map List.length).foldr max 0

theorem le_reach {file : Bytes} (h : file ∈ polls) : file.length ≤ reach polls := by
  induction polls with
  | nil => cases h
  | cons f polls ih =>
    rcases mem_cons.mp h with rfl | h
    · exact le_max_left _ _
    · exact (ih h).trans (le_max_right _ _)

/-- Each batch is handed over with the position after the last command read so far, of which
there are as many as nodes. -/
def EndsAt (pre : Bytes) (P : List Entry) (before : ℕ) (bs : List Batch) : Prop :=
  ∀ bs₁ b bs₂, bs = bs₁ ++ b :: bs₂ →
    b.seek = (pre ++ entryBytes (P.take (before + ((bs₁ ++ [b]).flatMap Batch.records).length))).length

theorem EndsAt.cons {pre : Bytes} {before : ℕ} {b : Batch} {bs : List Batch}
    (hb : b.seek = (pre ++ entryBytes (P.take (before + b.records.length))).length)
    (h : EndsAt pre P (before + b.records.length) bs) : EndsAt pre P before (b :: bs) := by
  intro bs₁ b' bs₂ hsplit
  cases bs₁ with
  | nil =>
    obtain ⟨rfl, -⟩ := List.cons.inj hsplit
    simpa using hb
  | cons b₁ bs₁ =>
    obtain ⟨rfl, hrest⟩ := List.cons.inj hsplit
    have := h bs₁ b' bs₂ hrest
    rwa [Nat.add_assoc, ← length_append] at this

variable (mem) in
theorem pollBatch_cases (s : Indexer) (file : Bytes) :
    pollBatch mem s file = [] ∨ ∃ b, pollBatch mem s file = [b] := by
  unfold pollBatch
  split_ifs
  · exact .inl rfl
  · split
    · exact .inr ⟨_, rfl⟩
    · exact .inl rfl

theorem Progress.length_eq {base : ℕ} (h : Progress mem base m done P R s) :
    P.length = done.length + s.pending.length := by
  have := congrArg List.length h.records
  rwa [queueNodes_length, length_map, length_append] at this

/-- All rounds together read what the one that sees most sees whole. -/
theorem indexerTrace_progress (pre : Bytes) (polls : List Bytes)
    (hpolls : ∀ file ∈ polls, file <+: pre ++ entryBytes (P ++ R))
    (hshort : ∀ e ∈ P ++ completeIn (reach polls - (pre ++ entryBytes P).length) R, e.Short)
    (hs : Progress mem pre.length m done P R s) (hrest : Rested R s) :
    ∃ s' bs R', R = completeIn (reach polls - (pre ++ entryBytes P).length) R ++ R' ∧
      indexerTrace mem polls s = .returned (s', bs) ∧
      Progress mem pre.length m (done ++ bs.flatMap Batch.records)
        (P ++ completeIn (reach polls - (pre ++ entryBytes P).length) R) R' s' ∧
      Rested R' s' ∧
      EndsAt pre (P ++ completeIn (reach polls - (pre ++ entryBytes P).length) R) done.length bs := by
  induction polls generalizing done P R s with
  | nil =>
    refine ⟨s, [], R, ?_, rfl, ?_, hrest, ?_⟩
    · simp [reach, completeIn_zero]
    · simpa [reach, completeIn_zero] using hs
    · intro bs₁ b bs₂ h
      simp at h
  | cons file polls ih =>
    have hfile := prefix_iff_eq_take.mp (hpolls file (by simp))
    have hn := (hpolls file (by simp)).length_le
    have hmono : completeIn (file.length - (pre ++ entryBytes P).length) R <+:
        completeIn (reach (file :: polls) - (pre ++ entryBytes P).length) R :=
      completeIn_mono (Nat.sub_le_sub_right (le_max_left _ _) _) R
    obtain ⟨s₁, R₁, hR, hpoll, hprog, hrest₁, hbatch⟩ := indexerPoll_progress pre hn
      (fun e he => hshort e (((prefix_append_right_inj P).mpr hmono).subset he)) hs hrest
    rw [← hfile] at hpoll hprog hbatch
    have hall : completeIn (reach (file :: polls) - (pre ++ entryBytes P).length) R = _ :=
      completeIn_max file.length (reach polls) (pre ++ entryBytes P).length hR
    generalize completeIn (file.length - (pre ++ entryBytes P).length) R = Q at hR hprog hbatch hall hmono
    have hb : (pre ++ entryBytes P).length + (entryBytes Q).length = (pre ++ entryBytes (P ++ Q)).length := by
      simp [entryBytes_append, add_assoc]
    rw [hb] at hall
    rw [hall] at hshort ⊢
    rw [← append_assoc] at hshort ⊢
    obtain ⟨s', bs, R', hR', htrace, hprog', hrest', hends⟩ :=
      ih (P := P ++ Q) (fun f hf => by
        rw [append_assoc, ← hR]
        exact hpolls f (by simp [hf])) hshort hprog hrest₁
    refine ⟨s', pollBatch mem s file ++ bs, R', ?_, ?_, ?_, hrest', ?_⟩
    · rw [append_assoc, ← hR', ← hR]
    · simp [indexerTrace, hpoll, htrace]
    · rw [flatMap_append, ← append_assoc]
      exact hprog'
    · rcases pollBatch_cases mem s file with hnone | ⟨b, hone⟩
      · rw [hnone] at hends ⊢
        simpa using hends
      · rw [hone] at hends hbatch hprog ⊢
        obtain ⟨hpend, hseek⟩ := hbatch b (by simp)
        have hlen : (done ++ [b].flatMap Batch.records).length = done.length + b.records.length := by simp
        have hcount := hprog.length_eq
        rw [hpend, length_nil, Nat.add_zero, hlen] at hcount
        rw [hlen] at hends
        refine EndsAt.cons ?_ hends
        rw [hseek, ← hcount, take_left]

theorem indexerRun_of_trace {s' : Indexer} {bs : List Batch}
    (h : indexerTrace mem polls s = .returned (s', bs)) : indexerRun mem polls s = .returned s' := by
  induction polls generalizing s bs with
  | nil =>
    obtain ⟨rfl, -⟩ := Prod.mk.inj (Outcome.returned.inj h)
    rfl
  | cons file polls ih =>
    unfold indexerTrace at h
    unfold indexerRun
    cases hpoll : indexerPoll mem s file with
    | exited => simp [hpoll] at h
    | overflowed => simp [hpoll] at h
    | returned s₁ =>
      cases htrace : indexerTrace mem polls s₁ with
      | exited => simp [hpoll, htrace] at h
      | overflowed => simp [hpoll, htrace] at h
      | returned r =>
        simp only [hpoll, htrace] at h
        obtain ⟨rfl, -⟩ := Prod.mk.inj (Outcome.returned.inj h)
        exact ih htrace

/-! ### Logged operations -/

/-- The value variable after the command: its third argument, if it has one. -/
def LogCmd.carry (c : LogCmd) (value : CStr) : CStr :=
  match c.op.args with
  | [_, b] => cstr b
  | _ => value

def carried (L : List LogCmd) : CStr := L.foldl (fun v c => c.carry v) (cstr [])

variable (L : List LogCmd) (c : LogCmd)

theorem carried_concat : carried (L ++ [c]) = c.carry (carried L) := by
  simp [carried]

theorem LogCmd.args_cases : (∃ k, c.op.args = [k]) ∨ ∃ k v, c.op.args = [k, v] := by
  cases c.op <;> simp [Op.args]

theorem LogCmd.carry_entry (v : Carried) : c.entry.carry v = ⟨cstr c.op.arg1, c.carry v.value⟩ := by
  rcases c.args_cases with ⟨k, hk⟩ | ⟨k, b, hk⟩ <;>
    simp [Entry.carry, LogCmd.argv, LogCmd.carry, Op.arg1, hk]

theorem carriedBy_entries : (carriedBy (L.map LogCmd.entry)).value = carried L := by
  induction L using List.reverseRecOn with
  | nil => rfl
  | append_singleton L c ih =>
    rw [map_append, map_singleton, carriedBy_concat, c.carry_entry, carried_concat, ih]

theorem LogCmd.command_entry : c.entry.command = cstr c.op.name := by
  rw [Entry.command, LogCmd.entry_argv, LogCmd.argv, getD_cons_zero, cstr_val_of_nul_free c.word_nul_free,
    c.spelled]

def Op.Short (o : Op) : Prop := ∀ a ∈ o.args, a.length < 50

instance (o : Op) : Decidable o.Short := inferInstanceAs (Decidable (∀ a ∈ _, _))

theorem Op.name_short (o : Op) : o.name.length < 20 := by
  cases o <;> simp [Op.name, SET_COMMAND, INCR_COMMAND, DEL_COMMAND, SETCHECKPOINT_COMMAND,
    CHECKPOINTEND_COMMAND, SELECT_COMMAND, ascii]

theorem LogCmd.short_entry {c : LogCmd} (h : c.op.Short) : c.entry.Short := by
  have harg : ∀ a ∈ c.op.args, (cstr a).val.length < 50 := fun a ha => (cstr_length_le a).trans_lt (h a ha)
  refine ⟨?_, fun k hk => harg k ?_, fun v hv => harg v ?_⟩
  · rw [c.command_entry]
    exact (cstr_length_le _).trans_lt c.op.name_short
  · exact mem_of_getElem? (i := 0) hk
  · exact mem_of_getElem? (i := 1) hv

/-- What the writer does for the command `c` after the log `A`. -/
def onlineOp (mem : NodeMemory) (A : List LogCmd) (c : LogCmd) : Option IndexOp :=
  onlineRecord (cstr c.op.name) (cstr c.op.arg1) (carried (A ++ [c])) (mem A.length)

/-- What the writer does for the commands `B` after the log `A`. -/
def onlineOps (mem : NodeMemory) : List LogCmd → List LogCmd → List (Option IndexOp)
  | _, [] => []
  | A, c :: B => onlineOp mem A c :: onlineOps mem (A ++ [c]) B

theorem onlineOps_append (A B C : List LogCmd) :
    onlineOps mem A (B ++ C) = onlineOps mem A B ++ onlineOps mem (A ++ B) C := by
  induction B generalizing A with
  | nil => simp [onlineOps]
  | cons c B ih => simp [onlineOps, ih]

theorem indexOp_of_queueNode {A : List LogCmd} {c : LogCmd} {r : RecordToIndex}
    (h : queueNode mem (A.map LogCmd.entry) c.entry = some r) : r.indexOp = onlineOp mem A c := by
  have hkey : (carriedBy (A.map LogCmd.entry ++ [c.entry])).key = cstr c.op.arg1 := by
    rw [carriedBy_concat, c.carry_entry]
  have hval : (carriedBy (A.map LogCmd.entry ++ [c.entry])).value = carried (A ++ [c]) := by
    rw [← carriedBy_entries, map_append, map_singleton]
  rw [queueNode, c.command_entry, hkey, hval, length_map, addRecordToIndex] at h
  split_ifs at h
  obtain rfl := Option.some.inj h
  rfl

theorem onlineOps_of_queueNodes {A B : List LogCmd} {rs : List RecordToIndex}
    (h : queueNodes mem (A.map LogCmd.entry) (B.map LogCmd.entry) = rs.map some) :
    rs.map RecordToIndex.indexOp = onlineOps mem A B := by
  induction B generalizing A rs with
  | nil =>
    obtain rfl : rs = [] := map_eq_nil_iff.mp h.symm
    rfl
  | cons c B ih =>
    obtain ⟨r, rs, rfl⟩ : ∃ r rs', rs = r :: rs' := by
      cases rs with
      | nil => simp [queueNodes] at h
      | cons r rs => exact ⟨r, rs, rfl⟩
    obtain ⟨hr, hrs⟩ := List.cons.inj h
    rw [← map_singleton, ← map_append] at hrs
    rw [map_cons, onlineOps, indexOp_of_queueNode hr, ih hrs]

/-- However the log becomes visible to the rounds, once all of it is, the online indexer
has written one record for each of its commands. -/
theorem indexerRun_index (mem : NodeMemory) {L : List LogCmd} (hshort : ∀ c ∈ L, c.op.Short)
    (hpolls : ∀ file ∈ polls, file <+: aofBytes L) {files : Files} (hseek : files.finalLogSeek = some 0)
    (m : IndexedLog) :
    ∃ s, indexerRun mem (polls ++ [aofBytes L]) (Indexer.start files m) = .returned s ∧
      s.disk.dbp = (onlineOps mem [] L).foldl applyRecord m := by
  have hseek' : files.finalLogSeek = some (([] : Bytes).length : ℤ) := hseek
  have hstart := progress_start hseek' mem m (L.map LogCmd.entry)
  have hall : ∀ file ∈ polls ++ [aofBytes L], file <+: [] ++ entryBytes ([] ++ L.map LogCmd.entry) := by
    intro file hfile
    rw [nil_append, nil_append, ← aofBytes_entry]
    rcases mem_append.mp hfile with h | h
    · exact hpolls file h
    · rw [mem_singleton.mp h]
  have hreach : completeIn (reach (polls ++ [aofBytes L]) - ([] ++ entryBytes []).length) (L.map LogCmd.entry) =
      L.map LogCmd.entry := by
    have hle : (entryBytes (L.map LogCmd.entry)).length ≤ reach (polls ++ [aofBytes L]) := by
      rw [← aofBytes_entry]
      exact le_reach (by simp)
    exact completeIn_of_le hle
  have hmem : ∀ e ∈ [] ++ L.map LogCmd.entry, e.Short := by
    intro e he
    obtain ⟨c, hc, rfl⟩ := mem_map.mp he
    exact LogCmd.short_entry (hshort c hc)
  obtain ⟨s, bs, R, hR, htrace, hprog, hrest, -⟩ :=
    indexerTrace_progress [] (polls ++ [aofBytes L]) hall (by rwa [hreach]) hstart fun _ => rfl
  rw [hreach] at hR hprog
  have hdone : R = [] := append_right_eq_self.mp hR.symm
  have hrecords := hprog.records
  rw [hrest hdone, append_nil] at hrecords
  refine ⟨s, indexerRun_of_trace htrace, ?_⟩
  rw [hprog.store, onlineOps_of_queueNodes (A := []) hrecords]

end RedisIR
