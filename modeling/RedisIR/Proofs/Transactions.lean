import RedisIR.Proofs.Propagation

/-! What a load does to the log it reads. A command of the log is executed without being
propagated, but `EXEC` writes a `MULTI` of its own before the first command of its
transaction that is neither read-only nor administrative. -/

namespace RedisIR

open CLib List Loading Outcome

variable {D : Type} {table : CommandTable D}
variable {a b : AofBuffer} {s : Loading D} {c : Command D}

/-! ### What is written -/

def AofBuffer.Grew (a a' : AofBuffer) : Prop := a'.state = a.state ∧ ∃ text ≠ [], a'.buf = a.buf ++ text

theorem AofBuffer.Grew.trans {c : AofBuffer} (h : a.Grew b) (h' : b.Grew c) : a.Grew c := by
  obtain ⟨hs, text, hne, hbuf⟩ := h
  obtain ⟨hs', text', -, hbuf'⟩ := h'
  exact ⟨hs'.trans hs, text ++ text', by simp [hne], by rw [hbuf', hbuf, append_assoc]⟩

theorem AofBuffer.Grew.buf_ne (h : a.Grew b) : b.buf ≠ a.buf := by
  obtain ⟨-, text, hne, hbuf⟩ := h
  intro hsame
  rw [hbuf] at hsame
  exact hne (append_right_eq_self.mp hsame)

/-- Nothing was written, or something was, as the condition says. -/
def AofBuffer.Written (quiet : Prop) (a a' : AofBuffer) : Prop := (quiet → a' = a) ∧ (¬ quiet → a.Grew a')

theorem AofBuffer.Written.state {quiet : Prop} {a' : AofBuffer} (h : AofBuffer.Written quiet a a') :
    a'.state = a.state := by
  by_cases hq : quiet
  · rw [h.1 hq]
  · exact (h.2 hq).1

theorem AofBuffer.Written.trans {p q : Prop} {c : AofBuffer} (h : AofBuffer.Written p a b)
    (h' : AofBuffer.Written q b c) : AofBuffer.Written (p ∧ q) a c := by
  refine ⟨fun ⟨hp, hq⟩ => (h'.1 hq).trans (h.1 hp), fun hpq => ?_⟩
  by_cases hp : p
  · rw [← h.1 hp]
    exact h'.2 fun hq => hpq ⟨hp, hq⟩
  · by_cases hq : q
    · rw [h'.1 hq]
      exact h.2 hp
    · exact (h.2 hp).trans (h'.2 hq)

theorem AofBuffer.Written.buf_eq_iff {quiet : Prop} {a' : AofBuffer} (h : AofBuffer.Written quiet a a') :
    a'.buf = a.buf ↔ quiet := by
  refine ⟨fun hbuf => by_contra fun hq => (h.2 hq).buf_ne hbuf, fun hq => by rw [h.1 hq]⟩

/-! ### `EXEC` -/

variable (dbnum : ℕ) (now : ℤ) (t : Bool) (rs : List (Record table)) (cs : List (Command D))
    (blocks : List (Block table))

@[simp] theorem Loading.call_aof (s : Loading D) (p : Proc D) : (s.call dbnum p).aof = s.aof := by
  cases p <;> rfl

/-- The command does not make `EXEC` write a `MULTI`. -/
def Command.Quiet (c : Command D) : Prop := c.readonly = true ∨ c.admin = true

theorem execCommandPropagateMulti_grew (hon : s.aof.state = .on) :
    ∃ s', execCommandPropagateMulti now s = .returned s' ∧ s.aof.Grew s'.aof := by
  rw [execCommandPropagateMulti, propagate_other now _ _ hon]
  exact ⟨_, rfl, rfl, _, by simp [catAppendOnlyGenericCommand], rfl⟩

/-- The `MULTI` is written once, before the first command that is not quiet. -/
theorem execLoop_written (mustPropagate : Bool)
    (hon : s.aof.state = .on) : ∃ s', execLoop dbnum now mustPropagate cs s = .returned s' ∧
      AofBuffer.Written (mustPropagate = true ∨ ∀ c ∈ cs, c.Quiet) s.aof s'.aof := by
  induction cs generalizing mustPropagate s with
  | nil => exact ⟨s, rfl, fun _ => rfl, fun h => absurd (.inr (by simp)) h⟩
  | cons c cs ih =>
    unfold execLoop
    by_cases hc : mustPropagate = true ∨ c.Quiet
    · have hif : ¬ (!mustPropagate && !(c.readonly || c.admin)) = true := by
        simpa [Command.Quiet, or_iff_not_imp_left] using hc
      obtain ⟨s', hrun, hw⟩ := ih mustPropagate (s := s.call dbnum c.proc) (by rw [call_aof, hon])
      have hsame : (mustPropagate = true ∨ ∀ d ∈ c :: cs, d.Quiet) ↔
        mustPropagate = true ∨ ∀ d ∈ cs, d.Quiet := by
        rw [forall_mem_cons]
        tauto
      rw [if_neg hif]
      rw [call_aof] at hw
      exact ⟨s', hrun, by rwa [hsame]⟩
    · have hif : (!mustPropagate && !(c.readonly || c.admin)) = true := by
        simpa [Command.Quiet, or_iff_not_imp_left] using hc
      obtain ⟨s1, hmulti, hgrew⟩ := execCommandPropagateMulti_grew now hon
      obtain ⟨s', hrun, hw⟩ := ih true (s := s1.call dbnum c.proc) (by rw [call_aof, hgrew.1, hon])
      have hloud : ¬ (mustPropagate = true ∨ ∀ d ∈ c :: cs, d.Quiet) := by
        rw [forall_mem_cons]
        tauto
      have haof : s'.aof = s1.aof := by rw [hw.1 (.inl rfl), call_aof]
      rw [if_pos hif, hmulti]
      exact ⟨s', hrun, fun h => absurd h hloud, fun _ => haof ▸ hgrew⟩

/-! ### The log command by command -/

def Loading.runAll (dbnum : ℕ) (now : ℤ) : List (Command D) → Loading D → Outcome (Loading D)
  | [], s => .returned s
  | c :: cs, s => (s.run dbnum now c).bind (runAll dbnum now cs)

theorem Loading.runAll_append (cs ds : List (Command D)) (s : Loading D) :
    s.runAll dbnum now (cs ++ ds) = (s.runAll dbnum now cs).bind (runAll dbnum now ds) := by
  induction cs generalizing s with
  | nil => rfl
  | cons c cs ih =>
    change (s.run dbnum now c).bind (runAll dbnum now (cs ++ ds)) = ((s.run dbnum now c).bind _).bind _
    cases s.run dbnum now c with
    | returned s' => exact ih s'
    | exited => rfl
    | overflowed => rfl

theorem loadLoop_records (fuel : ℕ)
    (hfuel : rs.length < fuel) (s : Loading D) : table.loadLoop dbnum now t fuel (entryBytes (rs.map Record.entry)) s =
      (s.runAll dbnum now (rs.map Record.command)).bind fun s => if s.client.multi then uxeof t s else .returned s := by
  induction rs generalizing fuel s with
  | nil =>
    obtain ⟨fuel, rfl⟩ := Nat.exists_eq_succ_of_ne_zero (Nat.pos_iff_ne_zero.mp hfuel)
    rfl
  | cons r rs ih =>
    obtain ⟨fuel, rfl⟩ := Nat.exists_eq_succ_of_ne_zero (Nat.ne_zero_of_lt hfuel)
    have hne : entryBytes ((r :: rs).map Record.entry) ≠ [] := by
      simp [entryBytes, r.entry.bytes_ne_nil]
    rw [CommandTable.loadLoop, if_neg hne]
    rw [map_cons, entryBytes_cons, readCommand_bytes]
    dsimp only
    rw [r.found]
    change (s.run dbnum now r.command).bind _ = ((s.run dbnum now r.command).bind _).bind _
    cases s.run dbnum now r.command with
    | returned s' => exact ih fuel (by simpa using hfuel) s'
    | exited => rfl
    | overflowed => rfl

theorem loadAppendOnlyFile_records (data : D)
    (aof : AofBuffer) : table.loadAppendOnlyFile dbnum now t (entryBytes (rs.map Record.entry)) data aof =
      ((⟨createFakeClient, data, aof⟩ : Loading D).runAll dbnum now (rs.map Record.command)).bind fun s =>
        if s.client.multi then uxeof t s else .returned s := by
  apply loadLoop_records
  have h := length_le_entryBytes (rs.map Record.entry)
  rw [length_map] at h
  omega

/-! ### Blocks -/

theorem runAll_queue (hcs : ∀ c ∈ cs, c.proc.isExec = false)
    (hmulti : s.client.multi = true) : s.runAll dbnum now cs =
      .returned { s with client := { s.client with commands := s.client.commands ++ cs } } := by
  induction cs generalizing s with
  | nil => simp [Loading.runAll]
  | cons c cs ih =>
    have hrun : s.run dbnum now c = .returned (queueMultiCommand c s) := by
      rw [Loading.run, hmulti, hcs c (by simp)]
      rfl
    have hrest := ih (forall_mem_cons.mp hcs).2 (s := queueMultiCommand c s) hmulti
    rw [Loading.runAll, hrun, bind_returned, hrest]
    simp [queueMultiCommand]

def Loading.Idle (s : Loading D) : Prop := s.client.multi = false ∧ s.client.commands = []

theorem Loading.call_idle (h : s.Idle) (p : Proc D) : (s.call dbnum p).Idle := by
  cases p <;> exact h

theorem run_command (hc : c.proc.isMulti = false) (hs : s.Idle) :
    s.run dbnum now c = .returned (s.call dbnum c.proc) := by
  obtain ⟨readonly, admin, proc⟩ := c
  cases proc with
  | multi => cases hc
  | exec => simp [Loading.run, Loading.call, execCommand, hs.1]
  | select id => simp [Loading.run, hs.1]
  | data run => simp [Loading.run, hs.1]

theorem run_multi (hc : c.proc.isMulti = true) (hs : s.Idle) :
    s.run dbnum now c = .returned { s with client := { s.client with multi := true } } := by
  obtain ⟨readonly, admin, proc⟩ := c
  cases proc with
  | multi => simp [Loading.run, hs.1]
  | _ => cases hc

theorem run_exec (hc : c.proc.isExec = true) (s : Loading D) : s.run dbnum now c = execCommand dbnum now s := by
  obtain ⟨readonly, admin, proc⟩ := c
  cases proc with
  | exec => simp [Loading.run, Proc.isExec]
  | _ => cases hc

theorem runAll_open {multi : Record table} (hmulti : multi.command.proc.isMulti = true)
    {body : List (Record table)} (hbody : ∀ r ∈ body, r.command.proc.isExec = false) (hs : s.Idle) :
    s.runAll dbnum now ((multi :: body).map Record.command) =
      .returned { s with client := ⟨s.client.db, true, body.map Record.command⟩ } := by
  have hqueue : ∀ c ∈ body.map Record.command, c.proc.isExec = false := by
    intro c hc
    obtain ⟨r, hr, rfl⟩ := mem_map.mp hc
    exact hbody r hr
  rw [map_cons, Loading.runAll, run_multi dbnum now hmulti hs, bind_returned,
    runAll_queue dbnum now _ hqueue rfl, hs.2, nil_append]

theorem runAll_transaction {multi exec : Record table} {body : List (Record table)}
    {opens inside closes} (hs : s.Idle) {s' : Loading D} (hloop : execLoop dbnum now false (body.map Record.command)
      { s with client := ⟨s.client.db, true, body.map Record.command⟩ } = .returned s') :
    s.runAll dbnum now ((Block.transaction multi body exec opens inside closes).records.map Record.command) =
      .returned (discardTransaction s') := by
  rw [Block.records, map_append, runAll_append, runAll_open dbnum now opens inside hs,
    bind_returned, map_singleton, Loading.runAll, run_exec dbnum now closes, execCommand, if_pos rfl, hloop]
  rfl

/-- One block writes to the log exactly when it is not quiet. -/
theorem runAll_block (b : Block table) (hs : s.Idle) (hon : s.aof.state = .on) :
    ∃ s', s.runAll dbnum now (b.records.map Record.command) = .returned s' ∧ s'.Idle ∧
      AofBuffer.Written b.Quiet s.aof s'.aof := by
  cases b with
  | command r single =>
    refine ⟨s.call dbnum r.command.proc, ?_, s.call_idle dbnum hs _, fun _ => s.call_aof dbnum _,
      fun h => absurd trivial h⟩
    rw [Block.records, map_singleton, Loading.runAll, run_command dbnum now single hs]
    rfl
  | transaction multi body exec opens inside closes =>
    obtain ⟨s', hloop, hw⟩ := execLoop_written dbnum now (body.map Record.command) false
      (s := { s with client := ⟨s.client.db, true, body.map Record.command⟩ }) hon
    have hquiet : (false = true ∨ ∀ c ∈ body.map Record.command, c.Quiet) ↔
        (Block.transaction multi body exec opens inside closes).Quiet := by
      simp [Block.Quiet, Command.Quiet]
    exact ⟨discardTransaction s', runAll_transaction dbnum now hs hloop, ⟨rfl, rfl⟩, by rwa [hquiet] at hw⟩

theorem runAll_blocks (hs : s.Idle) (hon : s.aof.state = .on) :
    ∃ s', s.runAll dbnum now ((blocks.flatMap Block.records).map Record.command) = .returned s' ∧ s'.Idle ∧
      AofBuffer.Written (∀ b ∈ blocks, b.Quiet) s.aof s'.aof := by
  induction blocks generalizing s with
  | nil => exact ⟨s, rfl, hs, fun _ => rfl, fun h => absurd (by simp) h⟩
  | cons b blocks ih =>
    obtain ⟨s1, hrun1, hidle1, hw1⟩ := runAll_block dbnum now b hs hon
    obtain ⟨s2, hrun2, hidle2, hw2⟩ := ih hidle1 (by rw [hw1.state, hon])
    refine ⟨s2, ?_, hidle2, ?_⟩
    · rw [flatMap_cons, map_append, runAll_append, hrun1]
      exact hrun2
    · rw [forall_mem_cons]
      exact hw1.trans hw2

/-! ### The load -/

/-- Loading a log leaves `aof_buf` and `aof_selected_db` as they are, and with them the file
after the next flush, exactly when every transaction of the log has only read-only and
administrative commands. -/
theorem load_leaves_log_iff (dbnum : ℕ) (now : ℤ) (aofLoadTruncated : Bool) (data : D)
    {aof : AofBuffer} (hon : aof.state = .on) :
    ∃ s, table.loadAppendOnlyFile dbnum now aofLoadTruncated (blockBytes blocks) data aof = .returned s ∧
      ((s.aof.buf = aof.buf ∧ s.aof.selectedDb = aof.selectedDb) ↔ ∀ b ∈ blocks, b.Quiet) ∧
      ((flushAppendOnlyFile (blockBytes blocks) s.aof).1 = (flushAppendOnlyFile (blockBytes blocks) aof).1 ↔
        ∀ b ∈ blocks, b.Quiet) := by
  obtain ⟨s, hrun, hidle, hw⟩ :=
    runAll_blocks dbnum now blocks (s := ⟨createFakeClient, data, aof⟩) ⟨rfl, rfl⟩ hon
  refine ⟨s, ?_, ?_, ?_⟩
  · rw [blockBytes, loadAppendOnlyFile_records, hrun, bind_returned, hidle.1]
    rfl
  · refine ⟨fun h => hw.buf_eq_iff.mp h.1, fun hq => ?_⟩
    rw [hw.1 hq]
    exact ⟨rfl, rfl⟩
  · simp only [flushAppendOnlyFile, append_cancel_left_eq]
    exact hw.buf_eq_iff

def Record.of (table : CommandTable D) (e : Entry) (h : (table e.argv).isSome) : Record table :=
  ⟨e, (table e.argv).get h, (Option.some_get h).symm⟩

def multiRecord : Record redisCommandTable := .of _ (entryOf [MULTI_COMMAND] (by decide)) (by decide)

def execRecord : Record redisCommandTable := .of _ (entryOf [EXEC_COMMAND] (by decide)) (by decide)

def getRecord : Record redisCommandTable := .of _ (entryOf [GET_COMMAND, ascii ['n']] (by decide)) (by decide)

def setRecord : Record redisCommandTable :=
  .of _ (entryOf [SET_COMMAND, ascii ['n'], ascii ['9']] (by decide)) (by decide)

def readingBlock : Block redisCommandTable := .transaction multiRecord [getRecord] execRecord rfl (by decide) rfl

def writingBlock : Block redisCommandTable :=
  .transaction multiRecord [getRecord, setRecord] execRecord rfl (by decide) rfl

def startedAof : AofBuffer := ⟨.on, [], -1⟩

theorem load_leaves_log_reading : (∀ b ∈ [readingBlock], b.Quiet) ∧
      ∃ s, redisCommandTable.loadAppendOnlyFile 16 0 true (blockBytes [readingBlock]) (fun _ => emptyDb) startedAof =
          .returned s ∧ ((s.aof.buf = [] ∧ s.aof.selectedDb = -1) ↔ ∀ b ∈ [readingBlock], b.Quiet) ∧
        ((flushAppendOnlyFile (blockBytes [readingBlock]) s.aof).1 =
            (flushAppendOnlyFile (blockBytes [readingBlock]) startedAof).1 ↔ ∀ b ∈ [readingBlock], b.Quiet) := by
  refine ⟨?_, load_leaves_log_iff [readingBlock] 16 0 true (fun _ => emptyDb) rfl⟩
  rw [forall_mem_singleton]
  change ∀ r ∈ [getRecord], _
  rw [forall_mem_singleton]
  exact .inl rfl

/-- Loading `MULTI`, `GET n`, `SET n 9`, `EXEC` appends a `SELECT` and a `MULTI` without end. -/
theorem load_appends_multi :
    ∃ s, redisCommandTable.loadAppendOnlyFile 16 0 true (blockBytes [writingBlock]) (fun _ => emptyDb) startedAof =
        .returned s ∧
      s.aof.buf = selectText 0 ++ catAppendOnlyGenericCommand [] [MULTI_COMMAND] ∧ s.aof.selectedDb = 0 ∧
      (flushAppendOnlyFile (blockBytes [writingBlock]) s.aof).1 ≠ blockBytes [writingBlock] := by
  refine ⟨_, by rw [blockBytes, loadAppendOnlyFile_records]; rfl, by decide +kernel,
    by decide +kernel, by decide +kernel⟩

end RedisIR
