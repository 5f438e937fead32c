import RedisIR.Proofs.Torn
import RedisIR.Proofs.Transactions
import RedisIR.Spec.TruncatedLoad

/-! A load of a log that is cut anywhere executes the commands and transactions that are whole,
and so does a load of what it leaves of the file. It leaves just those, except when the cut
tears a command of a transaction: then the beginning of the transaction stays. -/

namespace RedisIR

open CLib List Loading

variable {D : Type} {table : CommandTable D}
variable {p : Bytes} {s : Loading D}

/-! ### Reading a torn command -/

theorem readArgv_torn (args : List Bytes) (h : ∀ a ∈ args, a.length < 2 ^ 63) (hp : Torn p (args.flatMap catBulk)) :
    readArgv args.length p = .error (.readerr true) := by
  induction args generalizing p with
  | nil => exact absurd hp.length_lt (by simp)
  | cons a args ih =>
    rw [flatMap_cons] at hp
    rw [length_cons, readArgv]
    rcases torn_append_cases hp with ha | ⟨q, rfl, hq⟩
    · simp [readBulk_torn (h a (by simp)) ha]
    · simp [readBulk_catBulk (h a (by simp)), ih (forall_mem_cons.mp h).2 hq]

theorem readCommand_torn (e : Entry) (hp : Torn p e.bytes) (hne : p ≠ []) :
    readCommand p = .error (.readerr true) := by
  rw [e.bytes_eq] at hp
  rcases torn_append_cases hp with hline | ⟨q, rfl, hargs⟩
  · rcases readHeader_torn e.argc_pos e.argc_int hline hne with herr | ⟨buf, argc, hok⟩
    · simp [readCommand, herr]
    · simp [readCommand, hok, readArgv, readBulk, readArg_nil]
  · simp [readCommand, readHeader_countLine e.argc_pos e.argc_int, readArgv_torn e.argv e.fits hargs]

/-! ### The loop with its offsets -/

variable (n dbnum : ℕ) (now : ℤ) (b : Block table) (rs : List (Record table)) (blocks : List (Block table))

theorem loadOffsets_loading (t : Bool) (size fuel : ℕ) (inp : Bytes) (u m : ℕ) (s : Loading D) :
    ((table.loadOffsets dbnum now t size fuel inp u m s).bind fun l => .returned l.loading) =
      table.loadLoop dbnum now t fuel inp s := by
  induction fuel generalizing inp u m s with
  | zero => rfl
  | succ fuel ih =>
    rw [CommandTable.loadOffsets, CommandTable.loadLoop]
    by_cases hnil : inp = []
    · rw [if_pos hnil, if_pos hnil]
      cases s.client.multi <;> cases t <;> rfl
    rw [if_neg hnil, if_neg hnil]
    cases hread : readCommand inp with
    | error e =>
      cases e with
      | fmterr => rfl
      | readerr eof => cases eof <;> cases t <;> rfl
    | ok r =>
      obtain ⟨argv, rest⟩ := r
      cases hcmd : table argv with
      | none => simp only [hcmd, Outcome.bind]
      | some c =>
        simp only [hcmd]
        cases s.run dbnum now c with
        | returned s' => exact ih rest _ _ s'
        | exited => rfl
        | overflowed => rfl

/-- `valid_up_to` and `valid_before_multi` after some whole records. -/
def offsetsAfter : List (Record table) → ℕ × ℕ → ℕ × ℕ
  | [], o => o
  | r :: rs, o => offsetsAfter rs (o.1 + r.entry.bytes.length, if r.command.proc.isMulti then o.1 else o.2)

theorem offsetsAfter_append (rs rs' : List (Record table)) (o : ℕ × ℕ) :
    offsetsAfter (rs ++ rs') o = offsetsAfter rs' (offsetsAfter rs o) := by
  induction rs generalizing o with
  | nil => rfl
  | cons r rs ih => exact ih _

theorem offsetsAfter_fst (o : ℕ × ℕ) :
    (offsetsAfter rs o).1 = o.1 + (entryBytes (rs.map Record.entry)).length := by
  induction rs generalizing o with
  | nil => simp [offsetsAfter, entryBytes]
  | cons r rs ih =>
    rw [offsetsAfter, ih, map_cons, entryBytes_cons, length_append, Nat.add_assoc]

theorem offsetsAfter_snd {rs : List (Record table)} (h : ∀ r ∈ rs, r.command.proc.isMulti = false)
    (o : ℕ × ℕ) : (offsetsAfter rs o).2 = o.2 := by
  induction rs generalizing o with
  | nil => rfl
  | cons r rs ih =>
    rw [offsetsAfter, ih (forall_mem_cons.mp h).2]
    simp [h r (by simp)]

theorem loadOffsets_records (p : Bytes) (fuel : ℕ) {size : ℕ}
    {o : ℕ × ℕ} (hsize : size = o.1 + (entryBytes (rs.map Record.entry) ++ p).length) (s : Loading D) :
    table.loadOffsets dbnum now true size (rs.length + fuel) (entryBytes (rs.map Record.entry) ++ p) o.1 o.2 s =
      (s.runAll dbnum now (rs.map Record.command)).bind fun s =>
        table.loadOffsets dbnum now true size fuel p (offsetsAfter rs o).1 (offsetsAfter rs o).2 s := by
  induction rs generalizing o s with
  | nil =>
    rw [length_nil, Nat.zero_add]
    rfl
  | cons r rs ih =>
    have hne : entryBytes ((r :: rs).map Record.entry) ++ p ≠ [] := by
      simp [entryBytes, r.entry.bytes_ne_nil]
    rw [map_cons, entryBytes_cons, append_assoc, length_append] at hsize
    rw [length_cons, Nat.add_right_comm, CommandTable.loadOffsets, if_neg hne]
    rw [map_cons, entryBytes_cons, append_assoc, readCommand_bytes]
    simp only [r.found, if_true, map_cons, Loading.runAll]
    have hftello : size - (entryBytes (rs.map Record.entry) ++ p).length = o.1 + r.entry.bytes.length := by omega
    rw [hftello]
    cases s.run dbnum now r.command with
    | returned s' => exact ih (o := (o.1 + r.entry.bytes.length, _)) (by omega) s'
    | exited => rfl
    | overflowed => rfl

theorem loadAndTruncate_records (hp : p = [] ∨ ∃ e : Entry, Torn p e.bytes) (data : D) (aof : AofBuffer) :
    table.loadAndTruncate dbnum now true (entryBytes (rs.map Record.entry) ++ p) data aof =
      ((⟨createFakeClient, data, aof⟩ : Loading D).runAll dbnum now (rs.map Record.command)).bind fun s =>
        .returned ⟨s,
          if p = [] then if s.client.multi then some (offsetsAfter rs (0, 0)).2 else none
          else some (offsetsAfter rs (0, 0)).1⟩ := by
  have hlen := length_le_entryBytes (rs.map Record.entry)
  rw [length_map] at hlen
  obtain ⟨fuel, hfuel⟩ : ∃ fuel, (entryBytes (rs.map Record.entry) ++ p).length + 1 = rs.length + (fuel + 1) :=
    ⟨(entryBytes (rs.map Record.entry) ++ p).length - rs.length, by rw [length_append]; omega⟩
  rw [CommandTable.loadAndTruncate, hfuel, loadOffsets_records (o := (0, 0)) dbnum now rs p _ (by simp)]
  congr 1
  funext s
  rw [CommandTable.loadOffsets]
  by_cases hnil : p = []
  · simp only [if_pos hnil, truncateTo]
    cases s.client.multi <;> rfl
  · obtain ⟨e, he⟩ := hp.resolve_left hnil
    simp only [if_neg hnil, readCommand_torn e he hnil, truncateTo]
    rfl

/-! ### What is executed -/

theorem Loading.call_apply (s : Loading D) (p : Proc D) :
    ((s.call dbnum p).client.db, (s.call dbnum p).data) = p.apply dbnum (s.client.db, s.data) := by
  cases p <;> rfl

theorem propagate_other_returns (db : ℕ) (argv : List Bytes) (aof : AofBuffer) :
    ∃ aof', propagate now .other db argv aof = .returned aof' := by
  rw [propagate, if_neg (by decide)]
  split_ifs
  · exact ⟨_, rfl⟩
  · exact ⟨_, rfl⟩

theorem execLoop_apply (cs : List (Command D)) (mustPropagate : Bool) (s : Loading D) :
    ∃ s', execLoop dbnum now mustPropagate cs s = .returned s' ∧
      (s'.client.db, s'.data) = cs.foldl (fun x c => c.proc.apply dbnum x) (s.client.db, s.data) := by
  induction cs generalizing mustPropagate s with
  | nil => exact ⟨s, rfl, rfl⟩
  | cons c cs ih =>
    rw [execLoop, foldl_cons]
    split_ifs
    · obtain ⟨aof, haof⟩ := propagate_other_returns now s.client.db [MULTI_COMMAND] s.aof
      obtain ⟨s', hrun, hs'⟩ := ih true (Loading.call dbnum { s with aof := aof } c.proc)
      rw [call_apply] at hs'
      refine ⟨s', ?_, hs'⟩
      rw [execCommandPropagateMulti, haof]
      exact hrun
    · obtain ⟨s', hrun, hs'⟩ := ih mustPropagate (s.call dbnum c.proc)
      rw [call_apply] at hs'
      exact ⟨s', hrun, hs'⟩

theorem runAll_block_apply (hs : s.Idle) :
    ∃ s', s.runAll dbnum now (b.records.map Record.command) = .returned s' ∧ s'.Idle ∧
      (s'.client.db, s'.data) = b.commands.foldl (fun x c => c.proc.apply dbnum x) (s.client.db, s.data) := by
  cases b with
  | command r single =>
    refine ⟨s.call dbnum r.command.proc, ?_, s.call_idle dbnum hs _, s.call_apply dbnum _⟩
    rw [Block.records, map_singleton, Loading.runAll, run_command dbnum now single hs]
    rfl
  | transaction multi body exec opens inside closes =>
    obtain ⟨s', hloop, happly⟩ := execLoop_apply dbnum now (body.map Record.command) false
      { s with client := ⟨s.client.db, true, body.map Record.command⟩ }
    exact ⟨discardTransaction s', runAll_transaction dbnum now hs hloop, ⟨rfl, rfl⟩, happly⟩

theorem runAll_blocks_apply (hs : s.Idle) :
    ∃ s', s.runAll dbnum now ((blocks.flatMap Block.records).map Record.command) = .returned s' ∧ s'.Idle ∧
      (s'.client.db, s'.data) =
        (blocks.flatMap Block.commands).foldl (fun x c => c.proc.apply dbnum x) (s.client.db, s.data) := by
  induction blocks generalizing s with
  | nil => exact ⟨s, rfl, hs, rfl⟩
  | cons b blocks ih =>
    obtain ⟨s1, hrun1, hidle1, happly1⟩ := runAll_block_apply dbnum now b hs
    obtain ⟨s2, hrun2, hidle2, happly2⟩ := ih hidle1
    refine ⟨s2, ?_, hidle2, ?_⟩
    · rw [flatMap_cons, map_append, runAll_append, hrun1]
      exact hrun2
    · rw [happly2, happly1, flatMap_cons, foldl_append]

/-! ### A cut log -/

def Opening (rs : List (Record table)) : Prop :=
  rs = [] ∨ ∃ multi body, rs = multi :: body ∧ multi.command.proc.isMulti = true ∧
    ∀ r ∈ body, r.command.proc.isExec = false ∧ r.command.proc.isMulti = false

/-- Whole blocks, the beginning of a transaction, and a torn command: what is executed, and
what is left of the file. -/
theorem load_cut {rs : List (Record table)} (hrs : Opening rs)
    (hp : p = [] ∨ ∃ e : Entry, Torn p e.bytes) (data : D) (aof : AofBuffer) :
    ∃ l, table.loadAndTruncate dbnum now true (blockBytes blocks ++ entryBytes (rs.map Record.entry) ++ p) data aof =
        .returned l ∧ l.loading.data = execute dbnum blocks data ∧
      l.file (blockBytes blocks ++ entryBytes (rs.map Record.entry) ++ p) =
        blockBytes blocks ++ if p = [] then [] else entryBytes (rs.map Record.entry) := by
  obtain ⟨s, hrun, hidle, happly⟩ := runAll_blocks_apply dbnum now blocks
    (s := ⟨createFakeClient, data, aof⟩) ⟨rfl, rfl⟩
  have hdata : s.data = execute dbnum blocks data := congrArg Prod.snd happly
  have hbytes : blockBytes blocks ++ entryBytes (rs.map Record.entry) =
      entryBytes ((blocks.flatMap Block.records ++ rs).map Record.entry) := by
    rw [map_append, entryBytes_append]
    rfl
  rw [hbytes, loadAndTruncate_records dbnum now _ hp, map_append, runAll_append, hrun, Outcome.bind_returned]
  have hup : (offsetsAfter (blocks.flatMap Block.records ++ rs) (0, 0)).1 =
      (entryBytes ((blocks.flatMap Block.records ++ rs).map Record.entry)).length := by
    rw [offsetsAfter_fst, Nat.zero_add]
  rcases hrs with rfl | ⟨multi, body, rfl, hmulti, hbody⟩
  · refine ⟨_, rfl, hdata, ?_⟩
    rw [append_nil] at hup ⊢
    by_cases hnil : p = []
    · subst hnil
      simp only [if_true, hidle.1, Bool.false_eq_true, if_false, LoadEnd.file, append_nil]
      rfl
    · simp only [if_neg hnil, LoadEnd.file, hup, take_left', map_nil]
      simp [entryBytes, blockBytes]
  · rw [runAll_open dbnum now hmulti (fun r hr => (hbody r hr).1) hidle]
    refine ⟨_, rfl, hdata, ?_⟩
    have hbefore :
      (offsetsAfter (blocks.flatMap Block.records ++ multi :: body) (0, 0)).2 = (blockBytes blocks).length := by
      rw [offsetsAfter_append, offsetsAfter, offsetsAfter_snd fun r hr => (hbody r hr).2, if_pos hmulti,
        offsetsAfter_fst, Nat.zero_add]
      rfl
    by_cases hnil : p = []
    · simp only [if_pos hnil, if_true, LoadEnd.file, hbefore, ← hbytes, append_assoc, take_left', append_nil]
    · simp only [if_neg hnil, LoadEnd.file, hup, take_left', ← hbytes]

theorem take_blockBytes :
    ((blockBytes blocks).take n = blockBytes (completeBlocks n blocks) ∧ ¬ TearsTransaction n blocks) ∨
      ∃ b ∈ blocks, ∃ m < b.bytes.length, (TearsTransaction n blocks ↔ b.TornAt m) ∧
        (blockBytes blocks).take n = blockBytes (completeBlocks n blocks) ++ b.bytes.take m := by
  induction blocks generalizing n with
  | nil => exact .inl ⟨by simp [blockBytes, completeBlocks, entryBytes], id⟩
  | cons b blocks ih =>
    have hcons : ∀ bs : List (Block table), blockBytes (b :: bs) = b.bytes ++ blockBytes bs := by
      intro bs
      rw [blockBytes, flatMap_cons, map_append, entryBytes_append]
      rfl
    rw [completeBlocks, TearsTransaction, hcons]
    split_ifs with hn
    · rw [take_append, take_of_length_le hn, hcons]
      rcases ih (n - b.bytes.length) with ⟨htake, hnot⟩ | ⟨b', hb', m, hm, hiff, htake⟩
      · exact .inl ⟨by rw [htake], hnot⟩
      · exact .inr ⟨b', by simp [hb'], m, hm, hiff, by rw [htake, append_assoc]⟩
    · refine .inr ⟨b, by simp, n, by omega, Iff.rfl, ?_⟩
      rw [take_append_of_le_length (by omega)]
      rfl

theorem Block.take_bytes (hflat : b.Flat) {m : ℕ} (hm : m < b.bytes.length) :
    ∃ (rs : List (Record table)) (p : Bytes), b.bytes.take m = entryBytes (rs.map Record.entry) ++ p ∧
      Opening rs ∧ (p = [] ∨ ∃ e : Entry, Torn p e.bytes) ∧ (b.TornAt m ↔ rs ≠ [] ∧ p ≠ []) := by
  obtain ⟨p, htake, hp⟩ := take_entryBytes m (b.records.map Record.entry)
  obtain ⟨k, hk⟩ : ∃ k, completeIn m (b.records.map Record.entry) = (b.records.take k).map Record.entry := by
    refine ⟨(completeIn m (b.records.map Record.entry)).length, ?_⟩
    rw [map_take]
    exact prefix_iff_eq_take.mp (completeIn_initial m _)
  have hlen := congrArg List.length htake
  rw [length_take, length_append, hk] at hlen
  change min m b.bytes.length = _ at hlen
  have hshort : (entryBytes ((b.records.take k).map Record.entry)).length < b.bytes.length := by omega
  refine ⟨b.records.take k, p, by rw [← hk]; exact htake, ?_, ?_, ?_⟩
  · -- the whole commands are not all of the block
    have hk' : k < b.records.length := by
      by_contra hge
      rw [take_of_length_le (by omega)] at hshort
      exact absurd hshort (lt_irrefl _)
    cases b with
    | command r single =>
      obtain rfl : k = 0 := by simpa [Block.records] using hk'
      exact .inl rfl
    | transaction multi body exec opens inside closes =>
      cases k with
      | zero => exact .inl rfl
      | succ k =>
        simp only [Block.records, cons_append, length_cons, length_append, length_nil] at hk'
        refine .inr ⟨multi, body.take k, ?_, opens, ?_⟩
        · rw [Block.records, cons_append, take_succ_cons, take_append_of_le_length (by omega)]
        · intro r hr
          have hmem := mem_of_mem_take hr
          exact ⟨inside r hmem, hflat r hmem⟩
  · rcases hp with hp | ⟨e, -, -, htorn⟩
    · exact .inl hp
    · exact .inr ⟨e, htorn⟩
  · have hp : p = [] ↔ (entryBytes ((b.records.take k).map Record.entry)).length = m := by
      rw [← length_eq_zero_iff]
      omega
    rw [Block.TornAt, hk, Ne, map_eq_nil_iff]
    exact and_congr_right fun _ => not_congr hp.symm

/-- The load returns, executes the commands and transactions that are whole, and so does a load
of what it leaves of the file; and that is just these commands and transactions unless the cut
tears a command of a transaction. -/
theorem truncated_load_iff (hflat : ∀ b ∈ blocks, b.Flat) (n dbnum : ℕ) (now now' : ℤ)
    (data : D) (aof aof' : AofBuffer) :
    ∃ l, table.loadAndTruncate dbnum now true ((blockBytes blocks).take n) data aof = .returned l ∧
      l.loading.data = execute dbnum (completeBlocks n blocks) data ∧
      (l.file ((blockBytes blocks).take n) = blockBytes (completeBlocks n blocks) ↔ ¬ TearsTransaction n blocks) ∧
      ∃ l', table.loadAndTruncate dbnum now' true (l.file ((blockBytes blocks).take n)) data aof' = .returned l' ∧
        l'.loading.data = l.loading.data := by
  obtain ⟨rs, p, htake, hrs, hp, htears⟩ : ∃ (rs : List (Record table)) (p : Bytes),
      (blockBytes blocks).take n = blockBytes (completeBlocks n blocks) ++ entryBytes (rs.map Record.entry) ++ p ∧
        Opening rs ∧ (p = [] ∨ ∃ e : Entry, Torn p e.bytes) ∧ (TearsTransaction n blocks ↔
          rs ≠ [] ∧ p ≠ []) := by
    rcases take_blockBytes n blocks with ⟨htake, hnot⟩ | ⟨b, hb, m, hm, hiff, htake⟩
    · exact ⟨[], [], by simp [htake, entryBytes], .inl rfl, .inl rfl, by simpa using hnot⟩
    · obtain ⟨rs, p, hbytes, hrs, hp, htears⟩ := b.take_bytes (hflat b hb) hm
      exact ⟨rs, p, by rw [htake, hbytes, append_assoc], hrs, hp, hiff.trans htears⟩
  obtain ⟨l, hload, hdata, hfile⟩ := load_cut dbnum now (completeBlocks n blocks) hrs hp data aof
  rw [htake]
  refine ⟨l, hload, hdata, ?_, ?_⟩
  · rw [hfile, htears, append_right_eq_self]
    by_cases hnil : p = []
    · simp [hnil]
    · rw [if_neg hnil]
      cases rs with
      | nil => simp [entryBytes]
      | cons r rs => simp [entryBytes, r.entry.bytes_ne_nil, hnil]
  · rw [hfile]
    by_cases hnil : p = []
    · obtain ⟨l', hload', hdata', -⟩ :=
        load_cut dbnum now' (completeBlocks n blocks) (.inl rfl) (.inl rfl) data aof'
      simp only [map_nil, entryBytes, flatMap_nil, append_nil] at hload'
      exact ⟨l', by rw [if_pos hnil, append_nil]; exact hload', hdata'.trans hdata.symm⟩
    · obtain ⟨l', hload', hdata', -⟩ := load_cut dbnum now' (completeBlocks n blocks) hrs (.inl rfl) data aof'
      rw [append_nil] at hload'
      exact ⟨l', by rw [if_neg hnil]; exact hload', hdata'.trans hdata.symm⟩

/-- The log `SET n 9`, and `MULTI`, `GET n`, `SET n 9`, `EXEC`. -/
def blocksOfTwo : List (Block redisCommandTable) := [.command setRecord rfl, writingBlock]

/-- Cut between the commands of the transaction, and cut back to before it. -/
theorem truncated_load_between :
    ∃ l, redisCommandTable.loadAndTruncate 16 0 true ((blockBytes blocksOfTwo).take 62)
      (fun _ => emptyDb) startedAof =
        .returned l ∧ l.file ((blockBytes blocksOfTwo).take 62) = blockBytes (completeBlocks 62 blocksOfTwo) := by
  have hflat : ∀ b ∈ blocksOfTwo, b.Flat := by
    simp only [blocksOfTwo, forall_mem_cons]
    refine ⟨trivial, ?_, by simp⟩
    change ∀ r ∈ [getRecord, setRecord], _
    decide
  obtain ⟨l, hload, -, hfile, -⟩ :=
    truncated_load_iff blocksOfTwo hflat 62 16 0 0 (fun _ => emptyDb) startedAof startedAof
  exact ⟨l, hload, hfile.mpr (by decide +kernel)⟩

/-- A transaction cut inside its `SET` leaves a `MULTI` and a `GET` in the file, 35 bytes. A `SET`
that is logged after the load ends up in the open transaction: the next load does not execute
it. -/
theorem torn_transaction_stays :
    ∃ l l', redisCommandTable.loadAndTruncate 16 0 true ((blockBytes [writingBlock]).take 40) (fun _ => emptyDb)
          startedAof = .returned l ∧ l.truncatedTo = some 35 ∧
      blockBytes (completeBlocks 40 [writingBlock]) = [] ∧ redisCommandTable.loadAndTruncate 16 0 true
          (l.file ((blockBytes [writingBlock]).take 40) ++ blockBytes [.command setRecord rfl]) (fun _ => emptyDb)
          startedAof = .returned l' ∧ l'.loading.data 0 (ascii ['n']) = none := by
  exact ⟨_, _, rfl, by decide +kernel, by decide +kernel, rfl, by decide +kernel⟩

end RedisIR
