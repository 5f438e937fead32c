import RedisIR.Proofs.Synchronous
import RedisIR.Spec.AofFile

/-! No byte that is fed to the log is lost or written twice, however the writes end: the
file and the buffer together are what was fed. -/

namespace RedisIR.AofFile

open CLib List Outcome

variable {n : ℤ} {s s' : Server} {env : Env}

/-! ### `aofWrite` -/

theorem aofWriteLoop_empty (synchronous : Bool) (rs : List WriteResult) (file : Bytes) (tot : ℕ) (ix : DbFile) :
    aofWriteLoop synchronous rs file [] tot ix = .returned (file, tot, ix) := by
  cases rs with
  | nil => simp [aofWriteLoop]
  | cons r rs => cases r <;> simp [aofWriteLoop]

/-- A part of the buffer is at the end of the file, and its length is returned, -1 for none;
without an error it is all of it. -/
theorem aofWriteLoop_returned {synchronous : Bool} {rs : List WriteResult} {file buf file' : Bytes} {tot : ℕ}
    {ix ix' : DbFile} (h : aofWriteLoop synchronous rs file buf tot ix = .returned (file', n, ix')) :
    ∃ k ≤ buf.length, file' = file ++ buf.take k ∧ (n = (tot + k : ℕ) ∨ n = -1 ∧ tot = 0 ∧
      k = 0 ∧ .error ∈ rs) ∧ (.error ∉ rs → k = buf.length) := by
  by_cases hbuf : buf = []
  · subst hbuf
    rw [aofWriteLoop_empty] at h
    cases h
    exact ⟨0, le_refl _, by simp, .inl rfl, fun _ => rfl⟩
  induction rs generalizing file buf tot ix with
  | nil =>
    rw [aofWriteLoop, if_neg hbuf] at h
    obtain ⟨ix1, -, h⟩ := bind_eq_returned.mp h
    cases h
    exact ⟨buf.length, le_refl _, by simp, .inl (by push_cast; rfl), fun _ => rfl⟩
  | cons r rs ih =>
    cases r with
    | eintr =>
      rw [aofWriteLoop, if_neg hbuf] at h
      obtain ⟨k, hk, hfile, hn, hall⟩ := ih h hbuf
      refine ⟨k, hk, hfile, hn.imp_right ?_, fun hrs => hall fun hmem => hrs (by simp [hmem])⟩
      exact fun ⟨hn, htot, hk0, hmem⟩ => ⟨hn, htot, hk0, by simp [hmem]⟩
    | error =>
      rw [aofWriteLoop, if_neg hbuf] at h
      cases h
      refine ⟨0, Nat.zero_le _, by simp, ?_, fun hrs => absurd (by simp) hrs⟩
      by_cases htot : tot = 0
      · exact .inr ⟨by simp [htot], htot, rfl, by simp⟩
      · exact .inl (by simp [htot])
    | wrote w =>
      rw [aofWriteLoop, if_neg hbuf] at h
      obtain ⟨ix1, -, h⟩ := bind_eq_returned.mp h
      by_cases hw : buf.length ≤ w
      · rw [drop_eq_nil_of_le hw, take_of_length_le hw, aofWriteLoop_empty] at h
        cases h
        exact ⟨buf.length, le_refl _, by simp, .inl rfl, fun _ => rfl⟩
      · have hrest : buf.drop w ≠ [] := by
          rw [Ne, drop_eq_nil_iff]
          exact hw
        obtain ⟨k, hk, hfile, hn, hall⟩ := ih h hrest
        rw [length_take, min_eq_left (by omega)] at hn
        rw [length_drop] at hk hall
        refine ⟨w + k, by omega, ?_, ?_, ?_⟩
        · rw [hfile, append_assoc, take_add]
        · rw [← Nat.add_assoc]
          exact hn.imp_right fun ⟨hn, htot, hk0, hmem⟩ => ⟨hn, by omega, by omega, by simp [hmem]⟩
        · intro hrs
          have := hall fun hmem => hrs (by simp [hmem])
          omega

theorem aofWriteLoop_returns (rs : List WriteResult) (file buf : Bytes) (tot : ℕ) (ix : DbFile) :
    ∃ file' n, aofWriteLoop false rs file buf tot ix = .returned (file', n, ix) := by
  induction rs generalizing file buf tot with
  | nil =>
    rw [aofWriteLoop]
    split_ifs
    · exact ⟨_, _, rfl⟩
    · exact ⟨_, _, rfl⟩
  | cons r rs ih =>
    by_cases hbuf : buf = []
    · exact ⟨_, _, hbuf ▸ aofWriteLoop_empty ..⟩
    cases r with
    | eintr | wrote w =>
      rw [aofWriteLoop, if_neg hbuf]
      exact ih ..
    | error =>
      rw [aofWriteLoop, if_neg hbuf]
      exact ⟨_, _, rfl⟩

/-! ### Synchronous indexing under short writes -/

/-- No `write` fails, and a short one ends with a command. -/
inductive WholeWrites : List LogCmd → List WriteResult → Prop
  | rest (L : List LogCmd) : WholeWrites L []
  | written (rs : List WriteResult) : WholeWrites [] rs
  | eintr {L : List LogCmd} {rs : List WriteResult} (h : WholeWrites L rs) : WholeWrites L (.eintr :: rs)
  | wrote (L₁ : List LogCmd) {L₂ : List LogCmd} {rs : List WriteResult} (h : WholeWrites L₂ rs) :
      WholeWrites (L₁ ++ L₂) (.wrote (aofBytes L₁).length :: rs)

/-- The record that is indexed last for a key. -/
def lastRecord (k : CStr) (ps : List (CStr × CStr)) : Option CStr :=
  (ps.filter fun p => p.1 = k).getLast?.map fun p => syncText p.1 p.2

theorem lastRecord_append (k : CStr) (ps qs : List (CStr × CStr)) :
    lastRecord k (ps ++ qs) = (lastRecord k qs).or (lastRecord k ps) := by
  rw [lastRecord, filter_append, getLast?_append, lastRecord, lastRecord]
  cases (qs.filter fun p => p.1 = k).getLast? <;> rfl

theorem get_foldl_indexSet (k : CStr) (ps : List (CStr × CStr)) (m : IndexedLog) :
    (ps.foldl (fun m p => indexSet m p.1 p.2) m).get k = (lastRecord k ps).elim (m.get k) fun r => [r] := by
  induction ps using List.reverseRecOn with
  | nil => rfl
  | append_singleton ps p ih =>
    rw [foldl_append, foldl_cons, foldl_nil, indexSet, get_replace, lastRecord_append]
    by_cases hp : p.1 = k
    · simp [lastRecord, hp]
    · simp [lastRecord, hp, ih]

theorem foldl_indexSet_eq_iff (ps qs : List (CStr × CStr)) :
    (∀ (m : IndexedLog) k, (ps.foldl (fun m p => indexSet m p.1 p.2) m).get k =
      (qs.foldl (fun m p => indexSet m p.1 p.2) m).get k) ↔ ∀ k, lastRecord k ps = lastRecord k qs := by
  simp only [get_foldl_indexSet]
  refine ⟨fun h k => ?_, fun h m k => by rw [h]⟩
  have hk := h Multimap.empty k
  have hempty : (Multimap.empty : IndexedLog).get k = [] := rfl
  cases hp : lastRecord k ps <;> cases hq : lastRecord k qs <;> simp_all

/-- What the scans of the rest of the buffer, one after each `write`, index together. -/
def scans : List WriteResult → Bytes → Outcome (List (CStr × CStr))
  | [], buf => if buf = [] then .returned [] else synchronousPairs buf
  | .eintr :: rs, buf => scans rs buf
  | .error :: _, _ => .returned []
  | .wrote n :: rs, buf =>
    if buf = [] then .returned []
    else (synchronousPairs buf).bind fun ps => (scans rs (buf.drop n)).bind fun qs => .returned (ps ++ qs)

theorem scans_empty (rs : List WriteResult) : scans rs [] = .returned [] := by
  induction rs with
  | nil => rfl
  | cons r rs ih =>
    cases r with
    | eintr => exact ih
    | _ => rfl

/-- The file and the number that is returned do not depend on the index. -/
theorem aofWriteLoop_scans (rs : List WriteResult) (file buf : Bytes) (tot : ℕ) : ∃ file' n, ∀ m,
    aofWriteLoop true rs file buf tot (.ok m) = (scans rs buf).bind fun ps =>
      .returned (file', n, .ok (ps.foldl (fun m p => indexSet m p.1 p.2) m)) := by
  by_cases hbuf : buf = []
  · subst hbuf
    exact ⟨file, tot, fun m => by rw [aofWriteLoop_empty, scans_empty]; rfl⟩
  induction rs generalizing file buf tot with
  | nil =>
    refine ⟨file ++ buf, tot + buf.length, fun m => ?_⟩
    rw [aofWriteLoop, if_neg hbuf, indexWritten, if_pos rfl, synchronousIndexing_pairs, scans, if_neg hbuf]
    cases synchronousPairs buf <;> rfl
  | cons r rs ih =>
    cases r with
    | eintr =>
      obtain ⟨file', n, h⟩ := ih file buf tot hbuf
      exact ⟨file', n, fun m => by rw [aofWriteLoop, if_neg hbuf]; exact h m⟩
    | error => exact ⟨file, _, fun m => by rw [aofWriteLoop, if_neg hbuf]; rfl⟩
    | wrote w =>
      obtain ⟨file', n, h⟩ : ∃ file' n, ∀ m, aofWriteLoop true rs (file ++ buf.take w) (buf.drop w)
          (tot + (buf.take w).length) (.ok m) = (scans rs (buf.drop w)).bind fun ps =>
            .returned (file', n, .ok (ps.foldl (fun m p => indexSet m p.1 p.2) m)) := by
        by_cases hrest : buf.drop w = []
        · rw [hrest]
          exact ⟨_, _, fun m => by rw [aofWriteLoop_empty, scans_empty]; rfl⟩
        · exact ih _ _ _ hrest
      refine ⟨file', n, fun m => ?_⟩
      rw [aofWriteLoop, if_neg hbuf, indexWritten, if_pos rfl, synchronousIndexing_pairs, scans, if_neg hbuf]
      cases synchronousPairs buf with
      | returned ps =>
        simp only [Outcome.bind_returned, h]
        cases scans rs (buf.drop w) with
        | returned qs => simp [foldl_append]
        | _ => rfl
      | _ => rfl

/-- The scans find the lines that they read, and what they index last for a key is what the scan of the
whole buffer does. -/
def ScansAgree (rs : List WriteResult) (buf : Bytes) : Prop :=
  ∃ ps qs, scans rs buf = .returned ps ∧ synchronousPairs buf = .returned qs ∧
    ∀ k, lastRecord k ps = lastRecord k qs

theorem scansAgree_wholeWrites {L : List LogCmd} {rs : List WriteResult} (h : WholeWrites L rs)
    (hL : ∀ c ∈ L, ∀ a ∈ c.op.args, FitsSync a) : ScansAgree rs (aofBytes L) := by
  have hpairs := synchronousPairs_aofBytes L hL
  by_cases hnil : aofBytes L = []
  · rw [hnil] at hpairs ⊢
    exact ⟨[], _, scans_empty rs, hpairs, fun k => by obtain rfl := aofBytes_eq_nil hnil; rfl⟩
  induction h with
  | rest L => exact ⟨_, _, by rw [scans, if_neg hnil, hpairs], hpairs, fun _ => rfl⟩
  | written rs => exact absurd rfl hnil
  | eintr h ih => exact ih hL hpairs hnil
  | @wrote L₁ L₂ rs h ih =>
    have hsplit : aofBytes (L₁ ++ L₂) = aofBytes L₁ ++ aofBytes L₂ := flatMap_append
    have hL₂ : ∀ c ∈ L₂, ∀ a ∈ c.op.args, FitsSync a := fun c hc => hL c (by simp [hc])
    have hpairs₂ := synchronousPairs_aofBytes L₂ hL₂
    have hboth : setPairs ((L₁ ++ L₂).map LogCmd.entry) =
        setPairs (L₁.map LogCmd.entry) ++ setPairs (L₂.map LogCmd.entry) := by simp [setPairs]
    obtain ⟨ps, hps, hlast⟩ : ∃ ps, scans rs (aofBytes L₂) = .returned ps ∧
        ∀ k, lastRecord k ps = lastRecord k (setPairs (L₂.map LogCmd.entry)) := by
      by_cases hrest : aofBytes L₂ = []
      · obtain rfl := aofBytes_eq_nil hrest
        exact ⟨[], scans_empty rs, fun _ => rfl⟩
      · obtain ⟨ps, qs, hps, hqs, hlast⟩ := ih hL₂ hpairs₂ hrest
        cases hqs.symm.trans hpairs₂
        exact ⟨ps, hps, hlast⟩
    refine ⟨setPairs ((L₁ ++ L₂).map LogCmd.entry) ++ ps, _, ?_, hpairs, fun k => ?_⟩
    · rw [scans, if_neg hnil, hpairs, hsplit, drop_left, Outcome.bind_returned, hps]
      rfl
    · rw [lastRecord_append, hlast, hboth, lastRecord_append]
      cases lastRecord k (setPairs (L₂.map LogCmd.entry)) <;> rfl

theorem aofWriteLoop_eintr (synchronous : Bool) {es : List WriteResult} (hes : ∀ r ∈ es, r = .eintr)
    (rs : List WriteResult) {buf : Bytes} (hbuf : buf ≠ []) (file : Bytes) (tot : ℕ) (ix : DbFile) :
    aofWriteLoop synchronous (es ++ rs) file buf tot ix = aofWriteLoop synchronous rs file buf tot ix := by
  induction es with
  | nil => rfl
  | cons e es ih =>
    obtain rfl := hes e (by simp)
    rw [cons_append, aofWriteLoop, if_neg hbuf]
    exact ih (forall_mem_cons.mp hes).2

/-- The kernel answers as listed, and the log is indexed synchronously. -/
def synchronousKernel (writes : List WriteResult) : Env := ⟨.everysec, false, true, 10, false, false, writes, true⟩

/-- The first `k` bytes of the buffer have gone to the end of the file. -/
structure Moved (s s' : Server) (k : ℕ) : Prop where
  le : k ≤ s.aof.buf.length
  file : s'.file = s.file ++ s.aof.buf.take k
  aof : s'.aof = { s.aof with buf := s.aof.buf.drop k }
  size : s'.currentSize = s.currentSize + k

theorem Moved.refl (s : Server) : Moved s s 0 := ⟨Nat.zero_le _, by simp, by simp, rfl⟩

theorem tryFsync_moved (env : Env) (b : Bool) {k : ℕ} (h : Moved s s' k) : Moved s (tryFsync env b s') k := by
  unfold tryFsync
  split_ifs
  all_goals exact ⟨h.le, h.file, h.aof, h.size⟩

theorem writeFailed_moved {t : Server} {k : ℕ} (hs : s.currentSize = s.file.length) (hk : k ≤ s.aof.buf.length)
    (hfile : t.file = s.file ++ s.aof.buf.take k) (haof : t.aof = s.aof) (hsize : t.currentSize = s.currentSize)
    (hn : n = k ∨ n = -1 ∧ k = 0) (h : writeFailed env n t = .returned s') : ∃ k', Moved s s' k' := by
  unfold writeFailed at h
  by_cases halways : env.fsync = .always
  · simp [halways] at h
  simp only [if_neg halways, Outcome.returned.injEq] at h
  subst h
  by_cases hundone : n ≠ -1 ∧ env.ftruncateOk = true
  · refine ⟨0, ?_⟩
    simp only [if_pos hundone, show ¬ ((-1 : ℤ) > 0) by decide, if_false]
    refine ⟨Nat.zero_le _, ?_, by simp [haof], by simp [hsize]⟩
    simp [hfile, hsize, hs]
  · simp only [if_neg hundone]
    rcases hn with rfl | ⟨rfl, rfl⟩
    · refine ⟨k, ?_⟩
      by_cases hpos : (k : ℤ) > 0
      · rw [if_pos hpos]
        exact ⟨hk, hfile, by simp [haof], by simp [hsize]⟩
      · obtain rfl : k = 0 := by omega
        rw [if_neg hpos]
        exact ⟨hk, hfile, by simp [haof], by simp [hsize]⟩
    · refine ⟨0, ?_⟩
      rw [if_neg (by decide)]
      exact ⟨hk, hfile, by simp [haof], by simp [hsize]⟩

/-- What a flush that writes does; without an error the buffer is empty afterwards. -/
theorem flushWrite_moved {b : Bool} (hs : s.currentSize = s.file.length) (h : flushWrite env b s = .returned s') :
    ∃ k, Moved s s' k ∧ (.error ∉ env.writes → k = s.aof.buf.length) := by
  obtain ⟨⟨file', n, ix'⟩, hw, h⟩ := bind_eq_returned.mp h
  obtain ⟨k, hk, hfile, hn, hall⟩ := aofWriteLoop_returned hw
  rw [Nat.zero_add] at hn
  simp only at h
  split_ifs at h with hlen
  · obtain ⟨k', hm⟩ := writeFailed_moved (t := ⟨file', s.aof, s.currentSize, s.fsyncOffset, s.lastFsync, 0,
      s.delayedFsync, s.lastWriteOk, ix'⟩) hs hk hfile rfl rfl (hn.imp_right fun hn => ⟨hn.1, hn.2.2.1⟩) h
    refine ⟨k', hm, ?_⟩
    intro hrs
    have hk := hall hrs
    rcases hn with hn | ⟨-, -, -, hmem⟩
    · exact absurd (by rw [hn, hk]) hlen
    · exact absurd hmem hrs
  · cases h
    rw [not_not] at hlen
    obtain rfl : k = s.aof.buf.length := by omega
    exact ⟨_, tryFsync_moved env b ⟨le_refl _, hfile, by simp, by simp [hlen]⟩, fun _ => rfl⟩

/-- A flush that does not wait for an `fsync`. -/
def Direct (force : Bool) (env : Env) : Prop := force = true ∨ env.fsync ≠ .everysec ∨ env.fsyncInProgress = false

section

variable (hs : s.currentSize = s.file.length)
include hs

theorem flush_moved {force : Bool} (h : flushAppendOnlyFile force env s = .returned s') :
    ∃ k, Moved s s' k ∧ (Direct force env → .error ∉ env.writes → k = s.aof.buf.length) := by
  unfold flushAppendOnlyFile at h
  by_cases hbuf : s.aof.buf = []
  · rw [if_pos hbuf] at h
    refine ⟨0, ?_, by simp [hbuf]⟩
    split_ifs at h
    · cases h
      exact tryFsync_moved env false (.refl s)
    · cases h
      exact .refl s
  rw [if_neg hbuf] at h
  by_cases heverysec : env.fsync = .everysec
  · rw [if_pos heverysec] at h
    by_cases hwait : ¬ force = true ∧ env.fsyncInProgress = true
    · have hnot : ¬ Direct force env := by
        rintro (hf | he | hp)
        · exact hwait.1 hf
        · exact he heverysec
        · simp [hp] at hwait
      rw [if_pos hwait] at h
      split_ifs at h
      · cases h
        exact ⟨0, ⟨Nat.zero_le _, by simp, by simp, rfl⟩, fun hd => absurd hd hnot⟩
      · cases h
        exact ⟨0, .refl s, fun hd => absurd hd hnot⟩
      · obtain ⟨k, hm, -⟩ := flushWrite_moved (s := { s with delayedFsync := s.delayedFsync + 1 }) hs h
        exact ⟨k, ⟨hm.le, hm.file, hm.aof, hm.size⟩, fun hd => absurd hd hnot⟩
    · rw [if_neg hwait] at h
      obtain ⟨k, hm, hall⟩ := flushWrite_moved hs h
      exact ⟨k, hm, fun _ => hall⟩
  · rw [if_neg heverysec] at h
    obtain ⟨k, hm, hall⟩ := flushWrite_moved hs h
    exact ⟨k, hm, fun _ => hall⟩

/-- A flush that meets no error writes the whole buffer, as the model of the log without
failing writes does. -/
theorem flush_complete {force : Bool} (hdirect : Direct force env)
    (hrs : .error ∉ env.writes) (h : flushAppendOnlyFile force env s = .returned s') :
    (s'.file, s'.aof) = RedisIR.flushAppendOnlyFile s.file s.aof := by
  obtain ⟨k, hm, hall⟩ := flush_moved hs h
  obtain rfl := hall hdirect hrs
  rw [hm.file, hm.aof, RedisIR.flushAppendOnlyFile, take_length, drop_length]

/-! ### Runs -/

theorem exec_fed {c : Call} (hon : s.aof.state = .on)
    (h : c.exec s = .returned s') (cs : List Call) : s'.currentSize = s'.file.length ∧ s'.aof.state = .on ∧
      s'.file ++ s'.aof.buf ++ fed s'.aof.selectedDb cs = s.file ++ s.aof.buf ++ fed s.aof.selectedDb (c :: cs) := by
  cases c with
  | flush force env =>
    obtain ⟨k, hm, -⟩ := flush_moved hs h
    refine ⟨?_, by rw [hm.aof, hon], ?_⟩
    · rw [hm.size, hm.file, length_append, length_take, min_eq_left hm.le, hs]
    · rw [hm.file, hm.aof, append_assoc s.file, take_append_drop, fed]
  | feed now proc dictid argv =>
    obtain ⟨aof, haof, h⟩ := bind_eq_returned.mp h
    obtain ⟨cmds, hcmds, haof⟩ := bind_eq_returned.mp haof
    cases h
    cases haof
    refine ⟨hs, hon, ?_⟩
    simp [fed, hcmds, if_pos hon, foldl_catAppendOnly, nil_append, append_assoc]

theorem run_fed {cs : List Call} (hon : s.aof.state = .on)
    (h : run cs s = .returned s') :
    s'.currentSize = s'.file.length ∧ s'.file ++ s'.aof.buf = s.file ++ s.aof.buf ++ fed s.aof.selectedDb cs := by
  induction cs generalizing s with
  | nil =>
    cases h
    exact ⟨hs, by simp [fed]⟩
  | cons c cs ih =>
    obtain ⟨t, hc, h⟩ := bind_eq_returned.mp h
    obtain ⟨ht, hton, hfed⟩ := exec_fed hs hon hc cs
    obtain ⟨hsize, hrun⟩ := ih ht hton h
    exact ⟨hsize, hrun.trans hfed⟩

end

theorem run_append (cs ds : List Call) (s : Server) : run (cs ++ ds) s = (run cs s).bind (run ds) := by
  induction cs generalizing s with
  | nil => rfl
  | cons c cs ih =>
    rw [cons_append, run, run]
    cases c.exec s with
    | returned t => exact ih t
    | exited | overflowed => rfl

theorem exec_returns {c : Call} (hc : c.Tame) (s : Server) : ∃ s', c.exec s = .returned s' := by
  cases c with
  | feed now proc dictid argv =>
    obtain ⟨cmds, hcmds⟩ := hc
    exact ⟨_, by rw [Call.exec, feedAppendOnlyFile, hcmds]; exact rfl⟩
  | flush force env =>
    obtain ⟨halways, hsync⟩ := hc
    have hwrite : ∀ (b : Bool) (s : Server), ∃ s', flushWrite env b s = .returned s' := by
      intro b s
      obtain ⟨file', n, hw⟩ := aofWriteLoop_returns env.writes s.file s.aof.buf 0 s.indexedLog
      rw [flushWrite, aofWrite, hsync, hw]
      simp only [bind_returned, writeFailed, if_neg halways]
      split_ifs <;> exact ⟨_, rfl⟩
    rw [Call.exec, flushAppendOnlyFile]
    split_ifs
    all_goals first | exact ⟨_, rfl⟩ | exact hwrite ..

theorem run_returns {cs : List Call} (hcs : ∀ c ∈ cs, c.Tame) (s : Server) : ∃ s', run cs s = .returned s' := by
  induction cs generalizing s with
  | nil => exact ⟨s, rfl⟩
  | cons c cs ih =>
    obtain ⟨t, ht⟩ := exec_returns (hcs c (by simp)) s
    obtain ⟨s', hs'⟩ := ih (forall_mem_cons.mp hcs).2 t
    exact ⟨s', by rw [run, ht]; exact hs'⟩

/-- The file up to `aof_current_size`, which is all of it, and the buffer are what was fed.
Without a policy or a command that ends the process the run returns. Whatever happened
before, a flush without errors leaves the file with all that was fed. -/
theorem file_and_buffer_are_fed {s : Server} (hs : s.currentSize = s.file.length) (hon : s.aof.state = .on)
    (cs : List Call) : (∀ s', run cs s = .returned s' →
        s'.file.take s'.currentSize ++ s'.aof.buf = s.file ++ s.aof.buf ++ fed s.aof.selectedDb cs ∧
          s'.currentSize = s'.file.length) ∧ ((∀ c ∈ cs, c.Tame) → ∃ s', run cs s = .returned s') ∧
      ∀ force env s', Direct force env → .error ∉ env.writes → run (cs ++ [.flush force env]) s =
        .returned s' → s'.file = s.file ++ s.aof.buf ++ fed s.aof.selectedDb cs ∧ s'.aof.buf = [] := by
  refine ⟨?_, fun htame => run_returns htame s, ?_⟩
  · intro s' h
    obtain ⟨hsize, hfed⟩ := run_fed hs hon h
    exact ⟨by rw [hsize, take_length, hfed], hsize⟩
  · intro force env s' hdirect hrs h
    rw [run_append] at h
    obtain ⟨t, hrun, h⟩ := bind_eq_returned.mp h
    obtain ⟨u, hflush, h⟩ := bind_eq_returned.mp h
    cases h
    obtain ⟨hsize, hfed⟩ := run_fed hs hon hrun
    have hall := flush_complete hsize hdirect hrs hflush
    rw [RedisIR.flushAppendOnlyFile, Prod.mk.injEq] at hall
    exact ⟨by rw [hall.1, hfed], by rw [hall.2]⟩

def freshServer : Server := ⟨[], ⟨.on, [], -1⟩, 0, 0, 0, 0, 0, true, .missing⟩

/-- The kernel answers as listed, under the policy `everysec`. -/
def kernel (writes : List WriteResult) (ftruncateOk : Bool) : Env :=
  ⟨.everysec, false, false, 10, false, false, writes, ftruncateOk⟩

/-- A flush that writes five bytes and cannot undo them, and one that is undone. -/
def failingCalls : List Call :=
  [.feed 0 .other 0 [[68, 69, 76], [107]], .flush false (kernel [.wrote 5, .error] false),
    .feed 0 .other 0 [[68, 69, 76], [108]], .flush false (kernel [.wrote 7, .error] true)]

theorem file_and_buffer_failing :
    ∃ s', run (failingCalls ++ [.flush false (kernel [.eintr, .wrote 3] true)]) freshServer = .returned s' ∧
      s'.file = fed (-1) failingCalls ∧ s'.aof.buf = [] := by
  have htame : ∀ c ∈ failingCalls ++ [.flush false (kernel [.eintr, .wrote 3] true)], c.Tame := by
    simp [failingCalls, Call.Tame, kernel, translate]
  obtain ⟨s', hs'⟩ := run_returns htame freshServer
  have h := (@file_and_buffer_are_fed freshServer rfl rfl failingCalls).2.2 false _ s' (.inr (.inr rfl)) (by decide) hs'
  exact ⟨s', hs', h⟩

/-! ### A restart with instant recovery -/

/-- A restart that only indexes the log leaves `aof_current_size` at zero. -/
def instantRestart : Server := { freshServer with file := fed (-1) failingCalls }

/-- The first write that is cut short then removes the whole log when it is undone. -/
theorem instant_restart_loses_log :
    instantRestart.file.length = 63 ∧ ∃ s', run [.feed 0 .other 0 [[68, 69, 76], [109]],
        .flush false (kernel [.wrote 5, .error] true)] instantRestart = .returned s' ∧
      s'.file = [] ∧ s'.currentSize = 0 :=
  ⟨by decide, _, rfl, by decide, rfl⟩

end RedisIR.AofFile
