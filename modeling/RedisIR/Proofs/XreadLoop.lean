import RedisIR.Lib.Machine
import RedisIR.Proofs.Stream

/-! A client that reads a stream with `XREAD` and passes the last ID that it received, while others
add to the stream. -/

namespace RedisIR.Streams

open CLib List StreamID Option

variable {full : Node → Bool} {x : StreamID} {r : Reader} {T : List Call}

namespace Xread

/-- What happens to the stream: an `XADD`, with an ID or with the time at which one is made, or a
non-blocking `XREAD` of the client. -/
inductive Action
  | xadd (useId : Option StreamID) (mstime : ℕ) (fields : Fields)
  | xread (count : ℕ)

structure Reader where
  stream : Stream
  /-- the last ID received, or the one that the client starts from -/
  last : StreamID

/-- A call of the client, with the live entries of the stream at that time. -/
structure Call where
  gt : StreamID
  count : ℕ
  reply : List Item
  entries : List Item

def step (full : Node → Bool) : Action → Reader → Reader × List Call
  | .xadd useId mstime fields, r =>
    match streamAppendItem full r.stream fields useId mstime with
    | none => (r, [])
    | some (s, _) => ({ r with stream := s }, [])
  | .xread count, r =>
    let reply := (xreadCommand r.stream r.last count).getD []
    ({ r with last := (reply.getLast?.map Item.id).getD r.last },
      [⟨r.last, count, reply, live (items r.stream.nodes)⟩])

end Xread

open Xread

theorem seqSucc_le_iff {a b : StreamID} (h : a.seq ≠ BitVec.allOnes 64) : a.seqSucc ≤ b ↔ a < b := by
  have hne : a.seq.toNat ≠ 2 ^ 64 - 1 := fun he => h (BitVec.eq_of_toNat_eq (by rw [he, BitVec.toNat_allOnes]))
  have hadd : (a.seq + 1).toNat = a.seq.toNat + 1 := by
    rw [BitVec.toNat_add]
    exact Nat.mod_eq_of_lt (by change a.seq.toNat + 1 < 2 ^ 64; omega)
  simp only [le_iff, lt_iff, StreamID.number, StreamID.seqSucc, hadd]
  omega

theorem xreadCommand_eq {s : Stream} (hs : s.Valid) {gt : StreamID} (hgt : gt.seq ≠ BitVec.allOnes 64) (count : ℕ) :
    (xreadCommand s gt count).getD [] = limit count ((live (items s.nodes)).filter (fun it => gt < it.id)) := by
  rw [xreadCommand]
  split_ifs with h
  · simp [getD_some, hs.range, seqSucc_le_iff hgt, le_max, and_true]
  · -- nothing is served, and there is nothing after the ID
    have hnil : (live (items s.nodes)).filter (fun it => gt < it.id) = [] := by
      rw [filter_eq_nil_iff]
      intro it hit
      have hle := hs.bounded it (mem_live.mp hit).1
      have hpos : s.length ≠ 0 := by
        rw [hs.length]
        exact (length_pos_of_mem hit).ne'
      rw [streamCompareID_pos] at h
      simpa using hle.trans (not_lt.mp fun hlt => h ⟨hpos, hlt⟩)
    rw [hnil, limit]
    simp

theorem eq_of_mem_iff {l l' : List Item} (hl : l.Pairwise (fun a b => a.id < b.id))
    (hl' : l'.Pairwise (fun a b => a.id < b.id)) (h : ∀ it, it ∈ l ↔ it ∈ l') : l = l' := by
  have hnd : ∀ l : List Item, l.Pairwise (fun a b => a.id < b.id) → l.Nodup := fun l hl => hl.imp fun hab he => by
    subst he
    exact lt_irrefl _ hab
  exact ((perm_ext_iff_of_nodup (hnd l hl) (hnd l' hl')).mpr h).eq_of_pairwise
    (fun a b _ _ hab hba => absurd (hab.trans hba) (lt_irrefl _)) hl hl'

theorem limit_isPrefix (count : ℕ) (l : List Item) : limit count l <+: l := by
  rw [limit]
  split_ifs
  · exact prefix_rfl
  · exact take_prefix ..

theorem mem_beginning {l l' : List Item} (hs : l'.Pairwise (fun a b => a.id < b.id)) (h : l <+: l') {e : Item}
    (he : l.getLast? = some e) (it : Item) : it ∈ l ↔ it ∈ l' ∧ it.id ≤ e.id := by
  obtain ⟨t, rfl⟩ := h
  obtain ⟨hl, -, hlt⟩ := pairwise_append.mp hs
  have hmem : e ∈ l := List.mem_of_getLast? he
  constructor
  · intro hit
    refine ⟨mem_append_left _ hit, ?_⟩
    obtain ⟨a, rfl⟩ := List.getLast?_eq_some_iff.mp he
    rcases mem_append.mp hit with hit | hit
    · exact ((pairwise_append.mp hl).2.2 it hit e (by simp)).le
    · exact (mem_singleton.mp hit) ▸ le_rfl
  · rintro ⟨hit, hle⟩
    rcases mem_append.mp hit with hit | hit
    · exact hit
    · exact absurd (hlt e hmem it hit) (not_lt.mpr hle)

/-- What holds of the client and of its calls so far, if it started from `x`: it has received
exactly the entries after `x` up to the ID that it holds. -/
structure Xread.Seen (x : StreamID) (r : Reader) (T : List Call) : Prop where
  valid : r.stream.Valid
  le : x ≤ r.last
  bounded : r.last = x ∨ r.last ≤ r.stream.lastId
  received : T.flatMap Call.reply = (live (items r.stream.nodes)).filter (fun it => x < it.id ∧ it.id ≤ r.last)
  calls : ∀ c ∈ T, c.entries.Pairwise (fun a b => a.id < b.id) ∧
    c.reply = limit c.count (c.entries.filter (fun it => c.gt < it.id))

theorem Xread.Seen.xadd (h : Seen x r T) (useId : Option StreamID) (mstime : ℕ) (fields : Fields) :
    Seen x (step full (.xadd useId mstime fields) r).1 (T ++ (step full (.xadd useId mstime fields) r).2) := by
  rw [step]
  rcases happ : streamAppendItem full r.stream fields useId mstime with _ | ⟨s, id⟩
  · simpa using h
  · obtain ⟨hv, hlive, hlast⟩ := h.valid.append happ
    have hlt := (streamAppendItem_some happ).2.1
    have hle : r.stream.lastId ≤ s.lastId := by
      rw [hlast]
      exact hlt.le
    refine ⟨hv, h.le, h.bounded.imp_right fun hb => hb.trans hle, ?_, by simpa using h.calls⟩
    -- the new entry is beyond everything received
    have hnew : ¬ (x < id ∧ id ≤ r.last) := by
      rintro ⟨hx, hle⟩
      rcases h.bounded with hb | hb
      · exact absurd (hx.trans_le hle) (hb ▸ lt_irrefl _)
      · exact absurd (hlt.trans_le hle) (not_lt.mpr hb)
    simp [hlive, h.received, filter_append, hnew]

theorem Xread.Seen.xread (h : Seen x r T) (hlast : r.last.seq ≠ BitVec.allOnes 64) (count : ℕ) :
    Seen x (step full (.xread count) r).1 (T ++ (step full (.xread count) r).2) := by
  have hreply := xreadCommand_eq h.valid hlast count
  have hsorted := live_sorted h.valid.sorted
  rw [step]
  simp only [hreply]
  set F := (live (items r.stream.nodes)).filter (fun it => r.last < it.id) with hF
  have hFs : F.Pairwise (fun a b => a.id < b.id) := hsorted.filter _
  have hcalls : ∀ c ∈ T ++ [(⟨r.last, count, limit count F, live (items r.stream.nodes)⟩ : Call)],
      c.entries.Pairwise (fun a b => a.id < b.id) ∧
        c.reply = limit c.count (c.entries.filter (fun it => c.gt < it.id)) := by
    intro c hc
    rcases mem_append.mp hc with hc | hc
    · exact h.calls c hc
    · obtain rfl := mem_singleton.mp hc
      exact ⟨hsorted, rfl⟩
  rcases hl : (limit count F).getLast? with _ | e
  · have hnil : limit count F = [] := List.getLast?_eq_none_iff.mp hl
    refine ⟨h.valid, h.le, h.bounded, ?_, hcalls⟩
    simpa [hnil] using h.received
  · have hbeg := mem_beginning hFs (limit_isPrefix count F) hl
    have heF : e ∈ F := (limit_isPrefix count F).subset (List.mem_of_getLast? hl)
    obtain ⟨heL, helt⟩ : e ∈ live (items r.stream.nodes) ∧ r.last < e.id := by simpa [hF] using heF
    refine ⟨h.valid, h.le.trans helt.le, .inr (h.valid.bounded e (mem_live.mp heL).1), ?_, hcalls⟩
    simp only [flatMap_append, h.received, flatMap_cons, flatMap_nil, append_nil, map_some,
      getD_some]
    -- both sides are sorted and hold the entries after `x` up to the last one received
    refine eq_of_mem_iff (pairwise_append.mpr ⟨hsorted.filter _, hFs.sublist (limit_isPrefix count F).sublist, ?_⟩)
      (hsorted.filter _) fun it => ?_
    · intro a ha b hb
      have hb := (limit_isPrefix count F).subset hb
      simp only [hF, mem_filter, decide_eq_true_eq] at ha hb
      exact ha.2.2.trans_lt hb.2
    · rw [mem_append, hbeg]
      simp only [hF, mem_filter, decide_eq_true_eq]
      constructor
      · rintro (⟨hit, hx, hle⟩ | ⟨⟨hit, hgt⟩, hle⟩)
        · exact ⟨hit, hx, hle.trans helt.le⟩
        · exact ⟨hit, h.le.trans_lt hgt, hle⟩
      · rintro ⟨hit, hx, hle⟩
        rcases le_or_gt it.id r.last with hr | hr
        · exact .inl ⟨hit, hx, hr⟩
        · exact .inr ⟨⟨hit, hr⟩, hle⟩

theorem Xread.Seen.run (h : Seen x r T) {as : List Action}
    (has : ∀ c ∈ (Machine.run (step full) as r).2, c.gt.seq ≠ BitVec.allOnes 64) :
    Seen x (Machine.run (step full) as r).1 (T ++ (Machine.run (step full) as r).2) := by
  induction as generalizing r T with
  | nil => simpa [Machine.run] using h
  | cons a as ih =>
    simp only [Machine.run, mem_append] at has
    rw [Machine.run, ← append_assoc]
    refine ih ?_ fun c hc => has c (.inr hc)
    cases a with
    | xadd useId mstime fields => exact h.xadd useId mstime fields
    | xread count => exact h.xread (has _ (.inl (by rw [step]; exact mem_singleton_self _))) count

/-- Over any interleaving of `XADD` commands and calls, as long as no call passes an ID with the
greatest sequence number: a call returns, in increasing order, the first entries after the ID that
it passes, and all calls together have returned every entry after `x` up to the ID that the client
holds, once each. -/
theorem xread_loop_sees_every_entry_once (full : Node → Bool) (s : Stream) (hs : s.Valid) (x : StreamID)
    (as : List Action) (h : ∀ c ∈ (Machine.run (step full) as ⟨s, x⟩).2, c.gt.seq ≠ BitVec.allOnes 64) :
    (∀ c ∈ (Machine.run (step full) as ⟨s, x⟩).2, c.reply =
      limit c.count (c.entries.filter (fun it => c.gt < it.id)) ∧
      c.reply.Pairwise (fun a b => a.id < b.id) ∧ ∀ it ∈ c.reply, c.gt < it.id) ∧
    (Machine.run (step full) as ⟨s, x⟩).2.flatMap Call.reply =
      (live (items (Machine.run (step full) as ⟨s, x⟩).1.stream.nodes)).filter
        (fun it => x < it.id ∧ it.id ≤ (Machine.run (step full) as ⟨s, x⟩).1.last) := by
  have hstart : Seen x ⟨s, x⟩ [] := by
    refine ⟨hs, le_rfl, .inl rfl, ?_, by simp⟩
    symm
    rw [flatMap_nil, filter_eq_nil_iff]
    intro it _
    simp
  have hrun := hstart.run h
  rw [nil_append] at hrun
  refine ⟨fun c hc => ?_, hrun.received⟩
  obtain ⟨hsorted, hreply⟩ := hrun.calls c hc
  have hpre := limit_isPrefix c.count (c.entries.filter (fun it => c.gt < it.id))
  rw [← hreply] at hpre
  refine ⟨hreply, (hsorted.filter _).sublist hpre.sublist, fun it hit => ?_⟩
  simpa using (mem_filter.mp (hpre.subset hit)).2

def twoReads : List Action :=
  [.xadd (some ⟨1, 5⟩) 0 [([102], [49])], .xread 1, .xadd none 7 [([102], [50])], .xread 0]

theorem twoReads_see_both :
    (Machine.run (step fun _ => false) twoReads ⟨streamNew, .zero⟩).2.map (fun c => c.reply.map Item.id) =
        [[⟨1, 5⟩], [⟨7, 0⟩]] ∧
          (Machine.run (step fun _ => false) twoReads ⟨streamNew, .zero⟩).2.flatMap Call.reply =
        (live (items (Machine.run (step fun _ => false) twoReads ⟨streamNew, .zero⟩).1.stream.nodes)).filter
          (fun it => .zero < it.id ∧
            it.id ≤ (Machine.run (step fun _ => false) twoReads ⟨streamNew, .zero⟩).1.last) :=
  ⟨by decide, (xread_loop_sees_every_entry_once _ _ streamNew_valid _ twoReads (by decide)).2⟩

/-- The entry with the greatest sequence number of its millisecond is returned again as soon as
there is a later one. -/
def greatestSeq : List Action :=
  [.xadd (some ⟨1, BitVec.allOnes 64⟩) 0 [([102], [49])], .xread 0,
    .xadd (some ⟨2, 0⟩) 0 [([102], [50])], .xread 0]

theorem greatestSeq_returned_twice : (Machine.run (step fun _ => false) greatestSeq ⟨streamNew, .zero⟩).2.map
        (fun c => (c.gt, c.reply.map Item.id)) =
      [(.zero, [⟨1, BitVec.allOnes 64⟩]),
        (⟨1, BitVec.allOnes 64⟩, [⟨1, BitVec.allOnes 64⟩, ⟨2, 0⟩])] := by
  decide

end RedisIR.Streams
