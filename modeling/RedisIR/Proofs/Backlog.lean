import RedisIR.Lib.Ring
import RedisIR.Spec.Backlog

/-! The backlog keeps the last bytes of the stream, as many as it has room for, and a replica that
goes on from one of them gets the stream from there. -/

namespace RedisIR.Replication

open CLib List Option

variable {b : Backlog} {r : Retained}

/-! ### What the backlog is for -/

/-- The room that there is, and the last bytes of the stream in it. -/
structure Retained where
  size : ℕ
  bytes : Bytes

/-- More bytes push out the oldest ones; with another size the history starts again. -/
def Retained.exec (r : Retained) : BacklogOp → Retained
  | .feed p => ⟨r.size, (r.bytes ++ p).drop ((r.bytes ++ p).length - r.size)⟩
  | .resize newsize => if (r.size : ℤ) = max newsize minSize then r else ⟨(max newsize minSize).toNat, []⟩

def fed (ops : List BacklogOp) : Bytes :=
  ops.flatMap fun
    | .feed p => p
    | .resize _ => []

theorem Retained.run_suffix (ops : List BacklogOp) {r : Retained} {before : Bytes} (h : r.bytes <:+ before) :
    (ops.foldl Retained.exec r).bytes <:+ before ++ fed ops := by
  induction ops generalizing r before with
  | nil => simpa [fed] using h
  | cons op ops ih =>
    cases op with
    | feed p =>
      have hstep : (r.exec (.feed p)).bytes <:+ before ++ p :=
        (drop_suffix ..).trans (suffix_append_self_iff.mpr h)
      simpa [fed] using ih hstep
    | resize newsize =>
      have hstep : (r.exec (.resize newsize)).bytes <:+ before := by
        rw [Retained.exec]
        split_ifs
        · exact h
        · exact nil_suffix
      simpa [fed] using ih hstep

/-! ### The circular buffer -/

structure Backlog.Holds (b : Backlog) (r : Retained) : Prop where
  size : b.size = r.size
  pos : 0 < r.size
  histlen : b.histlen = r.bytes.length
  room : r.bytes.length ≤ r.size
  off : b.off = b.masterReplOffset - r.bytes.length + 1
  idx : b.idx < r.size
  cells : ∃ buffer, b.buffer = some buffer ∧ buffer.length = r.size ∧
    (Ring.unroll buffer b.idx).drop (r.size - r.bytes.length) = r.bytes

theorem Backlog.holds_alloc (fill : UInt8) (h : 0 < b.size) : (b.alloc fill).Holds ⟨b.size, []⟩ where
  size := rfl
  pos := h
  histlen := rfl
  room := Nat.zero_le _
  off := by simp [Backlog.alloc]
  idx := h
  cells := ⟨replicate b.size fill, rfl, length_replicate, by simp⟩

theorem feedLoop_round {rounds : ℕ} {p buffer : Bytes} (hp : p ≠ []) (hbuf : b.buffer = some buffer)
    (hlen : buffer.length = b.size) (hidx : b.idx < b.size) :
    ∃ k buffer', 0 < k ∧ k ≤ p.length ∧ buffer'.length = b.size ∧ Ring.next b.size b.idx k < b.size ∧
      Ring.unroll buffer' (Ring.next b.size b.idx k) = (Ring.unroll buffer b.idx ++ p.take k).drop k ∧
      feedLoop (rounds + 1) p b = feedLoop rounds (p.drop k)
        { b with buffer := some buffer', idx := Ring.next b.size b.idx k, histlen := b.histlen + k } := by
  have hpos := length_pos_iff.mpr hp
  obtain ⟨k, hk, hk0, hkp, hkb⟩ : ∃ k, (if b.size - b.idx > p.length then p.length else b.size - b.idx) =
      k ∧ 0 < k ∧ k ≤ p.length ∧ b.idx + k ≤ b.size := by
    refine ⟨_, rfl, ?_, ?_, ?_⟩ <;> split_ifs <;> omega
  have htake : (p.take k).length = k := by
    rw [length_take]
    omega
  obtain ⟨buffer', hwrite, hlen', hroll⟩ :=
    @Ring.unroll_write _ buffer (p.take k) b.idx (by rw [htake, hlen]; exact hkb)
  rw [htake, hlen] at hroll
  refine ⟨k, buffer', hk0, hkp, hlen'.trans hlen, ?_, ?_, ?_⟩
  · rw [Ring.next]
    split_ifs <;> omega
  · rw [hroll, drop_append_of_le_length (by rw [Ring.unroll_length, hlen]; omega)]
  · obtain ⟨c, p, rfl⟩ := exists_cons_of_ne_nil hp
    simp only [feedLoop, hk, hbuf, hwrite, bind_eq_bind, bind_some, Ring.next]

theorem feedLoop_spec {rounds : ℕ} {p buffer : Bytes} {b : Backlog} (hrounds : p.length ≤ rounds)
    (hbuf : b.buffer = some buffer) (hlen : buffer.length = b.size) (hidx : b.idx < b.size) :
    ∃ buffer' idx', feedLoop rounds p b =
        some { b with buffer := some buffer', idx := idx', histlen := b.histlen + p.length } ∧
      buffer'.length = b.size ∧ idx' < b.size ∧
      Ring.unroll buffer' idx' = (Ring.unroll buffer b.idx ++ p).drop p.length := by
  induction rounds generalizing p b buffer with
  | zero =>
    obtain rfl := length_eq_zero_iff.mp (Nat.le_zero.mp hrounds)
    exact ⟨buffer, b.idx, by rw [← hbuf]; rfl, hlen, hidx, by simp⟩
  | succ rounds ih =>
    by_cases hp : p = []
    · subst hp
      exact ⟨buffer, b.idx, by rw [← hbuf]; rfl, hlen, hidx, by simp⟩
    obtain ⟨k, buffer₁, hk0, hkp, hlen₁, hidx₁, hroll₁, he₁⟩ := feedLoop_round hp hbuf hlen hidx
    have hdrop : (p.drop k).length = p.length - k := length_drop
    obtain ⟨buffer₂, idx₂, he₂, hlen₂, hidx₂, hroll₂⟩ := @ih (p.drop k) buffer₁
      { b with buffer := some buffer₁, idx := Ring.next b.size b.idx k, histlen := b.histlen + k }
      (by omega) rfl hlen₁ hidx₁
    refine ⟨buffer₂, idx₂, ?_, hlen₂, hidx₂, ?_⟩
    · rw [he₁, he₂, hdrop]
      simp [Nat.add_assoc, Nat.add_sub_cancel' hkp]
    · -- the bytes of this round and those of the rounds after it
      have hk : k ≤ (Ring.unroll buffer b.idx ++ p.take k).length := by
        simp only [length_append, length_take]
        omega
      rw [hroll₂, hroll₁, ← drop_append_of_le_length hk, append_assoc, take_append_drop, drop_drop,
        hdrop, Nat.add_sub_cancel' hkp]

theorem Backlog.Holds.feed (h : b.Holds r) (p : Bytes) :
    ∃ b', feedReplicationBacklog p b = some b' ∧ b'.Holds (r.exec (.feed p)) ∧
      b'.masterReplOffset = b.masterReplOffset + p.length := by
  obtain ⟨buffer, hbuf, hlen, hcells⟩ := h.cells
  have hsize := h.size
  have hhist := h.histlen
  obtain ⟨buffer', idx', he, hlen', hidx', hroll⟩ := @feedLoop_spec p.length p buffer
    { b with masterReplOffset := b.masterReplOffset + p.length } le_rfl hbuf (hlen.trans hsize.symm) (hsize ▸ h.idx)
  -- the history that there was and the new bytes, at the end of the cells and the new bytes
  have hend : (Ring.unroll buffer b.idx ++ p).drop (r.size - r.bytes.length) = r.bytes ++ p := by
    rw [drop_append_of_le_length (by rw [Ring.unroll_length]; omega), hcells]
  have hbytes : (r.exec (.feed p)).bytes.length = min (b.histlen + p.length) r.size := by
    simp only [Retained.exec, length_drop, length_append]
    omega
  have hmin : (if b.histlen + p.length > b.size then b.size else b.histlen + p.length) =
      (r.exec (.feed p)).bytes.length := by
    rw [hbytes]
    split_ifs <;> omega
  refine ⟨⟨some buffer', b.size, (r.exec (.feed p)).bytes.length, idx',
    b.masterReplOffset + p.length - (r.exec (.feed p)).bytes.length + 1, b.masterReplOffset + p.length⟩, ?_,
    ⟨hsize, h.pos, rfl, ?_, rfl, hsize ▸ hidx', buffer', rfl, hlen'.trans hsize, ?_⟩, rfl⟩
  · simp only [feedReplicationBacklog, he, bind_eq_bind, bind_some, Option.pure_def, hmin]
  · rw [hbytes]
    exact min_le_right _ _
  · rw [hroll, drop_drop, hbytes]
    simp only [Retained.exec]
    rw [← hend, drop_drop]
    congr 1
    simp only [length_drop, length_append, Ring.unroll_length, hlen]
    omega

theorem Backlog.Holds.resize (fill : UInt8) (h : b.Holds r) (newsize : ℤ) :
    (resizeReplicationBacklog fill newsize b).Holds (r.exec (.resize newsize)) ∧
      (resizeReplicationBacklog fill newsize b).masterReplOffset = b.masterReplOffset := by
  obtain ⟨buffer, hbuf, -⟩ := h.cells
  have hmax : (if newsize < (minSize : ℤ) then minSize else newsize.toNat) = (max newsize minSize).toNat := by
    split_ifs <;> omega
  rw [resizeReplicationBacklog, Retained.exec, hmax, h.size]
  have hpos : 0 < (max newsize minSize).toNat := by
    have : (0 : ℤ) < minSize := by decide
    omega
  have hiff : r.size = (max newsize minSize).toNat ↔ (r.size : ℤ) = max newsize minSize := by omega
  by_cases hsame : (r.size : ℤ) = max newsize minSize
  · rw [if_pos (hiff.mpr hsame), if_pos hsame]
    exact ⟨h, rfl⟩
  · rw [if_neg (hiff.not.mpr hsame), if_neg hsame]
    simp only [hbuf, ne_eq, reduceCtorEq, not_false_eq_true, if_true]
    exact ⟨Backlog.holds_alloc fill hpos, rfl⟩

theorem Backlog.Holds.run (fill : UInt8) (ops : List BacklogOp) (h : b.Holds r) :
    ∃ b', runBacklog fill ops b = some b' ∧ b'.Holds (ops.foldl Retained.exec r) ∧
      b'.masterReplOffset = b.masterReplOffset + (fed ops).length := by
  induction ops generalizing b r with
  | nil => exact ⟨b, rfl, h, by simp [fed]⟩
  | cons op ops ih =>
    cases op with
    | feed p =>
      obtain ⟨b₁, he₁, h₁, ho₁⟩ := h.feed p
      obtain ⟨b₂, he₂, h₂, ho₂⟩ := ih h₁
      refine ⟨b₂, by simp [runBacklog, BacklogOp.exec, he₁, he₂], h₂, ?_⟩
      rw [ho₂, ho₁]
      simp [fed, add_assoc]
    | resize newsize =>
      obtain ⟨h₁, ho₁⟩ := h.resize fill newsize
      obtain ⟨b₂, he₂, h₂, ho₂⟩ := ih h₁
      refine ⟨b₂, by simp [runBacklog, BacklogOp.exec, he₂], h₂, ?_⟩
      rw [ho₂, ho₁]
      simp [fed]

/-! ### The reader -/

theorem replyLoop_zero (buffer : Bytes) (size rounds j : ℕ) : replyLoop buffer size rounds j 0 = some [] := by
  cases rounds <;> rfl

/-- The bytes from the `k`th oldest on, from the index that the reader computes. -/
theorem replyLoop_spec {buffer : Bytes} {size i k : ℕ} (hlen : buffer.length = size) (hi : i < size)
    (hk : k ≤ size) :
    replyLoop buffer size 2 ((i + k) % size) (size - k) = some ((Ring.unroll buffer i).drop k) := by
  rcases hk.eq_or_lt with rfl | hk
  · rw [Nat.sub_self, replyLoop_zero, drop_eq_nil_of_le (by rw [Ring.unroll_length, hlen])]
  obtain ⟨len, hlen'⟩ : ∃ len, size - k = len + 1 := ⟨size - k - 1, by omega⟩
  rw [Ring.unroll_drop (hlen ▸ hi.le), hlen]
  split_ifs with hwrap
  · -- up to the end of the buffer, and on from its start
    have hfirst : (if size - (i + k) < len + 1 then size - (i + k) else len + 1) = size - (i + k) := by
      split_ifs <;> omega
    have hread : Memory.read buffer (i + k) (size - (i + k)) = some (buffer.drop (i + k)) := by
      rw [Memory.read, if_pos (by omega), take_of_length_le (by rw [length_drop, hlen])]
    have hrest : len + 1 - (size - (i + k)) = i := by omega
    have hsecond : replyLoop buffer size 1 0 i = some (buffer.take i) := by
      rcases i with _ | i
      · rfl
      · simp [replyLoop, Memory.read, show ¬ size < i + 1 by omega, show i + 1 ≤ buffer.length by omega]
    rw [Nat.mod_eq_of_lt hwrap, hlen']
    simp only [replyLoop, hfirst, hread, hrest, hsecond, bind_eq_bind, bind_some, Option.pure_def]
  · -- within the part that was written last
    have hmod : (i + k) % size = i + k - size := by
      rw [Nat.mod_eq_sub_mod (by omega), Nat.mod_eq_of_lt (by omega)]
    have hfirst : (if size - (i + k - size) < len + 1 then size - (i + k - size) else len + 1) = len + 1 :=
      if_neg (by omega)
    have hread : Memory.read buffer (i + k - size) (len + 1) = some ((buffer.take i).drop (i + k - size)) := by
      rw [Memory.read, if_pos (by omega), drop_take]
      congr 2
      omega
    rw [hmod, hlen']
    simp only [replyLoop, hfirst, hread, Nat.sub_self, replyLoop_zero, bind_eq_bind, bind_some,
      Option.pure_def, append_nil]

theorem Backlog.Holds.reply (h : b.Holds r) {offset : ℤ} (hlo : b.off ≤ offset)
    (hhi : offset ≤ b.off + b.histlen) :
    addReplyReplicationBacklog b offset = some (r.bytes.drop (offset - b.off).toNat) := by
  obtain ⟨buffer, hbuf, hlen, hcells⟩ := h.cells
  have hhist := h.histlen
  have hroom := h.room
  rw [addReplyReplicationBacklog]
  split_ifs with h0
  · rw [length_eq_zero_iff.mp (hhist.symm.trans h0), drop_nil]
  · generalize hskip : (offset - b.off).toNat = skip
    have hj : ((b.idx + (r.size - r.bytes.length)) % r.size + skip) % r.size =
        (b.idx + (r.size - r.bytes.length + skip)) % r.size := by
      rw [Nat.mod_add_mod, Nat.add_assoc]
    have hl : r.bytes.length - skip = r.size - (r.size - r.bytes.length + skip) := by omega
    simp only [hbuf, bind_eq_bind, bind_some, h.size, hhist, hj, hl]
    rw [replyLoop_spec hlen h.idx (by omega), ← drop_drop, hcells]

end RedisIR.Replication
