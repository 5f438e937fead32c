import RedisIR.Proofs.Equivalence
import RedisIR.Proofs.Indexer

/-! The position that a batch leaves in `FINAL_LOG_SEEK`. The writer saves the position it
was given, which is the end of its whole queue, also when a stop signal has kept it from
handling the rest of the queue. -/

namespace RedisIR

open CLib List

variable {mem : NodeMemory}

/-- How many of `n` nodes the writer handles. -/
def handledCount (stop : Option ℕ) (n : ℕ) : ℕ := stop.elim n (min · n)

theorem handled_eq_take (stop : Option ℕ) (ri : List RecordToIndex) :
    handled stop ri = ri.take (handledCount stop ri.length) := by
  cases stop with
  | none => simp [handled, handledCount]
  | some n => simp [handled, handledCount, take_eq_take_iff]

theorem onlineOps_length (A B : List LogCmd) : (onlineOps mem A B).length = B.length := by
  induction B generalizing A with
  | nil => rfl
  | cons c B ih => simp [onlineOps, ih]

theorem onlineOps_take (A B : List LogCmd) (n : ℕ) :
    onlineOps mem A (B.take n) = (onlineOps mem A B).take n := by
  induction B generalizing A n with
  | nil => simp [onlineOps]
  | cons c B ih =>
    cases n with
    | zero => rfl
    | succ n => simp [onlineOps, ih]

def Written.result (w : Written) (d : Indexing) : Indexing := w.effects.foldl Effect.exec d

/-- The store that began as `m` has the first `n` commands of the log, and no others. -/
def Indexing.HasFirst (mem : NodeMemory) (m : IndexedLog) (L : List LogCmd) (n : ℕ) (d : Indexing) :
    Prop := d.dbp = (onlineOps mem [] (L.take n)).foldl applyRecord m

theorem writeToIndexedLog_store {m : IndexedLog} {A P : List LogCmd}
    (R : List LogCmd) {ri : List RecordToIndex} (hri : ri.map RecordToIndex.indexOp = onlineOps mem A P)
    {d : Indexing} (hd : d.HasFirst mem m (A ++ P ++ R) A.length) (seek : ℤ) (stop : Option ℕ) :
    ((writeToIndexedLog ri seek stop).result d).HasFirst mem m (A ++ P ++ R)
      (A.length + handledCount stop P.length) := by
  have hlen : ri.length = P.length := by
    rw [← onlineOps_length A P, ← hri, length_map]
  have hle : handledCount stop P.length ≤ P.length := by
    cases stop with
    | none => exact le_rfl
    | some n => exact min_le_right n _
  have hA : (A ++ P ++ R).take A.length = A := by simp
  have hAP : (A ++ P ++ R).take (A.length + handledCount stop P.length) = A ++ P.take (handledCount stop P.length) := by
    rw [append_assoc, take_length_add_append, take_append_of_le_length hle]
  rw [Indexing.HasFirst, hA] at hd
  rw [Indexing.HasFirst, hAP, Written.result, (exec_writeToIndexedLog ri seek stop d).1, handled_eq_take, hlen,
    map_take, hri, ← onlineOps_take, onlineOps_append, foldl_append, hd, nil_append]

/-- The commands before a position are among the first `n` exactly when the position is
before the end of the next one. -/
theorem liesBefore_lt_iff (L : List LogCmd) (seek : ℤ) (n : ℕ) :
    (∀ i, LiesBefore L seek i → i < n) ↔ L.length ≤ n ∨ seek < offset L (n + 1) := by
  refine ⟨?_, ?_⟩
  · intro h
    by_contra hcon
    obtain ⟨hlen, hseek⟩ := not_or.mp hcon
    exact absurd (h n ⟨not_le.mp hlen, not_lt.mp hseek⟩) (lt_irrefl n)
  · rintro (hlen | hseek) i ⟨hi, hle⟩
    · omega
    · by_contra hge
      have : offset L (n + 1) ≤ offset L (i + 1) := (offset_le_iff (by omega) hi).mpr (by omega)
      omega

/-- A batch for the commands `P`, which follow `A` in the log: the position in
`FINAL_LOG_SEEK` has no unhandled command before it exactly when it is before the end of
the first unhandled one. For the position that the indexer passes, the end of `P`, this
means that the stop signal comes after the whole queue, if it comes at all. -/
theorem saved_position_iff (mem : NodeMemory) {m : IndexedLog} {A P : List LogCmd}
    (R : List LogCmd) {ri : List RecordToIndex} (hri : ri.map RecordToIndex.indexOp = onlineOps mem A P)
    {d : Indexing} (hd : d.HasFirst mem m (A ++ P ++ R) A.length) (seek : ℤ) (stop : Option ℕ) :
    ∃ n d', n = A.length + handledCount stop P.length ∧ (writeToIndexedLog ri seek stop).result d = d' ∧
      d'.HasFirst mem m (A ++ P ++ R) n ∧ d'.files.finalLogSeek = some seek ∧
      ((∀ i, LiesBefore (A ++ P ++ R) seek i → i < n) ↔
        (A ++ P ++ R).length ≤ n ∨ seek < offset (A ++ P ++ R) (n + 1)) ∧ (seek = (aofBytes (A ++ P)).length →
        ((∀ i, LiesBefore (A ++ P ++ R) seek i → i < n) ↔ ∀ k, stop = some k → P.length ≤ k)) := by
  refine ⟨_, _, rfl, rfl, writeToIndexedLog_store R hri hd seek stop,
    (exec_writeToIndexedLog ri seek stop d).2, liesBefore_lt_iff _ _ _, ?_⟩
  rintro rfl
  have hiff : ∀ i, LiesBefore (A ++ P ++ R) (aofBytes (A ++ P)).length i ↔ i < A.length + P.length := by
    intro i
    have hend : (aofBytes (A ++ P)).length = offset (A ++ P ++ R) (A ++ P).length := by
      rw [offset_append le_rfl, offset_length]
    rw [hend, liesBefore_offset (by simp), length_append]
  simp only [hiff]
  refine ⟨?_, ?_⟩
  · rintro h k rfl
    by_contra hlt
    have := h (A.length + k) (by omega)
    simp only [handledCount, Option.elim] at this
    omega
  · intro h i hi
    cases stop with
    | none => exact hi
    | some k =>
      have := h k rfl
      simp only [handledCount, Option.elim]
      omega

/-- The node of a command that sets the key `n`, and the command itself. -/
def setNode : RecordToIndex :=
  ⟨cstr SET_COMMAND, cstr (ascii ['n']), cstr (ascii ['9']), 0, 0, by decide, by decide, by decide⟩

def setLog : List LogCmd := [setCounter]

/-- An indexer over the log `L`, with the store empty. -/
def freshIndexing (L : List LogCmd) : Indexing := ⟨freshFiles L, Multimap.empty, none⟩

theorem saved_position_setLog : ∃ n d', n = 0 + handledCount none 1 ∧
      (writeToIndexedLog [setNode] (aofBytes setLog).length none).result (freshIndexing setLog) = d' ∧
      d'.HasFirst (fun _ => (0, 0)) Multimap.empty ([] ++ setLog ++ []) n ∧
      d'.files.finalLogSeek = some ((aofBytes setLog).length : ℤ) ∧
      ((∀ i, LiesBefore ([] ++ setLog ++ []) (aofBytes setLog).length i → i < n) ↔
        ([] ++ setLog ++ []).length ≤ n ∨
          ((aofBytes setLog).length : ℤ) < offset ([] ++ setLog ++ []) (n + 1)) ∧
      (((aofBytes setLog).length : ℤ) = (aofBytes ([] ++ setLog)).length →
        ((∀ i, LiesBefore ([] ++ setLog ++ []) (aofBytes setLog).length i → i < n) ↔
          ∀ k, none = some k → setLog.length ≤ k)) := by
  have hri : [setNode].map RecordToIndex.indexOp = onlineOps (fun _ => (0, 0)) [] setLog := by decide +kernel
  have hd : (freshIndexing setLog).HasFirst (fun _ => (0, 0)) Multimap.empty ([] ++ setLog ++ [])
      ([] : List LogCmd).length := rfl
  exact saved_position_iff _ [] hri hd _ none

/-- A stop signal before the first node: the position is saved at the end of the queue and
the command before it is in no store. -/
theorem saved_position_ahead :
    ((writeToIndexedLog [setNode] (aofBytes setLog).length (some 0)).result (freshIndexing setLog)).dbp =
        Multimap.empty ∧
      ((writeToIndexedLog [setNode] (aofBytes setLog).length (some 0)).result
        (freshIndexing setLog)).files.finalLogSeek =
        some ((aofBytes setLog).length : ℤ) ∧ LiesBefore setLog (aofBytes setLog).length 0 :=
  ⟨rfl, rfl, by decide +kernel⟩

end RedisIR
