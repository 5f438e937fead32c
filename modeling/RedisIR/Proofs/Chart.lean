import RedisIR.Lib.Machine
import RedisIR.Spec.Chart

/-! What the chart is sent. As long as every row opens a new second each completed second is sent
once; a row that does not, once there are two seconds, makes the handler send one of them again. -/

namespace RedisIR.Chart

open List Machine

variable {row : Row} {ctx : Ctx} {rows : List Row} {l sent : List (ℤ × ℕ)} {sec : ℤ}

theorem enviar_of_ne {r : Ctx × List (ℤ × ℕ)} {i : ℕ} (h : i + 2 ≠ r.1.contagemComandos.length) :
    enviar r i = r :=
  if_neg (by omega)

/-- The rounds before the last entry but one do nothing. -/
theorem foldl_enviar (r : Ctx × List (ℤ × ℕ)) (n : ℕ) (h : n + 2 ≤ r.1.contagemComandos.length) :
    (range n).foldl enviar r = r := by
  induction n with
  | zero => rfl
  | succ n ih => rw [range_succ, foldl_append, ih (by omega), foldl_cons, enviar_of_ne (by omega), foldl_nil]

/-- What the loop sends when `n` entries have been. -/
def pending (l : List (ℤ × ℕ)) (n : ℕ) : List (ℤ × ℕ) :=
  if 2 ≤ l.length ∧ n < l.length then [l.getD (l.length - 2) (0, 0)] else []

theorem loop_eq (ctx : Ctx) : (range ctx.contagemComandos.length).foldl enviar (ctx, []) =
      ({ ctx with jaFoiEnviado := ctx.jaFoiEnviado ++ pending ctx.contagemComandos ctx.jaFoiEnviado.length },
        pending ctx.contagemComandos ctx.jaFoiEnviado.length) := by
  obtain ⟨total, start, l, sent⟩ := ctx
  unfold pending
  by_cases h2 : 2 ≤ l.length
  · obtain ⟨n, hn⟩ := Nat.exists_eq_add_of_le' h2
    have hfirst := foldl_enviar (⟨total, start, l, sent⟩, []) n hn.ge
    rw [hn, range_succ, range_succ, append_assoc, foldl_append, hfirst, singleton_append]
    by_cases hsent : sent.length < n + 2
    · simp [enviar, hn, hsent]
    · simp [enviar, hn, hsent]
  · rcases l with _ | ⟨x, _ | ⟨y, l⟩⟩
    · simp
    · simp [enviar]
    · exact absurd (by simp) h2

/-! ### Counting -/

/-- The row is not counted before a second that has been. -/
def InOrder (ctx : Ctx) (row : Row) : Prop :=
  ∀ sec ∈ tempoEmSegundos ctx row, ∀ e ∈ ctx.contagemComandos, e.1 ≤ sec

instance decidableInOrder (ctx : Ctx) (row : Row) : Decidable (InOrder ctx row) :=
  inferInstanceAs (Decidable (∀ sec ∈ _, ∀ e ∈ _, _))

/-- Once there are two seconds, the row opens another one. -/
def Opens (ctx : Ctx) (row : Row) : Prop :=
  2 ≤ ctx.contagemComandos.length → ctx.contagemComandos.length < (processarLinha ctx row).contagemComandos.length

instance decidableOpens (ctx : Ctx) (row : Row) : Decidable (Opens ctx row) := inferInstanceAs (Decidable (_ → _))

def Sorted (l : List (ℤ × ℕ)) : Prop := l.Pairwise fun a b => a.1 < b.1

/-- The entries after a row: one more, or the same but for the count of the last one. -/
def Extends (l l' : List (ℤ × ℕ)) : Prop :=
  (∃ x, l' = l ++ [x]) ∨ l'.dropLast = l.dropLast ∧ l'.length = l.length

theorem contar_extends (hl : Sorted l) (h : ∀ e ∈ l, e.1 ≤ sec) :
    Sorted (contar l sec) ∧ Extends l (contar l sec) := by
  unfold contar
  by_cases hnew : ∀ e ∈ l, e.1 ≠ sec
  · have hnone : l.findIdx? (fun entry => entry.1 = sec) = none := by simpa using hnew
    rw [hnone]
    refine ⟨pairwise_append.mpr ⟨hl, pairwise_singleton _ _, ?_⟩, .inl ⟨_, rfl⟩⟩
    intro a ha b hb
    rw [mem_singleton.mp hb]
    exact lt_of_le_of_ne (h a ha) (hnew a ha)
  · push Not at hnew
    obtain ⟨e, he, rfl⟩ := hnew
    obtain ⟨init, x, rfl⟩ := (eq_nil_or_concat' l).resolve_left (ne_nil_of_mem he)
    obtain ⟨hinit, -, hlt⟩ := pairwise_append.mp hl
    -- in the order of the seconds, only the last entry can be of this one
    obtain rfl : e = x := by
      rcases mem_append.mp he with he | he
      · exact absurd (h x (by simp)) (not_le.mpr (hlt e he x (by simp)))
      · exact mem_singleton.mp he
    have hnone : init.findIdx? (fun entry => entry.1 = e.1) = none := by
      simpa using fun a b ha => (hlt (a, b) ha e (by simp)).ne
    have hidx : (init ++ [e]).findIdx? (fun entry => entry.1 = e.1) = some init.length := by
      simp [findIdx?_append, hnone]
    simp only [hidx, modify_eq_take_drop, take_left, drop_left, modifyHead_cons]
    refine ⟨pairwise_append.mpr ⟨hinit, pairwise_singleton _ _, ?_⟩, .inr ⟨by simp, by simp⟩⟩
    intro a ha b hb
    rw [mem_singleton.mp hb]
    exact hlt a ha e (by simp)

theorem processarLinha_extends (hl : Sorted ctx.contagemComandos) (h : InOrder ctx row) :
    Sorted (processarLinha ctx row).contagemComandos ∧
      Extends ctx.contagemComandos (processarLinha ctx row).contagemComandos := by
  unfold processarLinha
  cases hsec : tempoEmSegundos ctx row with
  | none => exact ⟨hl, .inr ⟨rfl, rfl⟩⟩
  | some sec => exact contar_extends hl (h sec hsec)

/-! ### A run -/

structure SentOnce (ctx : Ctx) (sent : List (ℤ × ℕ)) : Prop where
  sorted : Sorted ctx.contagemComandos
  sent : sent = ctx.contagemComandos.dropLast
  count : ctx.jaFoiEnviado.length = ctx.contagemComandos.length - 1

theorem pending_extends {l' : List (ℤ × ℕ)} (h : Extends l l') (hopen : 2 ≤ l.length → l.length < l'.length) :
    l.dropLast ++ pending l' (l.length - 1) = l'.dropLast := by
  rcases h with ⟨x, rfl⟩ | ⟨hdrop, hlen⟩
  · rcases eq_nil_or_concat' l with rfl | ⟨init, y, rfl⟩
    · rfl
    · simp [pending]
  · have hfew : ¬ 2 ≤ l.length := fun h2 => (hopen h2).ne' hlen
    rw [pending, if_neg (by omega), append_nil, hdrop]

theorem SentOnce.step (h : SentOnce ctx sent) (hin : InOrder ctx row) (hopen : Opens ctx row) :
    SentOnce (onData row ctx).1 (sent ++ (onData row ctx).2) := by
  obtain ⟨hsorted, hcases⟩ := processarLinha_extends h.sorted hin
  have hsame : (processarLinha ctx row).jaFoiEnviado = ctx.jaFoiEnviado := rfl
  rw [onData, loop_eq, hsame, h.count, h.sent]
  have hsend := pending_extends hcases hopen
  have hlen := congrArg List.length hsend
  rw [length_append, length_dropLast, length_dropLast] at hlen
  exact ⟨hsorted, hsend, by rw [length_append, h.count, hlen]⟩

/-- The messages of a run over rows in the order of their seconds are the seconds but the last,
in order and each once, if every row opens another one after the second. -/
theorem seconds_sent_once {start : Option ℤ} (hin : Along onData InOrder rows ⟨0, start, [], []⟩)
    (hopen : Along onData Opens rows ⟨0, start, [], []⟩) : (run onData rows ⟨0, start, [], []⟩).2 =
      (run onData rows ⟨0, start, [], []⟩).1.contagemComandos.dropLast := by
  have h : SentOnce ⟨0, start, [], []⟩ [] := ⟨Pairwise.nil, rfl, rfl⟩
  have hrun := trace_invariant (fun _ _ _ h hP => h.step hP.1 hP.2) h ((along_and rows _).mpr ⟨hin, hopen⟩)
  exact hrun.sent

def commandRow (finishTime : ℤ) : Row := ⟨some finishTime, some finishTime, false, "A"⟩

theorem seconds_sent_once_three : (run onData ([0, 0, 0, 0, 1000000, 2000000].map commandRow) ⟨0, none, [], []⟩).2 =
    [(0, 2), (1, 1)] := by
  have h := @seconds_sent_once ([0, 0, 0, 0, 1000000, 2000000].map commandRow) none (by decide) (by decide)
  exact h.trans (by decide)

/-- The second row of the second 1 sends the second 0 again. -/
theorem second_sent_twice : (run onData ([0, 0, 0, 1000000, 1000000].map commandRow) ⟨0, none, [], []⟩).2 =
      [(0, 1), (0, 1)] ∧
    (run onData ([0, 0, 0, 1000000, 1000000].map commandRow) ⟨0, none, [], []⟩).1.contagemComandos =
      [(0, 1), (1, 2)] := by
  decide

end RedisIR.Chart
