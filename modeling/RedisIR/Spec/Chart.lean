import Mathlib

/-! The row handler of `processaCSV` (`server.js`), which counts the commands of each second and
sends the last entry but one to the chart. The socket stays open. -/

namespace RedisIR.Chart

/-- A row of the file, with its times as `parseInt` gives them (`none` for `NaN`), and `isNaN` of
the text of the second one. -/
structure Row where
  startTime : Option ℤ
  finishTime : Option ℤ
  finishTimeIsNaN : Bool
  type : String

/-- The entries are pairs of a second and its commands; of those that have been sent
(`arrayParaVerificarSeJaFoiEnviado`) only the number is read. -/
structure Ctx where
  total : ℕ
  databaseStartupTime : Option ℤ
  contagemComandos : List (ℤ × ℕ)
  jaFoiEnviado : List (ℤ × ℕ)

def contar (contagem : List (ℤ × ℕ)) (tempoEmSegundos : ℤ) : List (ℤ × ℕ) :=
  match contagem.findIdx? fun entry => entry.1 = tempoEmSegundos with
  | none => contagem ++ [(tempoEmSegundos, 1)]
  | some entryIndex => contagem.modify entryIndex fun entry => (entry.1, entry.2 + 1)

/-- The second in which a row is counted: the first row gives the start, the second is skipped. -/
def tempoEmSegundos (ctx : Ctx) (row : Row) : Option ℤ :=
  if 3 ≤ ctx.total + 1 ∧ row.type ≠ "0" ∧ row.finishTimeIsNaN = false then
    row.finishTime.bind fun tempoTermino => ctx.databaseStartupTime.bind fun start =>
      if 0 ≤ (tempoTermino - start) / 1000000 then some ((tempoTermino - start) / 1000000) else none
  else none

def processarLinha (ctx : Ctx) (row : Row) : Ctx :=
  { ctx with
    total := ctx.total + 1
    databaseStartupTime := if ctx.total + 1 = 1 then row.startTime else ctx.databaseStartupTime
    contagemComandos := (tempoEmSegundos ctx row).elim ctx.contagemComandos (contar ctx.contagemComandos) }

/-- One round of the loop that sends, with the messages so far. -/
def enviar (r : Ctx × List (ℤ × ℕ)) (i : ℕ) : Ctx × List (ℤ × ℕ) :=
  if r.1.contagemComandos.length > r.1.jaFoiEnviado.length ∧ (i : ℤ) = r.1.contagemComandos.length - 2 then
    let entry := r.1.contagemComandos.getD i (0, 0)
    ({ r.1 with jaFoiEnviado := r.1.jaFoiEnviado ++ [entry] }, r.2 ++ [entry])
  else r

def onData (row : Row) (ctx : Ctx) : Ctx × List (ℤ × ℕ) :=
  let ctx := processarLinha ctx row
  (List.range ctx.contagemComandos.length).foldl enviar (ctx, [])

end RedisIR.Chart
