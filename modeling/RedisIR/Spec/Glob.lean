import RedisIR.Lib.CLib
import RedisIR.Lib.Glob

/-! `stringmatchlen` of `util.c`, and the patterns that it is for. -/

namespace RedisIR

open CLib

def STAR : UInt8 := 42
def DASH : UInt8 := 45
def QUESTION : UInt8 := 63
def LBRACKET : UInt8 := 91
def BACKSLASH : UInt8 := 92
def RBRACKET : UInt8 := 93
def CARET : UInt8 := 94

/-! ### The matcher

A pattern is an sds, so the byte behind it, which the source may look at, is zero. -/

def sameChar (nocase : Bool) (p c : UInt8) : Bool :=
  if nocase then tolower (char p) == tolower (char c) else p == c

/-- The ends of a range are swapped first and folded then. -/
def inRange (nocase : Bool) (start stop c : UInt8) : Bool :=
  let lo := min (char start) (char stop)
  let hi := max (char start) (char stop)
  if nocase then tolower lo ≤ tolower (char c) ∧ tolower (char c) ≤ tolower hi
  else lo ≤ char c ∧ char c ≤ hi

/-- The loop over a set: whether `c` is in it, and the pattern behind the bracket that
closes it. -/
def setLoop (nocase : Bool) (c : UInt8) : Bytes → Bool → Bool × Bytes
  | [], m => (m, [])
  | [p], m => if p = RBRACKET then (m, []) else (m || sameChar nocase p c, [])
  | [p, q], m =>
    if p = BACKSLASH then (m || q == c, [])
    else if p = RBRACKET then (m, [q])
    else setLoop nocase c [q] (m || sameChar nocase p c)
  | p :: q :: r :: ps, m =>
    if p = BACKSLASH then setLoop nocase c (r :: ps) (m || q == c)
    else if p = RBRACKET then (m, q :: r :: ps)
    else if q = DASH then setLoop nocase c ps (m || inRange nocase p r c)
    else setLoop nocase c (q :: r :: ps) (m || sameChar nocase p c)

def starLoop (matchRest : Bytes → Bool) : Bytes → Bool
  | [] => false
  | c :: cs => matchRest (c :: cs) || starLoop matchRest cs

/-- The end of a round: behind the string only stars may be left. -/
def matchNext (matchRest : Bytes → Bytes → Bool) (pattern string : Bytes) : Bool :=
  if string = [] then pattern.dropWhile (· = STAR) = [] else matchRest pattern string

/-- The main loop. Each round takes a byte of the pattern at least, so `fuel` above its
length is enough. -/
def matchLoop (nocase : Bool) : ℕ → Bytes → Bytes → Bool
  | 0, _, _ => false
  | fuel + 1, p :: ps, c :: cs =>
    if p = STAR then
      let ps := ps.dropWhile (· = STAR)
      if ps = [] then true else starLoop (matchLoop nocase fuel ps) (c :: cs)
    else if p = QUESTION then matchNext (matchLoop nocase fuel) ps cs
    else if p = LBRACKET then
      let negated : Bool := ps.head? = some CARET
      let r := setLoop nocase c (if negated then ps.tail else ps) false
      if (if negated then !r.1 else r.1) then matchNext (matchLoop nocase fuel) r.2 cs else false
    else
      -- a backslash at the end stands for itself
      let escaped : Bool := p = BACKSLASH ∧ ps ≠ []
      let p := if escaped then ps.headD 0 else p
      let ps := if escaped then ps.tail else ps
      if sameChar nocase p c then matchNext (matchLoop nocase fuel) ps cs else false
  | _ + 1, pattern, string => pattern = [] ∧ string = []

def stringmatchlen (pattern string : Bytes) (nocase : Bool) : Bool :=
  matchLoop nocase (pattern.length + 1) pattern string

/-! ### Patterns -/

inductive SetItem
  | byte (c : UInt8)
  | escaped (c : UInt8)
  | range (a b : UInt8)
  deriving DecidableEq, Repr

inductive Token
  | literal (c : UInt8)
  | any
  | set (negated : Bool) (items : List SetItem)
  | star
  deriving DecidableEq, Repr

/-- The items of a set up to the bracket that closes it; there must be one, and a byte behind
each backslash and each dash of a range. -/
def readItems : Bytes → Option (List SetItem × Bytes)
  | [] => none
  | [p] => if p = RBRACKET then some ([], []) else none
  | [p, q] =>
    if p = BACKSLASH then none
    else if p = RBRACKET then some ([], [q])
    else if q = DASH then none
    else (readItems [q]).map fun r => (.byte p :: r.1, r.2)
  | p :: q :: r :: ps =>
    if p = BACKSLASH then (readItems (r :: ps)).map fun s => (.escaped q :: s.1, s.2)
    else if p = RBRACKET then some ([], q :: r :: ps)
    else if q = DASH then
      if r = RBRACKET then none else (readItems ps).map fun s => (.range p r :: s.1, s.2)
    else (readItems (q :: r :: ps)).map fun s => (.byte p :: s.1, s.2)

/-- The well-formed patterns, with the parts that they are made of. -/
inductive WellFormed : Bytes → List Token → Prop
  | nil : WellFormed [] []
  | star {p : Bytes} {g : List Token} : WellFormed p g → WellFormed (STAR :: p) (.star :: g)
  | any {p : Bytes} {g : List Token} : WellFormed p g → WellFormed (QUESTION :: p) (.any :: g)
  | set {p rest : Bytes} {items : List SetItem} {g : List Token} (hcaret : p.head? ≠ some CARET)
      (hitems : readItems p = some (items, rest)) :
      WellFormed rest g → WellFormed (LBRACKET :: p) (.set false items :: g)
  | negated {p rest : Bytes} {items : List SetItem} {g : List Token} (hitems : readItems p = some (items, rest)) :
      WellFormed rest g → WellFormed (LBRACKET :: CARET :: p) (.set true items :: g)
  | escaped {p : Bytes} {g : List Token} (c : UInt8) :
      WellFormed p g → WellFormed (BACKSLASH :: c :: p) (.literal c :: g)
  | literal {p : Bytes} {g : List Token} {c : UInt8}
      (hc : c ≠ STAR ∧ c ≠ QUESTION ∧ c ≠ LBRACKET ∧ c ≠ BACKSLASH) :
      WellFormed p g → WellFormed (c :: p) (.literal c :: g)

/-! ### The definition of a match -/

/-- Upper and lower case are one letter with `nocase`. -/
def fold (nocase : Bool) (c : UInt8) : UInt8 := if nocase ∧ 65 ≤ c ∧ c ≤ 90 then c + 32 else c

/-- The bytes that an item lists, the ends of a range in either order. -/
def SetItem.Lists (nocase : Bool) (c : UInt8) : SetItem → Prop
  | .byte b => fold nocase b = fold nocase c
  | .escaped b => fold nocase b = fold nocase c
  | .range a b =>
    fold nocase a ≤ fold nocase c ∧ fold nocase c ≤ fold nocase b ∨
      fold nocase b ≤ fold nocase c ∧ fold nocase c ≤ fold nocase a

def Token.glob (nocase : Bool) : Token → Glob UInt8
  | .literal b => .one fun c => fold nocase b = fold nocase c
  | .any => .one fun _ => True
  | .set negated items => .one fun c => (∃ i ∈ items, i.Lists nocase c) ↔ negated = false
  | .star => .star

def Matches (nocase : Bool) (g : List Token) (s : Bytes) : Prop := Glob.Matches (g.map (Token.glob nocase)) s

def isLetter (c : UInt8) : Prop := 65 ≤ c ∧ c ≤ 90 ∨ 97 ≤ c ∧ c ≤ 122

/-- The items that the matcher reads as they are meant. Escaped bytes are never folded, the
ends of a range are compared as signed characters, and folding them must not turn them
around. -/
def SetItem.Regular (nocase : Bool) : SetItem → Prop
  | .byte _ => True
  | .escaped c => nocase = true → ¬ isLetter c
  | .range a b =>
    (a < 128 ↔ b < 128) ∧ (a ≤ b → fold nocase a ≤ fold nocase b) ∧
      (b ≤ a → fold nocase b ≤ fold nocase a)

def Token.Regular (nocase : Bool) : Token → Prop
  | .set _ items => ∀ i ∈ items, i.Regular nocase
  | _ => True

end RedisIR
