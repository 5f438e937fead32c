import RedisIR.Spec.Glob

/-! The quoted form of a string, and the splitting of a line into arguments (`sds.c`), with the
character classes of the "C" locale. -/

namespace RedisIR

open CLib

def QUOTE : UInt8 := 34
def SINGLE_QUOTE : UInt8 := 39

def isprint (c : UInt8) : Bool := 32 ≤ c && c ≤ 126

/-- A digit of `%02x`. -/
def hexDigit (n : UInt8) : UInt8 := if n < 10 then 48 + n else 87 + n

def reprByte (c : UInt8) : Bytes :=
  if c = BACKSLASH ∨ c = QUOTE then [BACKSLASH, c]
  else if c = LF then BACKSLASH :: ascii ['n']
  else if c = CR then BACKSLASH :: ascii ['r']
  else if c = 9 then BACKSLASH :: ascii ['t']
  else if c = 7 then BACKSLASH :: ascii ['a']
  else if c = 8 then BACKSLASH :: ascii ['b']
  else if isprint c then [c]
  else BACKSLASH :: ascii ['x'] ++ [hexDigit (c / 16), hexDigit (c % 16)]

def sdscatrepr (s p : Bytes) : Bytes := s ++ QUOTE :: p.flatMap reprByte ++ [QUOTE]

def isHexDigit (c : UInt8) : Bool := (48 ≤ c && c ≤ 57) || (97 ≤ c && c ≤ 102) || (65 ≤ c && c ≤ 70)

def hexDigitToInt (c : UInt8) : UInt8 :=
  if 48 ≤ c ∧ c ≤ 57 then c - 48
  else if 97 ≤ c ∧ c ≤ 102 then c - 87
  else if 65 ≤ c ∧ c ≤ 70 then c - 55
  else 0

/-- What a backslash and a character stand for. -/
def unescape (c : UInt8) : UInt8 :=
  if c = 110 then LF else if c = 114 then CR else if c = 116 then 9 else if c = 98 then 8 else if c = 97 then 7 else c

inductive Quotes
  | no
  | double
  | single

/-- The loop over the characters of a token, with `*p` the first one of the rest of the line, or
zero behind its end. It gives the token and what follows it. -/
def tokenLoop : ℕ → Quotes → Bytes → Bytes → Option (Bytes × Bytes)
  | 0, _, _, _ => none
  | fuel + 1, .double, current, p =>
    if p.getD 0 0 = BACKSLASH ∧ p.getD 1 0 = 120 ∧ isHexDigit (p.getD 2 0) ∧ isHexDigit (p.getD 3 0) then
      tokenLoop fuel .double (current ++ [hexDigitToInt (p.getD 2 0) * 16 + hexDigitToInt (p.getD 3 0)]) (p.drop 4)
    else if p.getD 0 0 = BACKSLASH ∧ p.getD 1 0 ≠ 0 then
      tokenLoop fuel .double (current ++ [unescape (p.getD 1 0)]) (p.drop 2)
    else if p.getD 0 0 = QUOTE then
      if p.getD 1 0 ≠ 0 ∧ ¬ isspace (p.getD 1 0) then none else some (current, p.drop 1)
    else if p.getD 0 0 = 0 then none
    else tokenLoop fuel .double (current ++ [p.getD 0 0]) (p.drop 1)
  | fuel + 1, .single, current, p =>
    if p.getD 0 0 = BACKSLASH ∧ p.getD 1 0 = SINGLE_QUOTE then
      tokenLoop fuel .single (current ++ [SINGLE_QUOTE]) (p.drop 2)
    else if p.getD 0 0 = SINGLE_QUOTE then
      if p.getD 1 0 ≠ 0 ∧ ¬ isspace (p.getD 1 0) then none else some (current, p.drop 1)
    else if p.getD 0 0 = 0 then none
    else tokenLoop fuel .single (current ++ [p.getD 0 0]) (p.drop 1)
  | fuel + 1, .no, current, p =>
    let c := p.getD 0 0
    if c = 32 ∨ c = LF ∨ c = CR ∨ c = 9 ∨ c = 0 then some (current, p.drop 1)
    else if c = QUOTE then tokenLoop fuel .double current (p.drop 1)
    else if c = SINGLE_QUOTE then tokenLoop fuel .single current (p.drop 1)
    else tokenLoop fuel .no (current ++ [c]) (p.drop 1)

def splitLoop : ℕ → List Bytes → Bytes → Option (List Bytes)
  | 0, _, _ => none
  | fuel + 1, vector, p =>
    let p := p.dropWhile isspace
    if p = [] then some vector
    else (tokenLoop (p.length + 1) .no [] p).bind fun r => splitLoop fuel (vector ++ [r.1]) r.2

/-- `none`: unbalanced quotes, or a closing quote before something else than a space. -/
def sdssplitargs (line : Bytes) : Option (List Bytes) := splitLoop (line.length + 1) [] (cstr line).val

end RedisIR
