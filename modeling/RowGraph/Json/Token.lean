import RowGraph.Json.Number

/-!
# JSON tokens

A text is cut into tokens by an automaton that reads one character at a time; `tokens?` is the
run of `Scan.step` over the whole text. Literal names and numbers are the longest runs of word
characters, and a run that is neither is refused.
-/

namespace RowGraph.Json

inductive Token where
  | openArray
  | closeArray
  | openObject
  | closeObject
  | comma
  | colon
  | text (s : String)
  | atom (value : Json)

/-- Where the automaton stands. Characters read are kept last first. -/
inductive Scan where
  | between
  | word (read : List Char)
  | quoted (read : List Char)
  | escaped (read : List Char)
  /-- After `digits` digits of a code unit, with the first half of a pair if one stands open. -/
  | code (read : List Char) (high : Option Nat) (digits value : Nat)
  | paired (read : List Char) (high : Nat) (backslash : Bool)

def isWordChar (c : Char) : Bool := c.isAlphanum || c == '-' || c == '+' || c == '.'

def isSpace (c : Char) : Bool := c == ' ' || c == '\n' || c == '\t' || c == '\r'

def wordToken (read : List Char) : Option Token :=
  let word := read.reverse
  if word = "null".toList then some (.atom .null)
  else if word = "true".toList then some (.atom (.bool true))
  else if word = "false".toList then some (.atom (.bool false))
  else (readNumber word).map (.atom ∘ .number)

def hexValue? (c : Char) : Option Nat :=
  if c.isDigit then some (c.toNat - 48)
  else if 'a' ≤ c ∧ c ≤ 'f' then some (c.toNat - 87)
  else if 'A' ≤ c ∧ c ≤ 'F' then some (c.toNat - 55)
  else none

def unescape? (c : Char) : Option Char :=
  if c = '"' ∨ c = '\\' ∨ c = '/' then some c
  else if c = 'b' then some (Char.ofNat 8)
  else if c = 'f' then some (Char.ofNat 12)
  else if c = 'n' then some '\n'
  else if c = 'r' then some '\r'
  else if c = 't' then some '\t'
  else none

/-- The state after a whole code unit: a character, or the first half of a pair. A half without
its other half is refused. -/
def Scan.afterCode (read : List Char) (high : Option Nat) (unit : Nat) : Option Scan :=
  let isHigh := 0xD800 ≤ unit && unit < 0xDC00
  let isLow := 0xDC00 ≤ unit && unit < 0xE000
  match high with
  | none =>
      if isHigh then some (.paired read unit false)
      else if isLow then none
      else some (.quoted (Char.ofNat unit :: read))
  | some first =>
      if isLow then
        some (.quoted (Char.ofNat (0x10000 + (first - 0xD800) * 0x400 + (unit - 0xDC00)) :: read))
      else none

def Scan.start (c : Char) : Option (List Token × Scan) :=
  if isSpace c then some ([], .between)
  else if c = '"' then some ([], .quoted [])
  else if c = '[' then some ([.openArray], .between)
  else if c = ']' then some ([.closeArray], .between)
  else if c = '\x7b' then some ([.openObject], .between)
  else if c = '\x7d' then some ([.closeObject], .between)
  else if c = ',' then some ([.comma], .between)
  else if c = ':' then some ([.colon], .between)
  else if isWordChar c then some ([], .word [c])
  else none

def Scan.step : Scan → Char → Option (List Token × Scan)
  | .between, c => Scan.start c
  | .word read, c =>
      if isWordChar c then some ([], .word (c :: read))
      else do
        let token ← wordToken read
        let (more, next) ← Scan.start c
        some (token :: more, next)
  | .quoted read, c =>
      if c = '"' then some ([.text (String.ofList read.reverse)], .between)
      else if c = '\\' then some ([], .escaped read)
      else if c.toNat < 0x20 then none
      else some ([], .quoted (c :: read))
  | .escaped read, c =>
      if c = 'u' then some ([], .code read none 0 0)
      else (unescape? c).map fun plain => ([], .quoted (plain :: read))
  | .code read high digits value, c => do
      let unit := 16 * value + (← hexValue? c)
      if digits = 3 then return ([], ← Scan.afterCode read high unit)
      else some ([], .code read high (digits + 1) unit)
  | .paired read high backslash, c =>
      if backslash then
        if c = 'u' then some ([], .code read (some high) 0 0) else none
      else if c = '\\' then some ([], .paired read high true)
      else none

def Scan.run : Scan → List Char → Option (List Token)
  | .between, [] => some []
  | .word read, [] => (wordToken read).map ([·])
  | _, [] => none
  | state, c :: cs => do
      let (tokens, next) ← state.step c
      let rest ← next.run cs
      some (tokens ++ rest)

def tokens? (s : String) : Option (List Token) := Scan.run .between s.toList

end RowGraph.Json
