/-!
# Placeholders

A question mark outside quotes is a placeholder. A quote of any of the three kinds opens when none
is open, and only the same kind closes it. `cut` gives the pieces of a text between its
placeholders, `positions` their offsets in bytes, and `numbered` the text with the placeholders
numbered from `$1`.
-/

namespace RowGraph.Sql

def isQuote (c : Char) : Bool := c == '\'' || c == '"' || c == '\x60'

def quoteAfter (quote : Option Char) (c : Char) : Option Char :=
  match quote with
  | some q => if c = q then none else some q
  | none => if isQuote c then some c else none

def quoteAfterAll (quote : Option Char) (cs : List Char) : Option Char :=
  cs.foldl quoteAfter quote

def isPlaceholder (quote : Option Char) (c : Char) : Bool := quote.isNone && c == '?'

def positionsFrom (quote : Option Char) (offset : Nat) : List Char → List Nat
  | [] => []
  | c :: cs =>
      let rest := positionsFrom (quoteAfter quote c) (offset + c.utf8Size) cs
      if isPlaceholder quote c then offset :: rest else rest

def cutFrom (quote : Option Char) : List Char → List (List Char)
  | [] => [[]]
  | c :: cs =>
      let rest := cutFrom (quoteAfter quote c) cs
      if isPlaceholder quote c then [] :: rest
      else match rest with
        | [] => [[c]]
        | piece :: more => (c :: piece) :: more

def numberPieces (next : Nat) : List (List Char) → List Char
  | [] => []
  | piece :: rest => '$' :: (toString next).toList ++ piece ++ numberPieces (next + 1) rest

def positions (text : String) : List Nat := positionsFrom none 0 text.toList

def cut (text : String) : List String := (cutFrom none text.toList).map String.ofList

def numbered (text : String) : String :=
  match cutFrom none text.toList with
  | [] => ""
  | piece :: rest => String.ofList (piece ++ numberPieces 1 rest)

end RowGraph.Sql
