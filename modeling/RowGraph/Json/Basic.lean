import RowGraph.Floating.Text

/-!
# JSON trees and their text

A `Json` tree keeps the members of an object in insertion order. `Json.render` writes a tree
without blanks. A quoted text escapes the quote, the backslash and the characters below U+0020,
and nothing else. A finite number in floating point is written positionally when its leading
digit is near the point: from the fifth decimal place to the sixteenth digit before the point for
64-bit numbers, and from the sixth decimal place to the thirteenth digit for 32-bit ones.
-/

namespace RowGraph

inductive JsonNumber where
  | natural (n : UInt64)
  | negative (n : Int64)
  | floating (bits : UInt64)
  deriving DecidableEq

inductive Json where
  | null
  | bool (b : Bool)
  | number (n : JsonNumber)
  | text (s : String)
  | array (items : List Json)
  | object (members : List (String × Json))

namespace Json

instance : Inhabited Json := ⟨.null⟩

/-! ## Texts -/

def hexDigit (n : Nat) : Char := (Nat.toDigits 16 n).headD '0'

def escapeChar (c : Char) : List Char :=
  if c = '"' then ['\\', '"']
  else if c = '\\' then ['\\', '\\']
  else if c.toNat = 8 then ['\\', 'b']
  else if c.toNat = 9 then ['\\', 't']
  else if c.toNat = 10 then ['\\', 'n']
  else if c.toNat = 12 then ['\\', 'f']
  else if c.toNat = 13 then ['\\', 'r']
  else if c.toNat < 0x20 then
    ['\\', 'u', '0', '0', hexDigit (c.toNat / 16), hexDigit (c.toNat % 16)]
  else [c]

def quote (s : String) : String :=
  String.ofList ('"' :: s.toList.flatMap escapeChar ++ ['"'])

/-! ## Numbers -/

def singleLayout : Floating.Layout :=
  { tie := .even, positional := some (-6, 12), wholeEnd := ".0" }

def doubleLayout : Floating.Layout :=
  { tie := .even, positional := some (-5, 15), wholeEnd := ".0" }

def floatingText? (l : Floating.Layout) (f : Floating.Format) (bits : Nat) : Option String :=
  match f.decode bits with
  | .finite negative significand exponent => some (l.write f negative significand exponent)
  | _ => none

def singleText? (bits : UInt32) : Option String :=
  floatingText? singleLayout Floating.single bits.toNat

def doubleText? (bits : UInt64) : Option String :=
  floatingText? doubleLayout Floating.double bits.toNat

def numberText : JsonNumber → String
  | .natural n => toString n.toNat
  | .negative n => toString n.toInt
  | .floating bits => (doubleText? bits).getD "null"

/-! ## Trees -/

def bracketed (items : List String) : String := "[" ++ String.intercalate "," items ++ "]"

def braced (members : List String) : String :=
  "\x7b" ++ String.intercalate "," members ++ "\x7d"

mutual

def render : Json → String
  | .null => "null"
  | .bool b => if b then "true" else "false"
  | .number n => numberText n
  | .text s => quote s
  | .array items => bracketed (renderItems items)
  | .object members => braced (renderMembers members)
termination_by structural tree => tree

def renderItems : List Json → List String
  | [] => []
  | item :: rest => item.render :: renderItems rest
termination_by structural items => items

def renderMembers : List (String × Json) → List String
  | [] => []
  | (name, item) :: rest => (quote name ++ ":" ++ item.render) :: renderMembers rest
termination_by structural members => members

end

end Json
end RowGraph
