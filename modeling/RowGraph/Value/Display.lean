import RowGraph.Value.Object

/-!
# Displayed values

The text of a value in messages and in computed keys. Texts stand in quotes without escaping, and
bytes are given by their number.
-/

namespace RowGraph

namespace Value

mutual

def display : Value → String
  | .null => "null"
  | .bool b => if b then "true" else "false"
  | .number n => n.display
  | .text s => "\"" ++ s ++ "\""
  | .bytes data => "<" ++ toString data.length ++ " bytes>"
  | .list items => "[" ++ String.intercalate ", " (displayItems items) ++ "]"
  | .map entries => "\x7b" ++ String.intercalate ", " (displayEntries entries) ++ "\x7d"
  | .object entity fields =>
      entity ++ " \x7b" ++ String.intercalate "," (displayFields fields) ++ " \x7d"
termination_by structural value => value

def displayItems : List Value → List String
  | [] => []
  | item :: rest => item.display :: displayItems rest
termination_by structural items => items

def displayEntries : List (Value × Value) → List String
  | [] => []
  | (key, value) :: rest => (key.display ++ ": " ++ value.display) :: displayEntries rest
termination_by structural entries => entries

def displayFields : List (String × Value) → List String
  | [] => []
  | (name, value) :: rest => (" " ++ name ++ ": " ++ value.display) :: displayFields rest
termination_by structural fields => fields

end

end Value

def Object.display (o : Object) : String := o.value.display

end RowGraph
