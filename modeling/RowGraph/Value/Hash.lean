import RowGraph.Value.Basic

/-!
# What a hasher takes in

A value is hashed piece by piece: which kind of value it is, and then what it is made of. Maps and
objects are compared whatever the order of their entries, so that only the number of these is
taken in, and a number is taken in by the key by which it is compared.
-/

namespace RowGraph

inductive HashInput where
  | variant (index : Nat)
  | flag (b : Bool)
  | integer (n : Int)
  | pattern (bits : Nat)
  | text (s : String)
  | size (n : Nat)
  | bytes (data : List UInt8)
  deriving DecidableEq

def NumberKey.hashInput : NumberKey → List HashInput
  | .integer n => [.variant 0, .integer n]
  | .floating bits => [.variant 1, .pattern bits]

namespace Value

mutual

def hashInput : Value → List HashInput
  | .null => [.variant 0]
  | .bool b => [.variant 1, .flag b]
  | .number n => .variant 2 :: n.key.hashInput
  | .text s => [.variant 3, .text s]
  | .bytes data => [.variant 4, .size data.length, .bytes data]
  | .list items => .variant 5 :: .size items.length :: hashItems items
  | .map entries => [.variant 6, .size entries.length]
  | .object entity fields => [.variant 7, .text entity, .size fields.length]
termination_by structural value => value

def hashItems : List Value → List HashInput
  | [] => []
  | item :: rest => item.hashInput ++ hashItems rest
termination_by structural items => items

end

def hash {σ : Type} (take : σ → HashInput → σ) (state : σ) (value : Value) : σ :=
  value.hashInput.foldl take state

end Value
end RowGraph
