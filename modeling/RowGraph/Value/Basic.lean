import RowGraph.Keyed
import RowGraph.Value.Number

/-!
# Values

The dynamic values that flow through queries: parameters, row cells and the mapped object graph.
A `list` holds the members of a toMany relation, a `map` the same members keyed by an index, and
an `object` a bridged relation. Maps and objects keep their entries in insertion order, but
`Value.same`, the equality of values, does not look at that order.
-/

namespace RowGraph

inductive Value where
  | null
  | bool (b : Bool)
  | number (n : Number)
  | text (s : String)
  | bytes (data : List UInt8)
  | list (items : List Value)
  | map (entries : List (Value × Value))
  | object (entity : String) (fields : List (String × Value))

abbrev Row := List (String × Value)

namespace Value

instance : Inhabited Value := ⟨.null⟩

mutual

/-- Equality of values: numbers by their keys, lists item by item, maps and objects by look-up
and size. -/
def same : Value → Value → Bool
  | .null, .null => true
  | .bool a, .bool b => a == b
  | .number a, .number b => a == b
  | .text a, .text b => a == b
  | .bytes a, .bytes b => a == b
  | .list xs, .list ys => sameItems xs ys
  | .map xs, .map ys => xs.length == ys.length && sameEntries xs ys
  | .object e xs, .object f ys => e == f && xs.length == ys.length && sameFields xs ys
  | _, _ => false
termination_by structural value => value

def sameItems : List Value → List Value → Bool
  | [], [] => true
  | x :: xs, y :: ys => same x y && sameItems xs ys
  | _, _ => false
termination_by structural items => items

def sameEntries : List (Value × Value) → List (Value × Value) → Bool
  | [], _ => true
  | (key, value) :: rest, others =>
      (match others.find? (fun other => same key other.1) with
        | some other => same value other.2
        | none => false) && sameEntries rest others
termination_by structural entries => entries

def sameFields : List (String × Value) → List (String × Value) → Bool
  | [], _ => true
  | (name, value) :: rest, others =>
      (match others.lookup name with
        | some other => same value other
        | none => false) && sameFields rest others
termination_by structural fields => fields

end

instance : BEq Value := ⟨same⟩

def isNull : Value → Bool
  | .null => true
  | _ => false

def text? : Value → Option String
  | .text s => some s
  | _ => none

def bool? : Value → Option Bool
  | .bool b => some b
  | _ => none

def int64? : Value → Option Int
  | .number n => n.int64?
  | _ => none

def doubleBits? : Value → Option Nat
  | .number n => some n.doubleBits
  | _ => none

def list? : Value → Option (List Value)
  | .list items => some items
  | _ => none

def map? : Value → Option (List (Value × Value))
  | .map entries => some entries
  | _ => none

def ofInt64 (n : Int64) : Value := .number (.int64 n)

def ofUInt64 (n : UInt64) : Value := .number (.uint64 n)

end Value
end RowGraph
