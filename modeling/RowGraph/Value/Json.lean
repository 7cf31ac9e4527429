import RowGraph.Json.Basic
import RowGraph.Value.Object

/-!
# Values and JSON

A value has two JSON forms. `Value.json` writes it directly, entry by entry. `Value.tree` goes
through a tree, where entries whose keys have one text become one member and a 32-bit number is
widened first. Both refuse a map key that is neither a text nor a boolean nor a number. The other
way, `Value.ofTree` reads a tree as a value, with objects as maps.
-/

namespace RowGraph

inductive KeyFault where
  | notText
  | notFinite
  deriving DecidableEq

def KeyFault.message : KeyFault → String
  | .notText => "key must be a string"
  | .notFinite => "float key must be finite (got NaN or +/-inf)"

def Number.json : Number → String
  | .int32 n => toString n.toInt
  | .int64 n => toString n.toInt
  | .uint64 n => toString n.toNat
  | .float32 bits => (Json.singleText? bits).getD "null"
  | .float64 bits => (Json.doubleText? bits).getD "null"

def JsonNumber.ofInt64 (n : Int64) : JsonNumber :=
  if n.toInt < 0 then .negative n else .natural n.toUInt64

def Json.ofBits (bits : Nat) : Json :=
  match Floating.double.decode bits with
  | .finite .. => .number (.floating (UInt64.ofNat bits))
  | _ => .null

def Number.tree : Number → Json
  | .int32 n => .number (.ofInt64 n.toInt64)
  | .int64 n => .number (.ofInt64 n)
  | .uint64 n => .number (.natural n)
  | .float32 bits => .ofBits (Floating.single.convert Floating.double bits.toNat)
  | .float64 bits => .ofBits bits.toNat

def Json.ofByte (b : UInt8) : Json := .number (.natural b.toUInt64)

namespace Value

def keyText : Value → Except KeyFault String
  | .text s => .ok s
  | .bool b => .ok (if b then "true" else "false")
  | .number n => if n.isFinite then .ok n.json else .error .notFinite
  | _ => .error .notText

/-! ## The direct form -/

mutual

def json : Value → Except KeyFault String
  | .null => .ok "null"
  | .bool b => .ok (if b then "true" else "false")
  | .number n => .ok n.json
  | .text s => .ok (Json.quote s)
  | .bytes data => .ok (Json.bracketed (data.map fun b => toString b.toNat))
  | .list items => do return Json.bracketed (← jsonItems items)
  | .map entries => do return Json.braced (← jsonEntries entries)
  | .object _ fields => do return Json.braced (← jsonFields fields)
termination_by structural value => value

def jsonItems : List Value → Except KeyFault (List String)
  | [] => .ok []
  | item :: rest => do return (← item.json) :: (← jsonItems rest)
termination_by structural items => items

def jsonEntries : List (Value × Value) → Except KeyFault (List String)
  | [] => .ok []
  | (key, value) :: rest => do
      let member := Json.quote (← key.keyText) ++ ":" ++ (← value.json)
      return member :: (← jsonEntries rest)
termination_by structural entries => entries

def jsonFields : List (String × Value) → Except KeyFault (List String)
  | [] => .ok []
  | (name, value) :: rest => do
      let member := Json.quote name ++ ":" ++ (← value.json)
      return member :: (← jsonFields rest)
termination_by structural fields => fields

end

/-! ## The tree -/

mutual

def tree : Value → Except KeyFault Json
  | .null => .ok .null
  | .bool b => .ok (.bool b)
  | .number n => .ok n.tree
  | .text s => .ok (.text s)
  | .bytes data => .ok (.array (data.map Json.ofByte))
  | .list items => do return .array (← treeItems items)
  | .map entries => do return .object (Keyed.ofPairs (← treeEntries entries))
  | .object _ fields => do return .object (Keyed.ofPairs (← treeFields fields))
termination_by structural value => value

def treeItems : List Value → Except KeyFault (List Json)
  | [] => .ok []
  | item :: rest => do return (← item.tree) :: (← treeItems rest)
termination_by structural items => items

def treeEntries : List (Value × Value) → Except KeyFault (List (String × Json))
  | [] => .ok []
  | (key, value) :: rest => do
      let member := (← key.keyText, ← value.tree)
      return member :: (← treeEntries rest)
termination_by structural entries => entries

def treeFields : List (String × Value) → Except KeyFault (List (String × Json))
  | [] => .ok []
  | (name, value) :: rest => do
      let member := (name, ← value.tree)
      return member :: (← treeFields rest)
termination_by structural fields => fields

end

/-! ## From a tree -/

/-- The number that a number of a tree stands for: a signed integer if it fits. -/
def numberOfTree : JsonNumber → Number
  | .natural n => if n ≤ Int64.maxValue.toUInt64 then .int64 n.toInt64 else .uint64 n
  | .negative n => .int64 n
  | .floating bits => .float64 bits

mutual

def ofTree : Json → Value
  | .null => .null
  | .bool b => .bool b
  | .number n => .number (numberOfTree n)
  | .text s => .text s
  | .array items => .list (ofTreeItems items)
  | .object members => .map (Keyed.ofPairs (ofTreeMembers members))
termination_by structural tree => tree

def ofTreeItems : List Json → List Value
  | [] => []
  | item :: rest => ofTree item :: ofTreeItems rest
termination_by structural items => items

def ofTreeMembers : List (String × Json) → List (Value × Value)
  | [] => []
  | (name, item) :: rest => (.text name, ofTree item) :: ofTreeMembers rest
termination_by structural members => members

end

end Value
end RowGraph
