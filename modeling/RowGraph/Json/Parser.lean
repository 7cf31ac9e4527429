import RowGraph.Keyed
import RowGraph.Json.Token

/-!
# Reading JSON

`parse?` reads a text as one JSON tree. The tokens are read one after another on a stack of open
arrays and objects, at most 127 of them. A name that is repeated in an object keeps its first
place and its last value.
-/

namespace RowGraph.Json

/-- An array or object that is still open, its items last first. -/
inductive Opened where
  | array (items : List Json)
  | object (members : List (String × Json))
  | member (members : List (String × Json)) (name : String)

inductive Expected where
  | value
  | item
  | name
  | nextName
  | colon
  | separator
  | nothing (tree : Json)

structure Reader where
  stack : List Opened
  expected : Expected

def depthLimit : Nat := 127

namespace Reader

def complete (value : Json) : List Opened → Option Reader
  | [] => some ⟨[], .nothing value⟩
  | .array items :: stack => some ⟨.array (value :: items) :: stack, .separator⟩
  | .member members name :: stack =>
      some ⟨.object (Keyed.put name value members) :: stack, .separator⟩
  | .object _ :: _ => none

def opened (innermost : Opened) (expected : Expected) (stack : List Opened) : Option Reader :=
  if stack.length < depthLimit then some ⟨innermost :: stack, expected⟩ else none

def startValue (stack : List Opened) : Token → Option Reader
  | .openArray => opened (.array []) .item stack
  | .openObject => opened (.object []) .name stack
  | .text s => complete (.text s) stack
  | .atom value => complete value stack
  | _ => none

def close : List Opened → Token → Option Reader
  | .array items :: stack, .closeArray => complete (.array items.reverse) stack
  | .object members :: stack, .closeObject => complete (.object members) stack
  | _, _ => none

def startName : List Opened → Token → Option Reader
  | .object members :: stack, .text name => some ⟨.member members name :: stack, .colon⟩
  | _, _ => none

def step (r : Reader) (token : Token) : Option Reader :=
  match r.expected with
  | .value => startValue r.stack token
  | .item => (close r.stack token).or (startValue r.stack token)
  | .name => (close r.stack token).or (startName r.stack token)
  | .nextName => startName r.stack token
  | .colon => match token with
    | .colon => some { r with expected := .value }
    | _ => none
  | .separator => match token, r.stack with
    | .comma, .array _ :: _ => some { r with expected := .value }
    | .comma, .object _ :: _ => some { r with expected := .nextName }
    | _, _ => close r.stack token
  | .nothing _ => none

end Reader

def parse? (s : String) : Option Json := do
  let tokens ← tokens? s
  let reader ← tokens.foldlM Reader.step ⟨[], .value⟩
  match reader.expected with
  | .nothing tree => some tree
  | _ => none

end RowGraph.Json
