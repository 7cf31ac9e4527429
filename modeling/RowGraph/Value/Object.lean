import RowGraph.Text.Split
import RowGraph.Value.Basic

/-!
# Objects

An object is a mapped instance of an entity: the entity's name and the fields in the order in
which they were first put. `merge` copies a loaded object into one held already, recursing where
both hold an object.
-/

namespace RowGraph

structure Object where
  entity : String
  fields : List (String × Value) := []

namespace Object

def value (o : Object) : Value := .object o.entity o.fields

def get? (o : Object) (field : String) : Option Value := o.fields.lookup field

def put (o : Object) (field : String) (value : Value) : Object :=
  { o with fields := Keyed.put field value o.fields }

def erase (o : Object) (field : String) : Object :=
  { o with fields := Keyed.erase field o.fields }

def names (o : Object) : List String := o.fields.map Prod.fst

end Object

namespace Value

def object? : Value → Option Object
  | .object entity fields => some { entity, fields }
  | _ => none

def field? (value : Value) (field : String) : Option Value :=
  value.object?.bind (·.get? field)

mutual

/-- Merges a loaded value into the one held: two objects field by field, with the entity held;
anything else is replaced. -/
def merge (held : Option Value) (loaded : Value) : Value :=
  match loaded with
  | .object entity fields => match held with
    | some (.object kept old) => .object kept (mergeFields old fields)
    | _ => .object entity fields
  | other => other
termination_by structural loaded

def mergeFields (held : List (String × Value)) (loaded : List (String × Value)) :
    List (String × Value) :=
  match loaded with
  | [] => held
  | (name, value) :: rest =>
      mergeFields (Keyed.put name (merge (held.lookup name) value) held) rest
termination_by structural loaded

end

end Value

namespace Object

def path? (o : Object) (path : String) : Option Value :=
  match Text.split '.' path with
  | [] => none
  | first :: rest => (o.get? first).bind fun start =>
      rest.foldlM (fun value field => value.field? field) start

def merge (o loaded : Object) : Object :=
  { o with fields := Value.mergeFields o.fields loaded.fields }

end Object
end RowGraph
