import RowGraph.Graph.Plan

/-!
# From rows to objects

`Plan.mapRow` makes one object for each alias of a plan, routes each value of the row to the
object that its label names, and attaches the objects to each other from the last alias to the
first. The members of a toMany property come from a `Group`, which collects the mapped rows of the
toMany query by the keys of their owners.
-/

namespace RowGraph

/-! ## Groups -/

def emptyCollection (indexed : Bool) : Value := if indexed then .map [] else .list []

structure Group where
  indexed : Bool
  byKey : List (Value × Value) := []

def Group.add (g : Group) (key : Value) (object : Object) (index : Option Value) : Group :=
  let collection := (g.byKey.lookup key).getD (emptyCollection g.indexed)
  let grown := match collection, index with
    | .map entries, some index => .map (Keyed.put index object.value entries)
    | .list items, _ => .list (items ++ [object.value])
    | other, _ => other
  { g with byKey := Keyed.put key grown g.byKey }

def Group.of (g : Group) (key : Value) : Value :=
  (g.byKey.lookup key).getD (emptyCollection g.indexed)

abbrev Groups := List (Mount × Group)

def Groups.of (groups : Groups) (mount : Mount) (key : Value) : Value :=
  match groups.lookup mount with
  | some group => group.of key
  | none => emptyCollection false

/-! ## Rows -/

def Row.cell (row : Row) (label : String) : Value := (row.lookup label).getD .null

namespace Plan

/-- The alias and the field that a label names. A label that names no alias of the plan is a
field of the root. -/
def route (p : Plan) (label : String) : Alias × String :=
  match Text.splitOnce '.' label with
  | some (token, field) => match p.aliases.find? (·.name.token == token) with
    | some a => (a.name, field)
    | none => (.root, label)
  | none => (.root, label)

def objects (p : Plan) (row : Row) : List (Alias × Object) :=
  let empty := p.aliases.map fun a => (a.name, { entity := a.entity : Object })
  row.foldl (fun objects (label, value) =>
    let (target, field) := p.route label
    Keyed.modify target (·.put field value) objects) empty

def putMembers (p : Plan) (groups : Groups) (row : Row) (owner : Alias) (o : Object) : Object :=
  (p.mounts.filter (·.owner = owner)).foldl
    (fun o m => o.put m.mount.property (groups.of m.mount (row.cell m.keyLabel))) o

/-- Attaches the objects of the aliases, given from the last to the first, and returns the
root. -/
def attach (p : Plan) (groups : Groups) (row : Row) :
    List AliasPlan → List (Alias × Object) → Object
  | [], _ => { entity := "" }
  | a :: rest, objects =>
      match objects.lookup a.name with
      | none => p.attach groups row rest objects
      | some object =>
          let complete := p.putMembers groups row a.name object
          let present := (complete.get? a.primaryKey).any (!·.isNull)
          let shown := if a.stripKey then complete.erase a.primaryKey else complete
          match a.attachment with
          | none => shown
          | some place =>
              let value := if present then shown.value else .null
              p.attach groups row rest
                (Keyed.modify place.parent (·.put place.property value)
                  (Keyed.erase a.name objects))

def mapRow (p : Plan) (groups : Groups) (row : Row) : Object × Option Value :=
  let root := p.attach groups row p.aliases.reverse (p.objects row)
  (root, p.index.map fun
    | .label label => row.cell label
    | .computed key => key root)

end Plan
end RowGraph
