import RowGraph.Query.Basic
import RowGraph.Text.Blank

/-!
# Fields

A field such as `customer.address.city` is walked from an entity through its bridges to a column.
A select field may also end in `*`, exclude its columns by a leading `!`, or go on through a
toMany property, whose query gets the rest of the field. `walk` follows one field and either finds
its goal or one fault; a walk depends on the schema and the configuration only, not on the other
fields of a query.
-/

namespace RowGraph

inductive Place where
  | select
  | index
  | expression
  deriving DecidableEq

/-- A column of the table at a path, and the name that it is reported under. -/
structure Reference where
  path : Path
  column : String
  label : String
  deriving DecidableEq

def Reference.plain (path : Path) (column : String) : Reference :=
  { path, column, label := column }

def Reference.sameColumn (a b : Reference) : Bool := a.path = b.path && a.column = b.column

structure Step where
  owner : Path
  bridge : String
  boundKey : String
  target : Entity

def Step.path (s : Step) : Path := s.owner.enter s.bridge

structure Hop where
  mount : Mount
  target : String
  foreignKey : String
  field : String

inductive Goal where
  | columns (references : List Reference)
  | toMany (hop : Hop)

structure Walk where
  steps : List Step
  goal : Goal

namespace Settings

def affixColumn? (s : Settings) (e : Entity) (name : String) : Option String :=
  (s.config.affix.map (·.apply name)).filter e.hasColumn

def walk (s : Settings) (place : Place) (field : String) (e : Entity) (path : Path) :
    List String → Except Fault Walk
  | [] => .ok ⟨[], .columns []⟩
  | part :: rest =>
      let unresolved := Fault.unresolvedField part e.name
      if part = "*" then
        if place ≠ .select then .error .wildcardOutsideSelect
        else if rest ≠ [] then .error unresolved
        else .ok ⟨[], .columns (e.columns.map (Reference.plain path))⟩
      else match e.property? part with
        | some .column =>
            if rest ≠ [] then .error unresolved
            else .ok ⟨[], .columns [.plain path part]⟩
        | some (.bridge boundKey target) =>
            if rest = [] then .error (.relationAsField field)
            else match s.schema.entity? target with
              | none => .error (.unknownEntity target)
              | some next =>
                  let step : Step := { owner := path, bridge := part, boundKey, target := next }
                  (s.walk place field next step.path rest).map fun w =>
                    { w with steps := step :: w.steps }
        | some (.toMany target foreignKey) =>
            if place ≠ .select then .error (.toManyOutsideSelect field)
            else if rest = [] then .error (.relationAsField field)
            else .ok ⟨[], .toMany
              { mount := ⟨path, part⟩, target, foreignKey, field := String.intercalate "." rest }⟩
        | none =>
            match rest, s.affixColumn? e part with
            | [], some column =>
                let label := if place = .expression then column else part
                .ok ⟨[], .columns [{ path, column, label }]⟩
            | _, _ => .error unresolved

def walkField (s : Settings) (base : Entity) (place : Place) (field : String) :
    Except Fault Walk :=
  s.walk place field base .root ((Text.split '.' field).map Text.trim)

def walkPath (s : Settings) (e : Entity) (path : Path) : List String → Except Fault (List Step)
  | [] => .ok []
  | part :: rest => match e.property? part with
    | some (.bridge boundKey target) => match s.schema.entity? target with
      | none => .error (.unknownEntity target)
      | some next =>
          let step : Step := { owner := path, bridge := part, boundKey, target := next }
          (s.walkPath next step.path rest).map (step :: ·)
    | _ => .error (.unresolvedField part e.name)

end Settings

/-! ## Lists of fields -/

structure Item where
  excluded : Bool
  walk : Walk

namespace Item

def references (i : Item) : List Reference :=
  match i.walk.goal with
  | .columns references => references
  | .toMany _ => []

def hop? (i : Item) : Option Hop :=
  match i.walk.goal with
  | .columns _ => none
  | .toMany hop => some hop

def reference? (i : Item) : Option Reference :=
  match i.references with
  | [reference] => some reference
  | _ => none

end Item

/-- Follows a field of a list, given with the whole list for the fault of an empty field. -/
def Settings.item (s : Settings) (base : Entity) (place : Place) (fields : List String)
    (field : String) : Except Fault Item :=
  match (Text.trim field).toList with
  | [] => .error (.emptyField (String.intercalate ", " fields))
  | '!' :: rest =>
      if place ≠ .select then .error .exclusionOutsideSelect
      else (s.walkField base place (Text.trim (String.ofList rest))).map
        fun walk => { excluded := true, walk }
  | plain => (s.walkField base place (String.ofList plain)).map
      fun walk => { excluded := false, walk }

def Settings.items (s : Settings) (base : Entity) (place : Place) (fields : List String) :
    Checked (List Item) :=
  .all (fields.map fun field => .ofExcept (s.item base place fields field))

def selected (items : List Item) : List Reference :=
  let excluded := (items.filter (·.excluded)).flatMap Item.references
  let wanted := (items.filter (!·.excluded)).flatMap Item.references
  Keyed.distinct (wanted.filter fun r => !excluded.any r.sameColumn)

end RowGraph
