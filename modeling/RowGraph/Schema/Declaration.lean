import RowGraph.Fault
import RowGraph.Schema.Basic

/-!
# Declaring a schema

An entity is declared by its name and a list of parts. `Schema.ofDeclarations` makes a schema of
the declarations or reports the first fault: that of a name used twice, in order of declaration,
and after that one of a key or a relation that refers to something that is not there.
-/

namespace RowGraph

inductive Part where
  | table (name : String)
  | primaryKey (name : String)
  | column (name : String)
  | bridge (name boundKey target : String)
  | toMany (name target foreignKey : String)
  | discriminator (column value : String)

/-- An entity as declared. The table has the entity's name and the primary key is `id` unless
parts say otherwise. -/
structure Declaration where
  name : String
  parts : List Part

structure Draft where
  entity : Entity
  faults : List Fault := []

namespace Draft

def addProperty (d : Draft) (name : String) (property : Property) (taken : Fault) : Draft :=
  if (d.entity.property? name).isSome then { d with faults := d.faults ++ [taken] }
  else { d with entity.properties := d.entity.properties ++ [(name, property)] }

def add (d : Draft) : Part → Draft
  | .table name => { d with entity.table := name }
  | .primaryKey name => { d with entity.primaryKey := name }
  | .column name =>
      d.addProperty name .column (.invalidSchema (.repeatedProperty name d.entity.name))
  | .bridge name boundKey target =>
      d.addProperty name (.bridge boundKey target) (.bridgeCollision name d.entity.table)
  | .toMany name target foreignKey =>
      d.addProperty name (.toMany target foreignKey)
        (.invalidSchema (.repeatedProperty name d.entity.name))
  | .discriminator column value => { d with entity.discriminator := some { column, value } }

end Draft

def Declaration.draft (d : Declaration) : Draft :=
  d.parts.foldl Draft.add
    { entity := { name := d.name, table := d.name, primaryKey := "id" } }

namespace Schema

def declare (s : Schema) (d : Declaration) : Except Fault Schema :=
  match d.draft.faults with
  | fault :: _ => .error fault
  | [] =>
      if (s.entity? d.name).isSome then .error (.invalidSchema (.repeatedEntity d.name))
      else .ok { s with entities := s.entities ++ [d.draft.entity] }

def checkProperty (s : Schema) (owner : Entity) : Property → Except Fault Unit
  | .column => .ok ()
  | .bridge boundKey target =>
      if !owner.hasColumn boundKey then
        .error (.invalidSchema (.boundKeyNotColumn boundKey owner.table))
      else if (s.entity? target).isNone then .error (.unknownEntity target)
      else .ok ()
  | .toMany target foreignKey =>
      match s.entity? target with
      | none => .error (.unknownEntity target)
      | some entity =>
          if entity.hasColumn foreignKey then .ok ()
          else .error (.invalidSchema (.foreignKeyNotColumn foreignKey entity.table))

def checkEntity (s : Schema) (e : Entity) : Except Fault Unit := do
  if !e.hasColumn e.primaryKey then
    throw (.invalidSchema (.keyNotColumn e.primaryKey e.name))
  match e.discriminator with
  | some d =>
      if !e.hasColumn d.column then
        throw (.invalidSchema (.discriminatorNotColumn d.column e.name))
  | none => pure ()
  e.properties.forM fun (_, property) => s.checkProperty e property

def ofDeclarations (declarations : List Declaration) : Except Fault Schema := do
  let s ← declarations.foldlM declare { entities := [] }
  s.entities.forM s.checkEntity
  return s

end Schema
end RowGraph
