/-!
# Schemas

What a query needs to know about the entities: their tables, columns and relations. A bridge is a
one-to-one relation through a column of its owner, a toMany property a one-to-many relation
through a column of its target. Properties keep the order of declaration.
-/

namespace RowGraph

inductive Property where
  | column
  /-- A relation to the row of `target` whose primary key the owner's `boundKey` holds. -/
  | bridge (boundKey target : String)
  /-- A relation to the rows of `target` whose `foreignKey` holds the owner's primary key. -/
  | toMany (target foreignKey : String)
  deriving DecidableEq

/-- Marks the rows of a shared table that belong to an entity: those with `value` in `column`. -/
structure Discriminator where
  column : String
  value : String
  deriving DecidableEq

/-- An entity. Its table has another name only if several entities share it. -/
structure Entity where
  name : String
  table : String
  primaryKey : String
  properties : List (String × Property) := []
  discriminator : Option Discriminator := none
  deriving DecidableEq

namespace Entity

def property? (e : Entity) (name : String) : Option Property := e.properties.lookup name

def columns (e : Entity) : List String :=
  e.properties.filterMap fun (name, property) => if property = .column then some name else none

def hasColumn (e : Entity) (name : String) : Bool := e.property? name == some .column

end Entity

structure Schema where
  entities : List Entity

def Schema.entity? (s : Schema) (name : String) : Option Entity :=
  s.entities.find? (·.name == name)

end RowGraph
