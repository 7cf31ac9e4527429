import RowGraph.Failure
import RowGraph.Query.Compile

/-!
# Children by path

A toMany path such as `customer.orders.items` names the query at its end: bridges stay joins of
the query they start from, and each toMany property leads to a child. `Settings.levels` follows a
path in the schema; `Query.toMany` opens the children on the way, also those in front of a part
that fails.
-/

namespace RowGraph

structure Level where
  mount : Mount
  target : String
  foreignKey : String

/-- Follows the parts of a path from the entity at a join path. The levels are those passed
before the end or before the failure. -/
def Settings.levels (s : Settings) (expression last : String) (e : Entity) (owner : Path) :
    List String → List Level × Option Failure
  | [] => ([], some (.misuse (.notToMany expression last)))
  | part :: rest => match e.property? part with
    | none => ([], some (.resolution (.unresolvedField part e.name)))
    | some .column => ([], some (.resolution (.columnInToManyPath expression)))
    | some (.bridge _ target) => match s.schema.entity? target with
      | none => ([], some (.resolution (.unknownEntity target)))
      | some next => s.levels expression last next (owner.enter part) rest
    | some (.toMany target foreignKey) =>
        let level : Level := { mount := ⟨owner, part⟩, target, foreignKey }
        if rest = [] then ([level], none)
        else match s.schema.entity? target with
          | none => ([level], some (.resolution (.unknownEntity target)))
          | some next =>
              let (levels, failure) := s.levels expression last next .root rest
              (level :: levels, failure)

namespace Query

def addRelation (path : Path) (q : Query) : Query :=
  if q.clauses.relations.contains path then q
  else q.edit fun c => { c with relations := c.relations ++ [path] }

def openLevels (s : Schema) : List Level → Query → Query
  | [], q => q
  | level :: rest, q =>
      ((q.addRelation level.mount.owner).openChild s level.mount level.target
        level.foreignKey).modifyChild level.mount (openLevels s rest)

def levels (s : Settings) (path : String) (q : Query) : List Level × Option Failure :=
  let parts := (Text.split '.' path).map Text.trim
  match q.clauses.source with
  | none => ([], some (.resolution .noSource))
  | some source => match s.schema.entity? source with
    | none => ([], some (.resolution (.unknownEntity source)))
    | some base => s.levels path (parts.getLastD "") base .root parts

/-- Follows a toMany path: the mounts that lead to the query at its end, and the query with the
children on the way opened. -/
def toMany (s : Settings) (path : String) (q : Query) : Except Failure (List Mount) × Query :=
  let (levels, failure) := q.levels s path
  let opened := q.openLevels s.schema levels
  match failure with
  | some f => (.error f, opened)
  | none => (.ok (levels.map (·.mount)), opened)

end Query
end RowGraph
