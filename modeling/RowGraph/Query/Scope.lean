import RowGraph.Query.Field

/-!
# Scopes

A scope collects what the fields of a query need in its statement: an alias and a join for each
path, in order of first use, the aliases that become objects, and the paths whose primary keys are
selected whatever else is. Adding what is there already changes nothing.
-/

namespace RowGraph

inductive Need where
  | join (step : Step) (shown : Bool)
  | key (path : Path)

structure Join where
  name : Alias
  table : String
  primaryKey : String
  parent : Alias
  boundKey : String
  deriving DecidableEq

structure Shown where
  entity : String
  attachment : Option Attachment
  deriving DecidableEq

/-- The tables of a statement and their objects. The alias of a path is its place in `tables`. -/
structure Scope where
  tables : List (Path × Entity)
  joins : List (Path × Join) := []
  shown : List (Alias × Shown)
  keys : List Path := []

namespace Scope

def base (e : Entity) : Scope :=
  { tables := [(.root, e)], shown := [(.root, { entity := e.name, attachment := none })] }

def aliasOf? (s : Scope) (path : Path) : Option Alias :=
  (s.tables.findIdx? (·.1 == path)).map Alias.mk

def aliasOf (s : Scope) (path : Path) : Alias := (s.aliasOf? path).getD .root

def table? (s : Scope) (name : Alias) : Option (Path × Entity) := s.tables[name.index]?

def addKey (s : Scope) (path : Path) : Scope :=
  if s.keys.contains path then s else { s with keys := s.keys ++ [path] }

def addJoin (s : Scope) (step : Step) : Scope :=
  let t := { s with tables := Keyed.putNew step.path step.target s.tables }
  let join : Join :=
    { name := t.aliasOf step.path, table := step.target.table,
      primaryKey := step.target.primaryKey, parent := s.aliasOf step.owner,
      boundKey := step.boundKey }
  { t with joins := Keyed.putNew step.path join t.joins }

def addShown (s : Scope) (step : Step) : Scope :=
  let shown : Shown :=
    { entity := step.target.name, attachment := some ⟨s.aliasOf step.owner, step.bridge⟩ }
  { s with shown := Keyed.putNew (s.aliasOf step.path) shown s.shown }.addKey step.path

def add (s : Scope) : Need → Scope
  | .join step false => s.addJoin step
  | .join step true => (s.addJoin step).addShown step
  | .key path => s.addKey path

def addAll (s : Scope) (needs : List Need) : Scope := needs.foldl add s

end Scope

def Item.needs (shown : Bool) (i : Item) : List Need :=
  if i.excluded then []
  else
    let joins := i.walk.steps.map (Need.join · shown)
    match i.hop? with
    | none => joins
    | some hop => joins ++ [.key hop.mount.owner]

def pathNeeds (steps : List Step) : List Need :=
  steps.map (Need.join · true) ++ [.key ((steps.getLast?.map Step.path).getD .root)]

end RowGraph
