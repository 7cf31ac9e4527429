import RowGraph.Checked
import RowGraph.Graph.Plan
import RowGraph.Settings
import RowGraph.Sql.Select

/-!
# Queries

A query records clauses as they are given; nothing is resolved before it is built. Its toMany
properties are queries of their own, the children, each under the mount where its results go. A
built query keeps its compiled form until a clause changes.
-/

namespace RowGraph

/-- A value bound to a placeholder of a filter, or a query that is put in its place. -/
inductive Param (Q : Type) where
  | value (v : Value)
  | subquery (query : Q)

inductive Index where
  | field (name : String)
  | computed (key : Object → Value)

structure Clauses where
  source : Option String := none
  selects : List String := []
  selectsWith : List (String × String) := []
  expressions : List String := []
  /-- Fields that are selected whatever the caller excludes. -/
  forced : List String := []
  /-- Paths whose primary keys the children need. -/
  relations : List Path := []
  filter : Option String := none
  group : Option String := none
  having : Option (String × List Value) := none
  order : Option String := none
  limit : Option (String × List Value) := none
  distinct : Bool := false
  options : Option String := none
  index : Option Index := none
  counted : Bool := false

/-- Ties a child to its owner: the child's column that holds the owner's key, and the keys of
the owners once their rows are known. -/
structure Link where
  foreignKey : String
  ownerKeys : Option (List Value) := none

structure Listeners where
  objects : Bool := false
  count : Bool := false
  finish : Bool := false

def Listeners.any (l : Listeners) : Bool := l.objects || l.count || l.finish

structure Compiled where
  style : Sql.EscapeStyle
  select : Sql.Select
  counted : Bool
  plan : Plan

namespace Compiled

def statement (c : Compiled) : Sql.Statement := .ofPieces c.style c.select.pieces

def countStatement (c : Compiled) : Option Sql.Statement :=
  if c.counted then some (.ofPieces c.style c.select.countPieces) else none

end Compiled

structure Query where
  clauses : Clauses := {}
  params : List (Param Query) := []
  faults : List Fault := []
  children : List (Mount × Query) := []
  link : Option Link := none
  listeners : Listeners := {}
  compiled : Option Compiled := none

namespace Query

/-! ## Recording clauses -/

def edit (q : Query) (change : Clauses → Clauses) : Query :=
  { q with clauses := change q.clauses, compiled := none }

def setSource (s : Schema) (entity : String) (q : Query) : Query :=
  -- a source set again changes no clause, so that the compiled form stays
  if q.clauses.source.isSome then { q with faults := q.faults ++ [.sourceSetTwice] }
  else
    let faults :=
      if (s.entity? entity).isSome then q.faults else q.faults ++ [.unknownEntity entity]
    { q.edit ({ · with source := some entity }) with faults }

def select (fields : String) (q : Query) : Query :=
  if (Text.trim fields).isEmpty then q
  else q.edit fun c => { c with selects := c.selects ++ [fields] }

def selectWith (path fields : String) (q : Query) : Query :=
  q.edit fun c => { c with selectsWith := c.selectsWith ++ [(path, fields)] }

def selectExpression (expression : String) (q : Query) : Query :=
  q.edit fun c => { c with expressions := c.expressions ++ [expression] }

def filter (expression : String) (params : List (Param Query)) (q : Query) : Query :=
  { q.edit ({ · with filter := some expression }) with params := params }

def having (expression : String) (params : List Value) (q : Query) : Query :=
  q.edit ({ · with having := some (expression, params) })

def order (expression : String) (q : Query) : Query :=
  q.edit ({ · with order := some expression })

def group (expression : String) (q : Query) : Query :=
  q.edit ({ · with group := some expression })

def limitWith (expression : String) (params : List Value) (q : Query) : Query :=
  q.edit ({ · with limit := some (expression, params) })

def limit (rows : UInt64) (q : Query) : Query := q.limitWith "?" [.ofUInt64 rows]

def distinct (q : Query) : Query := q.edit ({ · with distinct := true })

def options (text : String) (q : Query) : Query :=
  q.edit ({ · with options := some text })

def index (target : Index) (q : Query) : Query := q.edit ({ · with index := some target })

def countWithoutLimit (q : Query) : Query := q.edit ({ · with counted := true })

def listen (change : Listeners → Listeners) (q : Query) : Query :=
  { q with listeners := change q.listeners }

/-! ## Children -/

def newChild (s : Schema) (target foreignKey : String) : Query :=
  let q : Query := {}
  { (q.setSource s target).edit ({ · with forced := [foreignKey] }) with
    link := some { foreignKey } }

def openChild (s : Schema) (mount : Mount) (target foreignKey : String) (q : Query) : Query :=
  { q with
    compiled := none
    children := Keyed.putNew mount (newChild s target foreignKey) q.children }

def modifyChild (mount : Mount) (change : Query → Query) (q : Query) : Query :=
  { q with children := Keyed.modify mount change q.children }

def child? (q : Query) : List Mount → Option Query
  | [] => some q
  | mount :: rest => (q.children.lookup mount).bind (·.child? rest)

def putChild (child : Query) : List Mount → Query → Query
  | [], _ => child
  | mount :: rest, q => q.modifyChild mount (putChild child rest)

end Query
end RowGraph
