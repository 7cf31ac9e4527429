import RowGraph.Query.Scope
import RowGraph.Query.Template

/-!
# Resolving the clauses

Every clause of a query is checked against the schema by itself, and the faults of all clauses
are reported together (`Checks.faults`). Only if there are none is there a `Resolution`; it says
which columns are selected, which tables are joined, and which fields go on to children.
-/

namespace RowGraph

inductive Binding where
  | value (v : Value)
  | statement (built : Checked Sql.Statement)

def Binding.check : Binding → Checked Bound
  | .value v => .ok (.value v)
  | .statement built => built.map .statement

structure Filter where
  template : Template
  bounds : List Bound

/-! ## Single clauses -/

def splitFields (fields : String) : List String := (Text.split ',' fields).map Text.trim

/-- A field relative to a path. An empty field stays empty, and an exclusion stays one. -/
def relativeField (path field : String) : String :=
  match field.toList with
  | [] => ""
  | '!' :: rest => "!" ++ path ++ "." ++ Text.trim (String.ofList rest)
  | _ => path ++ "." ++ field

def Clauses.fields (c : Clauses) : List String :=
  let fields := c.selects.flatMap splitFields ++
    c.selectsWith.flatMap fun (path, list) => (splitFields list).map (relativeField path)
  if fields.isEmpty && c.expressions.isEmpty then ["*"] else fields

def Settings.indexItem (s : Settings) (base : Entity) : Option Index → Checked (Option Item)
  | some (.field name) => (s.items base .index [name]).map List.head?
  | _ => .ok none

def Settings.template? (s : Settings) (base : Entity) : Option String → Checked (Option Template)
  | none => .ok none
  | some expression => (s.template base expression).map some

def Settings.filter (s : Settings) (base : Entity) (expression : String)
    (bindings : List Binding) : Checked Filter := do
  let template ← s.template base expression
  let placeholders := template.placeholders s.style
  if bindings.length > placeholders then
    .error [.tooManyValues expression placeholders bindings.length]
  -- a filter that fails before this does not report what is wrong with its subqueries
  let bounds ← Checked.all (bindings.map Binding.check)
  return { template, bounds }

def Settings.filter? (s : Settings) (base : Entity) (bindings : List Binding) :
    Option String → Checked (Option Filter)
  | none => .ok none
  | some expression => (s.filter base expression bindings).map some

/-! ## All clauses -/

structure Checks where
  forced : Checked (List Item)
  index : Checked (Option Item)
  fields : Checked (List Item)
  relations : Checked (List (List Step))
  expressions : Checked (List Template)
  filter : Checked (Option Filter)
  group : Checked (Option Template)
  having : Checked (Option Template)
  order : Checked (Option Template)

structure Resolution where
  forced : List Item
  index : Option Item
  fields : List Item
  relations : List (List Step)
  expressions : List Template
  filter : Option Filter
  group : Option Template
  having : Option Template
  order : Option Template

def Settings.check (s : Settings) (base : Entity) (c : Clauses) (bindings : List Binding) :
    Checks :=
  { forced := s.items base .select c.forced
    index := s.indexItem base c.index
    fields := s.items base .select c.fields
    relations := .all (c.relations.map fun path =>
      .ofExcept (s.walkPath base .root (path.bridges.filter (!·.isEmpty))))
    expressions := .all (c.expressions.map (s.template base))
    filter := s.filter? base bindings c.filter
    group := s.template? base c.group
    having := s.template? base (c.having.map Prod.fst)
    order := s.template? base c.order }

def Checks.faults (c : Checks) : List Fault :=
  c.forced.faults ++ c.index.faults ++ c.fields.faults ++ c.relations.faults ++
    c.expressions.faults ++ c.filter.faults ++ c.group.faults ++ c.having.faults ++
    c.order.faults

def Checks.resolution (c : Checks) : Checked Resolution :=
  match c with
  | { forced := .ok forced, index := .ok index, fields := .ok fields,
      relations := .ok relations, expressions := .ok expressions, filter := .ok filter,
      group := .ok group, having := .ok having, order := .ok order } =>
      .ok { forced, index, fields, relations, expressions, filter, group, having, order }
  | _ => .error c.faults

/-! ## Scopes -/

/-- The scope of the fields that become objects, and that of the whole statement, which extends
it by what the expressions need. -/
structure Scopes where
  shown : Scope
  whole : Scope

def Scopes.neededKeys (s : Scopes) : List Reference :=
  s.shown.keys.filterMap fun path =>
    (s.shown.tables.lookup path).map fun e => .plain path e.primaryKey

namespace Resolution

def shownNeeds (r : Resolution) : List Need :=
  r.forced.flatMap (·.needs true) ++ r.index.toList.flatMap (·.needs true) ++
    r.fields.flatMap (·.needs true) ++ r.relations.flatMap pathNeeds

def templates (r : Resolution) : List Template :=
  r.expressions ++ (r.filter.map (·.template)).toList ++ r.group.toList ++ r.having.toList ++
    r.order.toList

def otherNeeds (r : Resolution) : List Need :=
  r.templates.flatMap fun t => t.items.flatMap (·.needs false)

def scopes (r : Resolution) (base : Entity) : Scopes :=
  let shown := (Scope.base base).addAll r.shownNeeds
  { shown, whole := shown.addAll r.otherNeeds }

/-! ## Columns -/

/-- The references that were asked for: by the select list, and as foreign key and index, which
no exclusion removes. -/
def requested (r : Resolution) : List Reference :=
  selected r.fields ++ selected r.forced ++ (r.index.bind Item.reference?).toList

def injected (r : Resolution) (scopes : Scopes) : List Reference :=
  let requested := r.requested
  scopes.neededKeys.filter fun key => !requested.any (·.sameColumn key)

def columns (r : Resolution) (scopes : Scopes) : List Reference :=
  Keyed.distinct (r.requested ++ r.injected scopes)

/-! ## Hops -/

def hops (r : Resolution) (excluded : Bool) : List Hop :=
  ((r.forced ++ r.fields).filter (·.excluded == excluded)).filterMap Item.hop?

end Resolution
end RowGraph
