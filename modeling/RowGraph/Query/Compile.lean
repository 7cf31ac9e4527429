import RowGraph.Query.Resolution

/-!
# Compiling queries

`Query.compile` resolves all clauses at once and assembles the statement and the mapping plan.
Fields that go on through a toMany property become select lists of the children, so a compiled
query may have more children than before; a query with faults stays as it is. `Query.build` keeps
the compiled form until a clause changes.
-/

namespace RowGraph

def Join.leftJoin (j : Join) : Sql.LeftJoin :=
  { table := j.table, tableAlias := j.name.token, primaryKey := j.primaryKey,
    foreignKey := ⟨j.parent.token, j.boundKey⟩ }

def baseColumn (column : String) : Sql.QualifiedColumn := ⟨Alias.root.token, column⟩

def Discriminator.condition (d : Discriminator) : Sql.Condition :=
  .equals (baseColumn d.column) (.text d.value)

def Link.condition? (l : Link) : Option Sql.Condition :=
  l.ownerKeys.map fun keys => .among (baseColumn l.foreignKey) keys

namespace Scope

/-! ## Parts of a statement -/

def label (scope : Scope) (r : Reference) : String := (scope.aliasOf r.path).label r.label

def column (scope : Scope) (r : Reference) : Sql.LabelledColumn :=
  { source := ⟨(scope.aliasOf r.path).token, r.column⟩, label := scope.label r }

def fragment (scope : Scope) (style : Sql.EscapeStyle) (params : List Value) (t : Template) :
    Sql.Fragment :=
  { text := t.fill style scope.aliasOf, params }

def filterCondition (scope : Scope) (style : Sql.EscapeStyle) (f : Filter) : Sql.Condition :=
  .fragment (splice (f.template.fill style scope.aliasOf) f.bounds)

/-! ## Parts of a mapping plan -/

def aliasPlan? (scope : Scope) (keepKeys : Bool) (injected : List Reference) (name : Alias)
    (shown : Shown) : Option AliasPlan :=
  (scope.table? name).map fun (path, entity) =>
    { name
      entity := shown.entity
      primaryKey := entity.primaryKey
      attachment := shown.attachment
      stripKey := shown.attachment.isSome && !keepKeys && injected.any (·.path == path) }

def mountPlan? (scope : Scope) (mount : Mount) : Option MountPlan := do
  let owner ← scope.aliasOf? mount.owner
  let (_, entity) ← scope.table? owner
  return { mount, owner, ownerKey := entity.primaryKey }

end Scope

namespace Resolution

def statement (r : Resolution) (s : Settings) (base : Entity) (scopes : Scopes) (c : Clauses)
    (link : Option Link) : Sql.Select :=
  let scope := scopes.whole
  { options := c.options
    distinct := c.distinct
    columns := (r.columns scopes).map scope.column
    expressions := r.expressions.map (scope.fragment s.style [])
    table := base.table
    tableAlias := Alias.root.token
    joins := scope.joins.map fun (_, join) => join.leftJoin
    conditions := (r.filter.map (scope.filterCondition s.style)).toList ++
      (base.discriminator.map Discriminator.condition).toList ++
      (link.bind Link.condition?).toList
    group := r.group.map (scope.fragment s.style [])
    having := r.having.map (scope.fragment s.style ((c.having.map Prod.snd).getD []))
    order := r.order.map (scope.fragment s.style [])
    limit := c.limit.map fun (text, params) => { text, params } }

def indexTarget? (r : Resolution) (scope : Scope) : Option Index → Option IndexTarget
  | none => none
  | some (.computed key) => some (.computed key)
  | some (.field _) =>
      (r.index.bind Item.reference?).map fun reference => .label (scope.label reference)

def plan (r : Resolution) (s : Settings) (scopes : Scopes) (index : Option Index)
    (mounts : List Mount) : Plan :=
  let scope := scopes.whole
  let injected := r.injected scopes
  { aliases := scope.shown.filterMap fun (name, shown) =>
      scope.aliasPlan? s.config.keepInjectedKeys injected name shown
    mounts := mounts.filterMap scope.mountPlan?
    index := r.indexTarget? scope index }

end Resolution

namespace Query

/-! ## Forwarding fields to children -/

def addField (field : String) (q : Query) : Query :=
  if field ∈ q.clauses.selects then q else q.select field

def forwardPlain (s : Schema) (q : Query) (hop : Hop) : Query :=
  (q.openChild s hop.mount hop.target hop.foreignKey).modifyChild hop.mount (addField hop.field)

def forwardExcluded (q : Query) (hop : Hop) : Query :=
  q.modifyChild hop.mount (addField ("!" ++ hop.field))

def forward (s : Schema) (r : Resolution) (q : Query) : Query :=
  -- exclusions come last, as they go only to children that are there
  (r.hops true).foldl forwardExcluded ((r.hops false).foldl (forwardPlain s) q)

/-! ## Compiling -/

/-- Compiles a query whose subqueries have been built. The result comes with the query that has
its fields forwarded. -/
def compileWith (s : Settings) (q : Query) (bindings : List Binding) :
    Checked (Compiled × Query) :=
  match q.clauses.source with
  | none => .error (q.faults ++ [.noSource])
  | some source => match s.schema.entity? source with
    | none => .error (if q.faults.isEmpty then [.unknownEntity source] else q.faults)
    | some base =>
        let checks := s.check base q.clauses bindings
        match q.faults, checks.resolution with
        | [], .ok r =>
            let next := q.forward s.schema r
            let scopes := r.scopes base
            let compiled :=
              { style := s.style
                select := r.statement s base scopes q.clauses q.link
                counted := q.clauses.counted
                plan := r.plan s scopes q.clauses.index (next.children.map Prod.fst) }
            .ok (compiled, next)
        | _, _ => .error (q.faults ++ checks.faults)

def statementWith (s : Settings) (q : Query) (bindings : List Binding) : Checked Sql.Statement :=
  match q.compiled with
  | some compiled => .ok compiled.statement
  | none => (q.compileWith s bindings).map fun (compiled, _) => compiled.statement

mutual

def bindings (s : Settings) : Query → List Binding
  | { clauses := _, params, faults := _, children := _, link := _, listeners := _,
      compiled := _ } => bindingsOf s params
termination_by structural q => q

def bindingsOf (s : Settings) : List (Param Query) → List Binding
  | [] => []
  | .value v :: rest => .value v :: bindingsOf s rest
  | .subquery q :: rest => .statement (q.statementWith s (q.bindings s)) :: bindingsOf s rest
termination_by structural params => params

end

def compile (s : Settings) (q : Query) : Checked (Compiled × Query) :=
  q.compileWith s (q.bindings s)

def build (s : Settings) (q : Query) : Checked Compiled × Query :=
  match q.compiled with
  | some compiled => (.ok compiled, q)
  | none => match q.compile s with
    | .ok (compiled, next) => (.ok compiled, { next with compiled := some compiled })
    | .error faults => (.error faults, q)

end Query
end RowGraph
