import RowGraph.Proofs.Faults
import RowGraph.Proofs.Fetching

/-!
# Sessions that keep injected keys

Whether injected keys stay in the results is looked at only when a mapping plan is made. Two
sessions that differ in this alone resolve every clause alike and send the same statements, and
their plans differ in the marks of the keys to be removed (`Query.build_keeping`, over the
subqueries). So runs in them go in lockstep (`Query.lockstep_keeping`).
-/

namespace RowGraph

def Settings.keeping (s : Settings) (keep : Bool) : Settings :=
  { s with config := { s.config with keepInjectedKeys := keep } }

def AliasPlan.keepingKey (a : AliasPlan) : AliasPlan := { a with stripKey := false }

def Plan.keepingKeys (p : Plan) : Plan := { p with aliases := p.aliases.map AliasPlan.keepingKey }

def Compiled.keepingKeys (c : Compiled) : Compiled := { c with plan := c.plan.keepingKeys }

/-! ## Clauses -/

namespace Settings

variable (s : Settings) (keep : Bool) (base : Entity) (place : Place)

theorem walk_keeping (field : String) (e : Entity) (path : Path) (parts : List String) :
    (s.keeping keep).walk place field e path parts = s.walk place field e path parts := by
  have schema : (s.keeping keep).schema = s.schema := rfl
  have column (e : Entity) (name : String) :
      (s.keeping keep).affixColumn? e name = s.affixColumn? e name := rfl
  induction parts generalizing e path with
  | nil => rfl
  | cons part rest ih => simp only [walk, ih, schema, column]

theorem item_keeping (fields : List String) (field : String) :
    (s.keeping keep).item base place fields field = s.item base place fields field := by
  simp only [item, walkField, walk_keeping]

theorem items_keeping (fields : List String) :
    (s.keeping keep).items base place fields = s.items base place fields := by
  simp only [items, item_keeping]

theorem template_keeping (expression : String) :
    (s.keeping keep).template base expression = s.template base expression := by
  have part : (s.keeping keep).part base = s.part base := by
    funext segment
    cases segment with
    | literal text => rfl
    | reference field => simp only [Settings.part, item_keeping]
  simp only [template, part]

theorem template?_keeping (expression : Option String) :
    (s.keeping keep).template? base expression = s.template? base expression := by
  cases expression with
  | none => rfl
  | some expression => simp only [template?, template_keeping]

theorem check_keeping (c : Clauses) (bindings : List Binding) :
    (s.keeping keep).check base c bindings = s.check base c bindings := by
  have style : (s.keeping keep).style = s.style := rfl
  have index : (s.keeping keep).indexItem base c.index = s.indexItem base c.index := by
    unfold indexItem
    split
    · rw [items_keeping]
    · rfl
  have filter : (s.keeping keep).filter? base bindings c.filter = s.filter? base bindings c.filter := by
    cases c.filter with
    | none => rfl
    | some expression => simp only [filter?, Settings.filter, template_keeping, style]
  have template : (s.keeping keep).template base = s.template base :=
    funext (template_keeping s keep base)
  have path : (s.keeping keep).walkPath = s.walkPath := by
    funext e path bridges
    exact walkPath_congr (s := s) (t := s.keeping keep) rfl e path bridges
  simp only [check, items_keeping, index, path, template, filter, template?_keeping]

end Settings

/-! ## Plans -/

theorem Scope.aliasPlan?_keeping (scope : Scope) (injected : List Reference) (name : Alias)
    (shown : Shown) : scope.aliasPlan? true injected name shown =
      (scope.aliasPlan? false injected name shown).map AliasPlan.keepingKey := by
  simp only [aliasPlan?, Option.map_map]
  congr 1
  funext
  simp [AliasPlan.keepingKey]

theorem Resolution.plan_keeping (r : Resolution) (s : Settings) (scopes : Scopes)
    (index : Option Index) (mounts : List Mount) : r.plan (s.keeping true) scopes index mounts =
      (r.plan (s.keeping false) scopes index mounts).keepingKeys := by
  have kept : (s.keeping true).config.keepInjectedKeys = true := rfl
  have dropped : (s.keeping false).config.keepInjectedKeys = false := rfl
  simp only [plan, Plan.keepingKeys, List.map_filterMap, kept, dropped, Scope.aliasPlan?_keeping]

/-! ## Builds -/

namespace Query

theorem compileWith_keeping (s : Settings) (q : Query) (bindings : List Binding) :
    q.compileWith (s.keeping true) bindings =
      (q.compileWith (s.keeping false) bindings).map fun (compiled, next) =>
        (compiled.keepingKeys, next) := by
  have schema (keep : Bool) : (s.keeping keep).schema = s.schema := rfl
  unfold compileWith
  split
  · rfl
  · simp only [schema]
    split
    · rfl
    · simp only [Settings.check_keeping]
      split
      · simp only [Resolution.plan_keeping]
        rfl
      · rfl

theorem build_keeping (s : Settings) (q : Query) :
    (q.recompiled Compiled.keepingKeys).build (s.keeping true) =
      ((q.build (s.keeping false)).1.map Compiled.keepingKeys,
        (q.build (s.keeping false)).2.recompiled Compiled.keepingKeys) := by
  cases memo : q.compiled with
  | some compiled =>
      have kept : (q.recompiled Compiled.keepingKeys).compiled = some compiled.keepingKeys := by
        rw [recompiled, memo]
        rfl
      rw [build, kept, build, memo]
      rfl
  | none =>
      have same {next : Query} (fresh : next.compiled = none) :
          next.recompiled Compiled.keepingKeys = next := by
        cases next
        cases fresh
        rfl
      have bindings : q.bindings (s.keeping true) = q.bindings (s.keeping false) := by
        rw [bindings_eq_map, bindings_eq_map]
        refine List.map_congr_left fun param hm => ?_
        cases param with
        | value v => rfl
        | subquery sub =>
            simp only [binding]
            cases built : sub.compiled with
            | some compiled => rw [build, build, built]
            | none =>
                have ih := build_keeping s sub
                rw [same built] at ih
                rw [ih]
                cases (sub.build (s.keeping false)).1 <;> rfl
      have compile : q.compile (s.keeping true) = (q.compile (s.keeping false)).map
          fun (compiled, next) => (compiled.keepingKeys, next) := by
        rw [Query.compile, bindings, compileWith_keeping]
        rfl
      rw [same memo, build, build, memo]
      simp only [compile]
      cases q.compile (s.keeping false) with
      | error faults => simp only [Except.map, same memo]
      | ok built => rfl
termination_by sizeOf q
decreasing_by exact sizeOf_subquery hm

theorem lockstep_keeping (s : Settings) :
    Lockstep (s.keeping false) (s.keeping true) Compiled.keepingKeys where
  statement _ := rfl
  mounts _ := rfl
  built h := by
    rw [build_keeping, h]
    rfl
  unbuilt h := by
    rw [build_keeping, h]
    rfl

end Query

end RowGraph
