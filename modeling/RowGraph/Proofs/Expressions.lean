import RowGraph.Proofs.Isolated
import RowGraph.Proofs.References

/-!
# Expressions in statements

No clause is dropped: of a query that builds, every expression stands in the statement, at its place
and with columns for its references, and an index gives an index in the plan
(`Query.expressions_written`).
-/

namespace RowGraph

/-! ## Pieces of a statement -/

namespace Sql

theorem text_infix {part pieces : List Piece} (h : part <:+: pieces) (style : EscapeStyle) :
    (Statement.ofPieces style part).text.toList <:+:
      (Statement.ofPieces style pieces).text.toList := by
  obtain ⟨front, back, rfl⟩ := h
  refine ⟨(Statement.ofPieces style front).text.toList,
    (Statement.ofPieces style back).text.toList, ?_⟩
  rw [text_append, text_append, String.toList_append, String.toList_append]

theorem infix_separated {separator : String} {group : List Piece} {groups : List (List Piece)}
    (h : group ∈ groups) : group <:+: separated separator groups := by
  induction groups with
  | nil => cases h
  | cons first rest ih =>
      cases rest with
      | nil =>
          rw [List.mem_singleton.mp h, separated, List.intercalate_singleton]
      | cons next rest =>
          rw [separated, List.intercalate_cons_cons]
          rcases List.mem_cons.mp h with rfl | later
          · rw [List.append_assoc]
            exact List.infix_append_left
          · exact (ih later).trans (List.suffix_append _ _).isInfix

theorem prefix_separated (separator : String) (group : List Piece) (groups : List (List Piece)) :
    group <+: separated separator (group :: groups) := by
  cases groups with
  | nil => rw [separated, List.intercalate_singleton]
  | cons next rest =>
      rw [separated, List.intercalate_cons_cons, List.append_assoc]
      exact List.prefix_append _ _

namespace Select

variable (s : Select)

theorem bodyPieces_infix : s.bodyPieces <:+: s.pieces :=
  ((List.prefix_append _ _).trans (List.prefix_append _ _)).isInfix

theorem listPieces_infix : s.listPieces <:+: s.pieces := by
  refine List.IsInfix.trans ?_ s.bodyPieces_infix
  unfold bodyPieces
  exact (List.infix_append _ s.listPieces _).trans ((((List.prefix_append _ _).trans
    (List.prefix_append _ _)).trans (List.prefix_append _ _)).trans (List.prefix_append _ _)).isInfix

theorem where_infix {condition : Condition} {rest : List Condition}
    (h : s.conditions = condition :: rest) :
    .fixed " WHERE " :: condition.pieces <:+: s.pieces := by
  have conditions : .fixed " WHERE " :: condition.pieces <+:
      if s.conditions.isEmpty then []
      else .fixed " WHERE " :: separated " AND " (s.conditions.map Condition.pieces) := by
    rw [h, List.isEmpty_cons, if_neg Bool.false_ne_true, List.map_cons]
    exact (List.prefix_cons_inj _).mpr (prefix_separated ..)
  refine conditions.isInfix.trans (List.IsInfix.trans ?_ s.bodyPieces_infix)
  exact (List.infix_append _ _ _).trans (List.prefix_append _ _).isInfix

theorem group_infix : clausePieces " GROUP BY " s.group <:+: s.pieces :=
  (List.infix_append _ _ _).trans s.bodyPieces_infix

theorem having_infix : clausePieces " HAVING " s.having <:+: s.pieces :=
  (List.suffix_append _ _).isInfix.trans s.bodyPieces_infix

theorem order_infix : clausePieces " ORDER BY " s.order <:+: s.pieces :=
  List.infix_append _ _ _

end Select

end Sql

/-! ## Templates in a scope -/

section

variable {s : Settings} {base : Entity} {q : Query} {r : Resolution}

theorem Resolution.writes {t : Template} (ht : t ∈ r.templates) {expression : String}
    (ok : s.template base expression = .ok t) :
    s.Writes base (r.scopes base).whole.aliasOf? expression
      (t.fill s.style (r.scopes base).whole.aliasOf) := by
  have needed : t.items.flatMap (·.needs false) ⊆ r.otherNeeds := fun need hn =>
    List.mem_flatMap.mpr ⟨t, ht, hn⟩
  have paths := (Settings.template_ok ok).path_of_reference
    ((Scope.rooted_base base).addAll r.shownNeeds) needed
  exact Settings.writes_of_template ok fun i hi ref hr => Scope.aliasOf?_of_mem (paths i hi ref hr)

theorem Resolution.mem_templates {t : Template} : t ∈ r.templates ↔ t ∈ r.expressions ∨
    (∃ f ∈ r.filter, f.template = t) ∨ t ∈ r.group ∨ t ∈ r.having ∨ t ∈ r.order := by
  simp only [templates, List.mem_append, Option.mem_toList, Option.mem_def, Option.map_eq_some_iff,
    or_assoc]

theorem Resolution.clause_stands {given : Option Template} {expression : String}
    (ok : s.template? base (some expression) = .ok given)
    (resolved : ∀ t ∈ given, t ∈ r.templates)
    {clause : Option Sql.Fragment} {params : List Value}
    (fragment : clause = given.map ((r.scopes base).whole.fragment s.style params))
    {select : Sql.Select} {keyword : String}
    (stands : Sql.clausePieces keyword clause <:+: select.pieces) :
    ∃ text, s.Writes base (r.scopes base).whole.aliasOf? expression text ∧
      (keyword ++ text).toList <:+: (Sql.Statement.ofPieces s.style select.pieces).text.toList := by
  obtain ⟨t, found, rfl⟩ := map_eq_ok_iff.mp ok
  refine ⟨_, r.writes (resolved t rfl) found, ?_⟩
  have text := Sql.text_infix stands s.style
  rwa [fragment, Option.map_some, Sql.text_clausePieces, Sql.clauseText, Option.elim_some] at text

theorem Resolution.filter_stands {bindings : List Binding} {given : Option Filter}
    {expression : String} (ok : s.filter? base bindings (some expression) = .ok given)
    (resolved : given = r.filter) {select : Sql.Select} {rest : List Sql.Condition}
    (stands : select.conditions =
      (given.map ((r.scopes base).whole.filterCondition s.style)).toList ++ rest) :
    ∃ text bounds, s.Writes base (r.scopes base).whole.aliasOf? expression text ∧
      List.Forall₂ (fun binding bound => binding.check = .ok bound) bindings bounds ∧
      (" WHERE " ++ ("(" ++ (splice text bounds).text ++ ")")).toList <:+:
        (Sql.Statement.ofPieces s.style select.pieces).text.toList := by
  obtain ⟨f, found, rfl⟩ := map_eq_ok_iff.mp ok
  obtain ⟨template, -, bounds⟩ := Settings.passed_of_filter found
  have writes :=
    r.writes (Resolution.mem_templates.mpr (.inr (.inl ⟨f, resolved.symm, rfl⟩))) template
  refine ⟨_, f.bounds, writes, bounds, ?_⟩
  have text := Sql.text_infix (Sql.Select.where_infix select stands) s.style
  rw [Scope.filterCondition, Sql.text_cons, Sql.Condition.text_pieces] at text
  exact text

/-! ## Queries that build -/

/-- What was given to a query stands in its compiled form: expressions in the statement, in which
paths have the aliases of a scope, and an index in the plan. -/
structure Query.Stands (s : Settings) (q : Query) (base : Entity) (scope : Scope) (c : Compiled) :
    Prop where
  expressions : List.Forall₂ (fun expression (f : Sql.Fragment) =>
    s.Writes base scope.aliasOf? expression f.text ∧ f.text.toList <:+: c.statement.text.toList)
      q.clauses.expressions c.select.expressions
  filter : ∀ expression ∈ q.clauses.filter, ∃ text bounds,
    s.Writes base scope.aliasOf? expression text ∧
      List.Forall₂ (fun binding bound => binding.check = .ok bound) (q.bindings s) bounds ∧
      (" WHERE " ++ ("(" ++ (splice text bounds).text ++ ")")).toList <:+: c.statement.text.toList
  group : ∀ expression ∈ q.clauses.group, ∃ text,
    s.Writes base scope.aliasOf? expression text ∧
      (" GROUP BY " ++ text).toList <:+: c.statement.text.toList
  having : ∀ clause ∈ q.clauses.having, ∃ text,
    s.Writes base scope.aliasOf? clause.1 text ∧
      (" HAVING " ++ text).toList <:+: c.statement.text.toList
  order : ∀ expression ∈ q.clauses.order, ∃ text,
    s.Writes base scope.aliasOf? expression text ∧
      (" ORDER BY " ++ text).toList <:+: c.statement.text.toList
  index : ∀ name, q.clauses.index = some (.field name) → ∃ ref a,
    s.Refers base .index name ref ∧ scope.aliasOf? ref.path = some a ∧
      c.plan.index = some (.label (a.label ref.label))
  computed : ∀ key, q.clauses.index = some (.computed key) → c.plan.index = some (.computed key)

theorem Query.Resolves.index_stands (h : q.Resolves s base r) {next : Query}
    (clauses : next.clauses = q.clauses) {name : String}
    (given : q.clauses.index = some (.field name)) :
    ∃ ref a, s.Refers base .index name ref ∧ (r.scopes base).whole.aliasOf? ref.path = some a ∧
      (next.assemble s base r).plan.index = some (.label (a.label ref.label)) := by
  have hc := Checks.resolution_eq_ok_iff.mp h.resolution
  simp only [Settings.check, Checks.mk.injEq] at hc
  have index : s.indexItem base (some (.field name)) = .ok r.index := given ▸ hc.2.1
  obtain ⟨items, found, head⟩ := map_eq_ok_iff.mp index
  rcases @Settings.items_singleton s base .index (by decide) name with
    ⟨i, ref, ok, single, refers⟩ | ⟨⟨fault, failed⟩, -⟩
  · rw [found, Except.ok.injEq] at ok
    have held : r.index.bind Item.reference? = some ref := by
      rw [← head, ok, List.head?_cons, Option.bind_some, Item.reference?, single]
    have requested : ref ∈ r.requested := List.mem_append_right _ (Option.mem_toList.mpr held)
    have shown := (Settings.check_ok h.resolution).path_of_requested requested
    have known : ref.path ∈ (r.scopes base).whole.tables.map Prod.fst :=
      List.map_subset _ (Scope.tables_prefix_addAll _ _).subset shown
    refine ⟨ref, _, refers, Scope.aliasOf?_of_mem known, ?_⟩
    simp only [Query.assemble, Resolution.plan, clauses, given, Resolution.indexTarget?, held]
    rfl
  · rw [found] at failed
    cases failed

theorem Query.Resolves.stands (h : q.Resolves s base r) {next : Query} (frames : q.Frames next) :
    q.Stands s base (r.scopes base).whole (next.assemble s base r) := by
  have hc := Checks.resolution_eq_ok_iff.mp h.resolution
  simp only [Settings.check, Checks.mk.injEq] at hc
  obtain ⟨-, -, -, -, expressions, filter, group, having, order⟩ := hc
  have clauses := frames.clauses
  refine ⟨?_, ?_, ?_, ?_, ?_, ?_, ?_⟩
  · have found := Checked.all_map_eq_ok_iff.mp expressions
    refine List.forall₂_map_right_iff.mpr (List.Forall₂.flip (forall₂_of_mem found.flip ?_))
    intro t ht expression ok
    refine ⟨r.writes (Resolution.mem_templates.mpr (.inl ht)) ok, ?_⟩
    have piece : [((r.scopes base).whole.fragment s.style [] t).piece] <:+:
        (next.assemble s base r).select.pieces := by
      refine List.IsInfix.trans (Sql.infix_separated ?_) (Sql.Select.listPieces_infix _)
      exact List.mem_append_right _ (List.mem_map_of_mem (List.mem_map_of_mem ht))
    have text := Sql.text_infix piece s.style
    rw [Sql.text_cons, Sql.text_nil, String.append_empty] at text
    exact text
  · intro expression given
    rw [Option.mem_def.mp given] at filter
    exact Resolution.filter_stands filter rfl (List.append_assoc ..)
  · intro expression given
    rw [Option.mem_def.mp given] at group
    exact Resolution.clause_stands group (fun t ht => Resolution.mem_templates.mpr (by tauto)) rfl
      (Sql.Select.group_infix (next.assemble s base r).select)
  · intro clause given
    rw [Option.mem_def.mp given, Option.map_some] at having
    exact Resolution.clause_stands having (fun t ht => Resolution.mem_templates.mpr (by tauto)) rfl
      (Sql.Select.having_infix (next.assemble s base r).select)
  · intro expression given
    rw [Option.mem_def.mp given] at order
    exact Resolution.clause_stands order (fun t ht => Resolution.mem_templates.mpr (by tauto)) rfl
      (Sql.Select.order_infix (next.assemble s base r).select)
  · exact fun name given => h.index_stands clauses given
  · intro key given
    simp only [Query.assemble, Resolution.plan, clauses, given, Resolution.indexTarget?]

structure Settings.Rewriting (s : Settings) (base : Entity) (expression : String)
    (marks : List (Char ⊕ String)) : Prop where
  resolves : (∃ t, s.template base expression = .ok t) ↔
    ∀ name, .inr name ∈ marks → ∃ ref, s.Refers base .expression (Text.trim name) ref
  text : ∀ t, s.template base expression = .ok t → ∀ aliasOf : Path → Alias,
    s.Writes base (some ∘ aliasOf) expression (t.fill s.style aliasOf)
  faults : ∀ faults, s.template base expression = .error faults →
    faults = marks.filterMap (s.faultOf? base)
  faultless : ∀ name, s.faultOf? base (.inr name) = none ↔
    ∃ ref, s.Refers base .expression (Text.trim name) ref

theorem Settings.rewriting (s : Settings) (base : Entity) {expression : String}
    {marks : List (Char ⊕ String)} (scans : Scans expression.toList marks) :
    s.Rewriting base expression marks where
  resolves := s.template_resolves_iff base scans
  text := fun _ ok _ => writes_of_template ok fun _ _ _ _ => rfl
  faults := fun faults failed => by
    have gathered := s.faults_template base expression
    rwa [failed, ← (scans_iff expression marks).mp scans] at gathered
  faultless := fun _ => faultOf?_eq_none_iff

/-- An expression is read in one way, and rewritten exactly if its references resolve, each to one
column; each that does not is one fault. Of a query that builds, every expression that was given
stands in the statement, and an index in the plan. -/
theorem Query.expressions_written (s : Settings) :
    (∀ base expression, ∃ marks, (∀ other, Scans expression.toList other ↔ other = marks) ∧
        s.Rewriting base expression marks) ∧
      (∀ base place field, place ≠ .select →
        (∃ i ref, s.items base place [field] = .ok [i] ∧ i.references = [ref] ∧
            s.Refers base place field ref) ∨
          (∃ fault, s.items base place [field] = .error [fault]) ∧
            ∀ ref, ¬ s.Refers base place field ref) ∧
      ∀ (q : Query) compiled next, q.Reached s → q.build s = (.ok compiled, next) →
        ∃ base r, q.Resolves s base r ∧ q.Stands s base (r.scopes base).whole compiled := by
  refine ⟨fun base expression => ?_, fun base place field other => ?_,
    fun q compiled next reached built => ?_⟩
  · exact ⟨_, scans_iff expression, s.rewriting base ((scans_iff expression _).mpr rfl)⟩
  · exact Settings.items_singleton other field
  · obtain ⟨base, r, resolves, rfl, -⟩ := reached.assembled built
    exact ⟨base, r, resolves, resolves.stands (frames_forward s.schema r q)⟩

end

namespace Sample

def summary : Query :=
  ((((((({} : Query).setSource schema "Order").selectExpression "SUM(\x7btotal\x7d)").filter
    "\x7b total \x7d > ? OR \x7bcustomer.name\x7d LIKE '\x7b\x7d%'" [.value (.ofInt64 100)]).group
      "\x7bcustomer.name\x7d").having "COUNT(\x7bid\x7d) > ?" [.ofInt64 3]).order
        "\x7bcustomer.name\x7d").index (.field "customer.name")

theorem summary_reached : summary.Reached settings :=
  .call (.call (.call (.call (.call (.call (.call .new (.setSource (s := settings) "Order"))
    (.selectExpression _)) (.filter _ _ (by simp))) (.group _)) (.having _ _)) (.order _)) (.index _)

end Sample

theorem Query.expressions_written_summary : ∃ compiled next base r,
    Sample.summary.build Sample.settings = (.ok compiled, next) ∧
      Sample.summary.Resolves Sample.settings base r ∧
      Sample.summary.Stands Sample.settings base (r.scopes base).whole compiled ∧
      ∃ i ref, Sample.settings.items base .index ["customer.name"] = .ok [i] ∧
        i.references = [ref] ∧ Sample.settings.Refers base .index "customer.name" ref := by
  obtain ⟨-, fields, built⟩ := Query.expressions_written Sample.settings
  obtain ⟨base, r, resolves, stands⟩ := built _ _ _ Sample.summary_reached rfl
  obtain ⟨ref, a, refers, -⟩ := stands.index "customer.name" rfl
  refine ⟨_, _, base, r, rfl, resolves, stands, ?_⟩
  exact (fields base .index _ (by decide)).resolve_right fun failed => failed.2 ref refers

end RowGraph
