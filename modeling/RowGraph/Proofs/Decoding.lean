import RowGraph.Proofs.Isolated

/-!
# What labels say

The labels of the selected columns are distinct, and each decodes to what it is the label of
(`Query.Reached.labels_decode`). Up to its first dot a label names the alias of a path, which the
mapping plan has an object for. The rest is a name that the entity at this path has for one column
only: the column's own name, or one that is no property of the entity, so that no column has it, and
that the affix completes to the column.
-/

namespace RowGraph

/-- A reference to a column of the entity at its path, under a name that stands for this column. -/
structure Settings.Locates (s : Settings) (base : Entity) (ref : Reference) (e : Entity) :
    Prop where
  reached : s.schema.entityAt? base ref.path.bridges = some e
  isColumn : e.hasColumn ref.column
  named : s.Reports e ref.label ref.column

/-- The label of a reference decodes to the object of its path and to the name of its column. -/
structure Plan.Decodes (p : Plan) (s : Settings) (base : Entity) (scope : Scope) (ref : Reference)
    (a : AliasPlan) (e : Entity) : Prop extends s.Locates base ref e where
  planned : a ∈ p.aliases
  entity : a.entity = e.name
  name : scope.aliasOf? ref.path = some a.name
  splits : Text.splitOnce '.' (scope.label ref) = some (a.name.token, ref.label)
  routes : p.route (scope.label ref) = (a.name, ref.label)

namespace Settings

variable {s : Settings} {base e : Entity} {ref other : Reference}

theorem Reports.column_unique {name column another : String} (h : s.Reports e name column)
    (ho : s.Reports e name another) (hc : e.hasColumn column) (hac : e.hasColumn another) :
    column = another := by
  rw [Entity.hasColumn_iff] at hc hac
  -- the mixed cases cannot be: a column's own name is a property, and a completed one is none
  rcases h with rfl | ⟨unknown, made⟩
  · rcases ho with rfl | ⟨unknown, -⟩
    · rfl
    · rw [hc] at unknown
      cases unknown
  · rcases ho with rfl | ⟨-, again⟩
    · rw [hac] at unknown
      cases unknown
    · exact Option.some.inj (made.symm.trans again)

theorem Locates.unique {f : Entity} (h : s.Locates base ref e) (ho : s.Locates base other f)
    (path : ref.path = other.path) (label : ref.label = other.label) : ref = other := by
  have same : f = e := Option.some.inj (ho.reached.symm.trans (path ▸ h.reached))
  obtain ⟨path, column, name⟩ := ref
  obtain ⟨_, another, _⟩ := other
  cases path
  cases label
  subst same
  cases h.named.column_unique ho.named h.isColumn ho.isColumn
  rfl

section

variable (named : s.schema.Named) (hb : base ∈ s.schema.entities)

include named hb

theorem Follows.locates {place : Place} {field : String} {i : Item}
    (h : s.Follows base place field i) (hr : ref ∈ i.references) : ∃ e, s.Locates base ref e := by
  obtain ⟨last, final, chain, reports⟩ := h.reports
  obtain ⟨path, listed, reported⟩ := reports ref hr
  have there := chain.entityAt?
  have bridges := chain.bridges_final named hb
  rw [Path.bridges_root, List.nil_append] at bridges
  refine ⟨last, by rw [path, bridges, there], ?_, reported⟩
  exact (Entity.mem_columns (named.keys last (Schema.entityAt?_mem hb there))).mp listed

variable {c : Clauses} {bindings : List Binding} {r : Resolution}
  (resolved : s.Resolved base c bindings r)

include resolved

theorem Resolved.locates (hr : ref ∈ r.columns (r.scopes base)) : ∃ e, s.Locates base ref e := by
  rw [Resolution.columns, Keyed.mem_distinct, List.mem_append] at hr
  rcases hr with hr | hr
  · obtain ⟨place, field, i, follows, -, -, hm⟩ := resolved.item_of_requested hr
    exact follows.locates named hb hm
  · obtain ⟨path, -, held⟩ := List.mem_filterMap.mp (List.mem_of_mem_filter hr)
    obtain ⟨e, found, rfl⟩ := Option.map_eq_some_iff.mp held
    have grown := Scope.tables_prefix_addAll (r.scopes base).shown r.otherNeeds
    have there := (resolved.joined named hb).entityAt? (grown.subset (Keyed.mem_of_lookup found))
    exact ⟨e, there, named.primaryKey e (Schema.entityAt?_mem hb there), .inl rfl⟩

theorem Resolved.labels_nodup :
    (((r.columns (r.scopes base)).map (r.scopes base).whole.column).map (·.label)).Nodup := by
  have nodup := (resolved.joined named hb).keys_nodup
  have known : ∀ {ref}, ref ∈ r.columns (r.scopes base) →
      ref.path ∈ (r.scopes base).whole.tables.map Prod.fst := fun hr =>
    ((Scope.tables_prefix_addAll _ r.otherNeeds).map _).subset (resolved.path_of_column hr)
  rw [List.map_map]
  refine List.Nodup.map_on (fun ref hr other ho same => ?_) (Keyed.nodup_distinct _)
  obtain ⟨name, label⟩ := Alias.label_injective same
  obtain ⟨e, located⟩ := resolved.locates named hb hr
  obtain ⟨f, otherLocated⟩ := resolved.locates named hb ho
  exact located.unique otherLocated ((Scope.aliasOf_inj nodup (known hr) (known ho)).mp name) label

theorem Resolved.planned {path : Path} (hp : path ∈ (r.scopes base).shown.tables.map Prod.fst) :
    ∃ a ∈ r.aliases s base, ∃ e, a.entity = e.name ∧
      (r.scopes base).whole.table? a.name = some (path, e) := by
  obtain ⟨-, whole⟩ := Resolution.exhibits (resolved.routed_shown named hb)
  have joined := resolved.joined named hb
  have seen : path ∈ (r.shownNeeds.filterMap Need.step?).map Step.path ++ [.root] := by
    have alone : ((Scope.base base).tables.map Prod.fst).Nodup := by simp [Scope.base]
    have paths := Scope.paths_addAll alone r.shownNeeds
    rw [Resolution.scopes, paths, Keyed.mem_distinct, List.mem_append, or_comm] at hp
    exact List.mem_append.mpr hp
  obtain ⟨a, ha, e, there⟩ := (whole.seen_iff joined).mp seen
  exact ⟨a, ha, e, (Scope.aliasPlans_at joined whole.displayed ha there).1, there⟩

theorem Resolved.decodes {p : Plan} (aliases : p.aliases = r.aliases s base)
    (hr : ref ∈ r.columns (r.scopes base)) :
    ∃ a e, p.Decodes s base (r.scopes base).whole ref a e := by
  obtain ⟨a, ha, e, entity, there⟩ := resolved.planned named hb (resolved.path_of_column hr)
  obtain ⟨f, located⟩ := resolved.locates named hb hr
  have joined := resolved.joined named hb
  have same : f = e := Option.some.inj
    (located.reached.symm.trans (Scope.entityAt?_of_table? joined there))
  subst same
  have label : (r.scopes base).whole.label ref = a.name.label ref.label :=
    congrArg (·.label ref.label) (Scope.aliasOf_eq joined.keys_nodup there)
  rw [← aliases] at ha
  refine ⟨a, f, located, ha, entity, ?_, ?_, ?_⟩
  · exact (Scope.aliasOf?_eq_some_iff joined.keys_nodup).mpr ⟨f, there⟩
  · rw [label, Alias.splitOnce_label]
  · rw [label, Plan.route_label (List.mem_map_of_mem ha)]

end

end Settings

theorem Query.Reached.labels_decode {s : Settings} {q next : Query} {compiled : Compiled}
    {declarations : List Declaration} (declared : Schema.ofDeclarations declarations = .ok s.schema)
    (named : ∀ d ∈ declarations, d.Named) (reached : q.Reached s)
    (built : q.build s = (.ok compiled, next)) :
    (compiled.select.columns.map (·.label)).Nodup ∧
      (∀ row : Row, row.map Prod.fst = compiled.select.columns.map (·.label) →
        Keyed.ofPairs row = row) ∧
      ∃ base r, q.Resolves s base r ∧
        compiled.select.columns = (r.columns (r.scopes base)).map (r.scopes base).whole.column ∧
        ∀ ref ∈ r.columns (r.scopes base), ∃ a e,
          compiled.plan.Decodes s base (r.scopes base).whole ref a e := by
  obtain ⟨base, r, resolves, rfl, -⟩ := reached.assembled built
  have schema := Schema.named_ofDeclarations declared named
  have hb := mem_of_base? resolves.entity
  have resolved := Settings.check_ok resolves.resolution
  have labels := resolved.labels_nodup schema hb
  refine ⟨labels, fun row keys => ?_, base, r, resolves, rfl, fun ref hr => ?_⟩
  · exact Keyed.ofPairs_of_nodup (keys ▸ labels)
  · exact resolved.decodes schema hb rfl hr

theorem Query.Reached.labels_decode_buyers : ∃ compiled next base, ∃ r : Resolution,
    Sample.buyers.build Sample.shortened = (.ok compiled, next) ∧
      compiled.select.columns.map (·.label) = ["#0.id", "#1.customer"] ∧
      ∃ ref : Reference, ref.label = "customer" ∧ ref.column = "customer_id" ∧
        ∃ a e, compiled.plan.Decodes Sample.shortened base (r.scopes base).whole ref a e := by
  have named : ∀ d ∈ Sample.sales, d.Named := by
    unfold Declaration.Named
    decide
  have built : ∃ compiled next, Sample.buyers.build Sample.shortened = (.ok compiled, next) ∧
      compiled.select.columns.map (·.label) = ["#0.id", "#1.customer"] ∧
      ⟨⟨"#1", "customer_id"⟩, (⟨1⟩ : Alias).label "customer"⟩ ∈ compiled.select.columns :=
    ⟨_, _, rfl, rfl, by decide +kernel⟩
  obtain ⟨compiled, next, built, labels, listed⟩ := built
  obtain ⟨-, -, base, r, -, columns, decodes⟩ :=
    labels_decode Sample.shortened_declared named Sample.buyers_reached built
  rw [columns] at listed
  obtain ⟨ref, hr, same⟩ := List.mem_map.mp listed
  rw [Scope.column, Sql.LabelledColumn.mk.injEq, Sql.QualifiedColumn.mk.injEq] at same
  obtain ⟨⟨-, column⟩, label⟩ := same
  exact ⟨compiled, next, base, r, built, labels, ref, (Alias.label_injective label).2, column,
    decodes ref hr⟩

end RowGraph
