import RowGraph.Proofs.Labels
import RowGraph.Proofs.Memo
import RowGraph.Proofs.Rerun

/-!
# The graph and the other clauses

What is selected and how it becomes objects depends neither on the filter nor on how rows are grouped
and ordered: the tables that only those clauses refer to are joined after all others and become no
objects (`Query.Reached.graph_kept`). A collection whose owner has no table is the exception. It is
left out, and a filter that refers to the owner brings it back (`Query.Reached.filter_mounts`);
where every bridge has a name there is none.
-/

namespace RowGraph

namespace Scope

variable {scope more : Scope}

/-! ## Tables and their objects -/

theorem mem_tables_of_getElem? {path : Path} {e : Entity} {i : Nat}
    (h : scope.tables[i]? = some (path, e)) : path ∈ scope.tables.map Prod.fst :=
  List.mem_map_of_mem (List.mem_of_getElem? h)

theorem exists_table? (nodup : (scope.tables.map Prod.fst).Nodup) {path : Path}
    (known : path ∈ scope.tables.map Prod.fst) :
    ∃ e, scope.table? (scope.aliasOf path) = some (path, e) := by
  obtain ⟨⟨found, e⟩, hm, rfl⟩ := List.mem_map.mp known
  obtain ⟨i, hi⟩ := List.mem_iff_getElem?.mp hm
  rw [aliasOf_eq nodup hi]
  exact ⟨e, hi⟩

theorem mem_tables_addJoin (step : Step) :
    step.path ∈ (scope.addJoin step).tables.map Prod.fst := by
  rw [tables_addJoin, Keyed.keys_putNew]
  split <;> simp [*]

theorem mem_tables_addAll (nodup : (scope.tables.map Prod.fst).Nodup) {needs : List Need}
    {path : Path} (h : path ∈ scope.tables.map Prod.fst ∨
      ∃ need ∈ needs, ∃ step, need.step? = some step ∧ step.path = path) :
    path ∈ (scope.addAll needs).tables.map Prod.fst := by
  rw [paths_addAll nodup, Keyed.mem_distinct, List.mem_append]
  refine h.imp id fun ⟨need, hn, step, hs, hp⟩ => ?_
  exact List.mem_map.mpr ⟨step, List.mem_filterMap.mpr ⟨need, hn, hs⟩, hp⟩

structure Rooted (scope : Scope) : Prop where
  backed : scope.Backed
  first : ∃ e, scope.table? .root = some (.root, e)
  joined : ∀ path ∈ scope.tables.map Prod.fst, path = .root ∨ path ∈ scope.joins.map Prod.fst
  shown : .root ∈ scope.shown.map Prod.fst
  attached : ∀ entry ∈ scope.shown, entry.2.attachment.isSome ↔ entry.1 ≠ .root

theorem rooted_base (e : Entity) : (Scope.base e).Rooted where
  backed := backed_base e
  first := ⟨e, rfl⟩
  joined := by simp [Scope.base]
  shown := List.mem_cons_self ..
  attached := by simp [Scope.base]

namespace Rooted

theorem aliasOf_root (h : scope.Rooted) : scope.aliasOf .root = .root := by
  obtain ⟨e, he⟩ := h.first
  exact aliasOf_eq h.backed.paths he

theorem addKey (h : scope.Rooted) (path : Path) : (scope.addKey path).Rooted where
  backed := h.backed.addKey path
  first := by simpa [table?] using h.first
  joined := by simpa using h.joined
  shown := by simpa using h.shown
  attached := by simpa using h.attached

theorem addJoin (h : scope.Rooted) (step : Step) : (scope.addJoin step).Rooted where
  backed := h.backed.addJoin step
  first := by
    obtain ⟨e, he⟩ := h.first
    exact ⟨e, table?_of_prefix (tables_prefix_addAll scope [.join step false]) he⟩
  joined := by
    intro path known
    rw [tables_addJoin, Keyed.keys_putNew] at known
    have kept : path ∈ scope.joins.map Prod.fst →
        path ∈ (scope.addJoin step).joins.map Prod.fst := by
      intro hj
      rw [Scope.addJoin, Keyed.keys_putNew]
      split
      · exact hj
      · exact List.mem_append_left _ hj
    split at known
    · exact (h.joined path known).imp id kept
    · rcases List.mem_append.mp known with known | new
      · exact (h.joined path known).imp id kept
      · refine .inr ?_
        rw [List.mem_singleton.mp new, Scope.addJoin, Keyed.keys_putNew]
        split <;> simp [*]
  shown := h.shown
  attached := h.attached

theorem addShown (h : scope.Rooted) {step : Step} (there : step.path ∈ scope.tables.map Prod.fst) :
    (scope.addShown step).Rooted where
  backed := h.backed.addShown there
  first := by simpa [table?] using h.first
  joined := by simpa using h.joined
  shown := by
    rw [Scope.addShown, shown_addKey, Keyed.keys_putNew]
    split
    · exact h.shown
    · exact List.mem_append_left _ h.shown
  attached := by
    intro entry he
    rw [Scope.addShown, shown_addKey] at he
    by_cases held : scope.aliasOf step.path ∈ scope.shown.map Prod.fst
    · rw [Keyed.putNew_of_mem _ held] at he
      exact h.attached entry he
    · rcases Keyed.mem_putNew he with he | rfl
      · exact h.attached entry he
      · refine ⟨fun _ root => held ?_, fun _ => rfl⟩
        rw [show scope.aliasOf step.path = .root from root]
        exact h.shown

theorem add (h : scope.Rooted) (need : Need) : (scope.add need).Rooted := by
  rcases need with ⟨step, _ | _⟩ | path
  · exact h.addJoin step
  · exact (h.addJoin step).addShown (mem_tables_addJoin step)
  · exact h.addKey path

theorem addAll (h : scope.Rooted) (needs : List Need) : (scope.addAll needs).Rooted := by
  induction needs generalizing scope with
  | nil => exact h
  | cons need rest ih => exact ih (h.add need)

theorem table?_shown (h : scope.Rooted) {entry : Alias × Shown} (he : entry ∈ scope.shown) :
    ∃ table, scope.table? entry.1 = some table := by
  by_cases root : entry.1 = .root
  · obtain ⟨e, first⟩ := h.first
    exact ⟨_, root ▸ first⟩
  · obtain ⟨path, e, there, -⟩ := h.backed.needed entry he ((h.attached entry he).mpr root)
    exact ⟨_, there⟩

end Rooted

/-! ## Tables that become no objects -/

/-- A scope with more tables than another, whose joins follow and which become no objects. -/
structure Hides (scope more : Scope) : Prop where
  tables : scope.tables <+: more.tables
  shown : more.shown = scope.shown
  joins : ∃ extra, more.joins = scope.joins ++ extra ∧ ∀ entry ∈ extra,
    entry.2.name = .root ∨ scope.tables.length ≤ entry.2.name.index

theorem Hides.refl (scope : Scope) : scope.Hides scope :=
  ⟨List.prefix_refl _, rfl, [], by simp, by simp⟩

theorem Hides.trans {last : Scope} (h : scope.Hides more) (hl : more.Hides last) :
    scope.Hides last := by
  obtain ⟨extra, joins, apart⟩ := h.joins
  obtain ⟨rest, lastJoins, lastApart⟩ := hl.joins
  refine ⟨h.tables.trans hl.tables, hl.shown.trans h.shown, extra ++ rest, ?_, ?_⟩
  · rw [lastJoins, joins, List.append_assoc]
  · intro entry he
    rcases List.mem_append.mp he with he | he
    · exact apart entry he
    · exact (lastApart entry he).imp id h.tables.length_le.trans

theorem Rooted.hides_addJoin (h : scope.Rooted) (step : Step) :
    scope.Hides (scope.addJoin step) := by
  refine ⟨tables_prefix_addAll scope [.join step false], rfl, ?_⟩
  by_cases held : step.path ∈ scope.joins.map Prod.fst
  · exact ⟨[], by rw [Scope.addJoin, Keyed.putNew_of_mem _ held, List.append_nil], by simp⟩
  · refine ⟨_, by rw [Scope.addJoin, Keyed.putNew_of_not_mem _ held], ?_⟩
    intro entry he
    rw [List.mem_singleton.mp he]
    by_cases known : step.path ∈ scope.tables.map Prod.fst
    · have root : step.path = .root := (h.joined _ known).resolve_right held
      refine .inl ?_
      rw [Keyed.putNew_of_mem _ known]
      exact (congrArg scope.aliasOf root).trans h.aliasOf_root
    · refine .inr (le_of_eq ?_)
      have there : (scope.addJoin step).tables[scope.tables.length]? =
          some (step.path, step.target) := by
        rw [tables_addJoin, Keyed.putNew_of_not_mem _ known, List.getElem?_concat_length]
      exact (congrArg Alias.index (aliasOf_eq (h.addJoin step).backed.paths there)).symm

theorem Rooted.hides_addAll (h : scope.Rooted) {needs : List Need}
    (hidden : ∀ need ∈ needs, need.shownStep? = none) : scope.Hides (scope.addAll needs) := by
  induction needs generalizing scope with
  | nil => exact .refl scope
  | cons need rest ih =>
      rw [List.forall_mem_cons] at hidden
      refine Hides.trans ?_ (ih (h.add need) hidden.2)
      rcases need with ⟨step, _ | _⟩ | path
      · exact h.hides_addJoin step
      · simp [Need.shownStep?] at hidden
      · refine ⟨?_, shown_addKey path, [], ?_, by simp⟩
        · rw [Scope.add, tables_addKey]
        · rw [Scope.add, joins_addKey, List.append_nil]

namespace Hides

variable (h : scope.Hides more)

include h

theorem column {r : Reference} (known : r.path ∈ scope.tables.map Prod.fst) :
    more.column r = scope.column r := by
  simp only [Scope.column, Scope.label, aliasOf_grown h.tables known]

theorem aliasPlans (rooted : scope.Rooted) (keepKeys : Bool) (injected : List Reference) :
    more.aliasPlans keepKeys injected = scope.aliasPlans keepKeys injected := by
  rw [Scope.aliasPlans, Scope.aliasPlans, h.shown]
  refine List.filterMap_congr fun entry he => ?_
  obtain ⟨table, there⟩ := rooted.table?_shown he
  simp only [aliasPlan?, there, table?_of_prefix h.tables there]

variable (nodup : (more.tables.map Prod.fst).Nodup)

include nodup

theorem mountPlan? {mount : Mount} (known : mount.owner ∈ scope.tables.map Prod.fst) :
    more.mountPlan? mount = scope.mountPlan? mount := by
  have paths := nodup.sublist (h.tables.map Prod.fst).sublist
  obtain ⟨e, there⟩ := exists_table? paths known
  have found := (aliasOf?_eq_some_iff paths).mpr ⟨e, there⟩
  have kept := table?_of_prefix h.tables there
  have foundMore := (aliasOf?_eq_some_iff nodup).mpr ⟨e, kept⟩
  simp only [Scope.mountPlan?, found, foundMore, Option.bind_eq_bind, Option.bind_some, there, kept]

theorem mountPlan?_of_some {mount : Mount} {m : MountPlan} (hm : scope.mountPlan? mount = some m) :
    more.mountPlan? mount = some m := by
  rw [h.mountPlan? nodup ?_, hm]
  obtain ⟨owner, found, -⟩ := Option.bind_eq_some_iff.mp hm
  have paths := nodup.sublist (h.tables.map Prod.fst).sublist
  obtain ⟨e, there⟩ := (aliasOf?_eq_some_iff paths).mp found
  exact mem_tables_of_getElem? there

end Hides
end Scope

/-! ## Tables of what is selected -/

section

variable {s : Settings} {base : Entity} {c : Clauses} {bindings : List Binding} {r : Resolution}

theorem Settings.Follows.path_of_reference {place : Place} {field : String} {i : Item}
    (h : s.Follows base place field i) {ref : Reference} (hr : ref ∈ i.references) :
    ref.path = .root ∨ ∃ step ∈ i.walk.steps, step.path = ref.path := by
  obtain ⟨last, final, chain, reports⟩ := h.reports
  rw [(reports ref hr).1, ← chain.final_eq]
  cases found : i.walk.steps.getLast? with
  | none => exact .inl rfl
  | some step => exact .inr ⟨step, List.mem_of_getLast? found, rfl⟩

theorem Settings.Follows.mem_tables {place : Place} {field : String} {i : Item}
    (h : s.Follows base place field i) (plain : i.excluded = false) (shown : Bool)
    {scope : Scope} (rooted : scope.Rooted) {needs : List Need} (needed : i.needs shown ⊆ needs)
    {ref : Reference} (hr : ref ∈ i.references) :
    ref.path ∈ (scope.addAll needs).tables.map Prod.fst := by
  refine Scope.mem_tables_addAll rooted.backed.paths ((h.path_of_reference hr).imp ?_ ?_)
  · intro root
    obtain ⟨e, first⟩ := rooted.first
    rw [root]
    exact Scope.mem_tables_of_getElem? first
  · rintro ⟨step, hstep, path⟩
    refine ⟨.join step shown, needed ?_, step, rfl, path⟩
    have join : Need.join step shown ∈ i.walk.steps.map (Need.join · shown) :=
      List.mem_map_of_mem hstep
    rw [Item.needs, plain]
    cases i.hop? with
    | none => exact join
    | some hop => exact List.mem_append_left _ join

theorem Settings.Resolved.path_of_requested (resolved : s.Resolved base c bindings r)
    {ref : Reference} (hr : ref ∈ r.requested) :
    ref.path ∈ (r.scopes base).shown.tables.map Prod.fst := by
  obtain ⟨place, field, i, follows, plain, needed, hr⟩ := resolved.item_of_requested hr
  exact follows.mem_tables plain true (Scope.rooted_base base) needed hr

theorem Scopes.mem_tables_of_neededKeys {scopes : Scopes} {key : Reference}
    (h : key ∈ scopes.neededKeys) : key.path ∈ scopes.shown.tables.map Prod.fst := by
  obtain ⟨path, -, held⟩ := List.mem_filterMap.mp h
  obtain ⟨e, found, rfl⟩ := Option.map_eq_some_iff.mp held
  exact List.mem_map_of_mem (Keyed.mem_of_lookup found)

theorem Settings.Resolved.path_of_column (resolved : s.Resolved base c bindings r)
    {ref : Reference} (hr : ref ∈ r.columns (r.scopes base)) :
    ref.path ∈ (r.scopes base).shown.tables.map Prod.fst := by
  rw [Resolution.columns, Keyed.mem_distinct, List.mem_append] at hr
  rcases hr with hr | hr
  · exact resolved.path_of_requested hr
  · exact Scopes.mem_tables_of_neededKeys (List.mem_of_mem_filter hr)

theorem Settings.Fills.path_of_reference {expression : String} {t : Template}
    (h : s.Fills base expression t) {scope : Scope} (rooted : scope.Rooted) {needs : List Need}
    (needed : t.items.flatMap (·.needs false) ⊆ needs) :
    ∀ i ∈ t.items, ∀ ref ∈ i.references,
      ref.path ∈ (scope.addAll needs).tables.map Prod.fst := by
  intro i hi ref hr
  obtain ⟨part, hp, hpart⟩ := List.mem_filterMap.mp hi
  obtain ⟨segment, -, replaces⟩ := exists_of_forall₂ h hp
  cases replaces with
  | literal => cases hpart
  | reference follows =>
      cases hpart
      refine follows.mem_tables (follows.excluded_of_place (by decide)) false rooted
        (List.Subset.trans (fun need hn => ?_) needed) hr
      exact List.mem_flatMap.mpr ⟨i, hi, hn⟩

theorem Template.fill_congr {style : Sql.EscapeStyle} {aliasOf other : Path → Alias} {t : Template}
    (same : ∀ i ∈ t.items, ∀ ref ∈ i.references, aliasOf ref.path = other ref.path) :
    t.fill style aliasOf = t.fill style other := by
  refine congrArg String.join (List.map_congr_left fun part hp => ?_)
  cases part with
  | literal => rfl
  | field i =>
      refine congrArg String.join (List.map_congr_left fun ref hr => ?_)
      rw [Reference.quoted, Reference.quoted, same i (List.mem_filterMap.mpr ⟨_, hp, rfl⟩) ref hr]

end

/-! ## Compiled forms without the other clauses -/

def Resolution.bare (r : Resolution) : Resolution :=
  { r with filter := none, group := none, having := none, order := none }

namespace Resolution

variable (r : Resolution) (base : Entity)

theorem rooted_bare : (r.bare.scopes base).whole.Rooted :=
  ((Scope.rooted_base base).addAll _).addAll _

theorem hides_bare : (r.bare.scopes base).whole.Hides (r.scopes base).whole := by
  let rest := (r.filter.map (·.template)).toList ++ r.group.toList ++ r.having.toList ++ r.order.toList
  have whole : (r.scopes base).whole = (r.bare.scopes base).whole.addAll
      (rest.flatMap fun t => t.items.flatMap (·.needs false)) := by
    simp only [scopes, otherNeeds, templates, bare, Scope.addAll, rest, ← List.foldl_append,
      ← List.flatMap_append, Option.map_none, Option.toList_none, List.append_nil, List.append_assoc]
    rfl
  rw [whole]
  refine (r.rooted_bare base).hides_addAll fun need hn => ?_
  obtain ⟨t, -, hn⟩ := List.mem_flatMap.mp hn
  obtain ⟨i, -, hn⟩ := List.mem_flatMap.mp hn
  exact shownStep?_of_mem_needs hn

end Resolution

theorem Resolution.final_shown {s : Schema} {r : Resolution} {base last : Entity} {final : Path}
    {steps : List Step} (chain : s.Chain base .root steps last final)
    (needed : ∀ step ∈ steps, Need.join step true ∈ r.shownNeeds) :
    final ∈ (r.scopes base).shown.tables.map Prod.fst := by
  apply Scope.mem_tables_addAll (by simp [Scope.base])
  rw [← chain.final_eq]
  cases ends : steps.getLast? with
  | none => exact .inl (by simp [Scope.base])
  | some step =>
      exact .inr ⟨_, needed step (List.mem_of_getLast? ends), step, rfl, rfl⟩

theorem Settings.Resolved.owner_shown {s : Settings} {base : Entity} {c : Clauses}
    {bindings : List Binding} {r : Resolution} {mount : Mount} {target foreignKey : String}
    (resolved : s.Resolved base c bindings r) (hs : s.schema.Named) (hb : base ∈ s.schema.entities)
    (asks : c.Asks mount) (mounts : s.schema.Mounts base mount target foreignKey) :
    mount.owner ∈ (r.scopes base).shown.tables.map Prod.fst := by
  obtain ⟨owner, there, isToMany⟩ := mounts
  rcases asks with related | ⟨field, held, included, rest, -, through⟩
  · obtain ⟨steps, listed, reaches⟩ := exists_of_forall₂ resolved.relations.flip related
    have ends := Settings.Reaches.final hs hb reaches (by rw [there]; rfl)
    obtain ⟨last, final, chain, -⟩ := reaches
    rw [← ends, chain.final_eq]
    refine r.final_shown chain fun step hstep => List.mem_append_right _ ?_
    exact List.mem_flatMap.mpr ⟨steps, listed, mem_pathNeeds.mpr (.inl ⟨step, hstep, rfl⟩)⟩
  · have followed : ∃ i ∈ r.forced ++ r.fields, s.Follows base .select field i := by
      rcases List.mem_append.mp held with forced | listed
      · obtain ⟨i, hi, follows⟩ := exists_of_forall₂ resolved.forced.flip forced
        exact ⟨i, List.mem_append_left _ hi, follows⟩
      · obtain ⟨i, hi, follows⟩ :=
          exists_of_forall₂ resolved.fields.flip (c.listed_subset_fields listed)
        exact ⟨i, List.mem_append_right _ hi, follows⟩
    obtain ⟨i, hi, follows⟩ := followed
    obtain ⟨last, final, back, chain, path, ends⟩ := follows.walk
    rw [itemPath_of_not included, through] at path
    have bridges := chain.bridges_final hs hb
    rw [ends.bridges_eq chain path.symm there isToMany, Path.bridges_root, List.nil_append]
      at bridges
    obtain rfl := Path.ext bridges
    refine r.final_shown chain fun step hstep => ?_
    have need : Need.join step true ∈ i.needs true :=
      Item.mem_needs.mpr ⟨follows.excluded.trans included, .inl ⟨step, hstep, rfl⟩⟩
    simp only [Resolution.shownNeeds, List.mem_append, List.mem_flatMap]
    rcases List.mem_append.mp hi with forced | listed
    · exact .inl (.inl (.inl ⟨i, forced, need⟩))
    · exact .inl (.inr ⟨i, listed, need⟩)

theorem Resolution.indexTarget?_congr {r : Resolution} {scope more : Scope}
    (same : ∀ ref ∈ r.index.bind Item.reference?, more.label ref = scope.label ref)
    (index : Option Index) : r.indexTarget? more index = r.indexTarget? scope index := by
  cases index with
  | none => rfl
  | some target =>
      cases target with
      | computed => rfl
      | field =>
          exact Option.map_congr fun ref hr => congrArg IndexTarget.label (same ref hr)

/-- A compiled form that has what another has, but other conditions, groups and order of rows, and
perhaps more joins after its joins, which become no objects. -/
structure Compiled.Extends (c bare : Compiled) : Prop where
  select : c.select = { bare.select with
    joins := c.select.joins, conditions := c.select.conditions, group := c.select.group,
    having := c.select.having, order := c.select.order }
  joins : ∃ extra, c.select.joins = bare.select.joins ++ extra ∧
    ∀ join ∈ extra, ∀ a ∈ c.plan.aliases, a.attachment.isSome → a.name.token ≠ join.tableAlias
  counted : c.counted = bare.counted
  aliases : c.plan.aliases = bare.plan.aliases
  index : c.plan.index = bare.plan.index
  mounts : bare.plan.mounts.Sublist c.plan.mounts

theorem filterMap_sublist {α β : Type} {f g : α → Option β}
    (h : ∀ x y, f x = some y → g x = some y) (items : List α) :
    (items.filterMap f).Sublist (items.filterMap g) := by
  induction items with
  | nil => exact .slnil
  | cons x rest ih =>
      cases hf : f x with
      | none =>
          rw [List.filterMap_cons_none hf]
          cases hg : g x with
          | none => rwa [List.filterMap_cons_none hg]
          | some y => rw [List.filterMap_cons_some hg]; exact ih.cons y
      | some y =>
          rw [List.filterMap_cons_some hf, List.filterMap_cons_some (h x y hf)]
          exact ih.cons_cons y

namespace Query

variable {s : Settings} {q next : Query} {compiled : Compiled}

def restate (q : Query) (filter : Option String) (params : List (Param Query))
    (group : Option String) (having : Option (String × List Value)) (order : Option String) :
    Query :=
  { q.edit ({ · with filter, group, having, order }) with params }

def bare (q : Query) : Query := q.restate none [] none none none

section

variable {base : Entity} {r : Resolution}

theorem Resolves.bare (h : q.Resolves s base r) : q.bare.Resolves s base r.bare := by
  refine ⟨h.entity, ?_⟩
  have parts := h.resolution
  rw [Checks.resolution_eq_ok_iff] at parts ⊢
  simp only [Settings.check, Checks.mk.injEq] at parts ⊢
  obtain ⟨forced, index, fields, relations, expressions, -⟩ := parts
  exact ⟨forced, index, fields, relations, expressions, rfl, rfl, rfl, rfl⟩

theorem shown_subset_bare (r : Resolution) (base : Entity) :
    (r.scopes base).shown.tables.map Prod.fst ⊆
      (r.bare.scopes base).whole.tables.map Prod.fst := fun _ hp =>
  ((Scope.tables_prefix_addAll (r.bare.scopes base).shown r.bare.otherNeeds).map _).subset hp

theorem columns_bare {bindings : List Binding} (resolved : s.Resolved base q.clauses bindings r) :
    (r.columns (r.scopes base)).map (r.scopes base).whole.column =
      (r.columns (r.scopes base)).map (r.bare.scopes base).whole.column :=
  List.map_congr_left fun _ hr =>
    (r.hides_bare base).column (shown_subset_bare r base (resolved.path_of_column hr))

theorem expressions_bare {bindings : List Binding}
    (resolved : s.Resolved base q.clauses bindings r) :
    r.expressions.map ((r.scopes base).whole.fragment s.style []) =
      r.expressions.map ((r.bare.scopes base).whole.fragment s.style []) := by
  refine List.map_congr_left fun t ht => ?_
  obtain ⟨expression, -, fills⟩ := exists_of_forall₂ resolved.expressions ht
  have needed : t.items.flatMap (·.needs false) ⊆ r.bare.otherNeeds := fun need hn =>
    List.mem_flatMap.mpr ⟨t, by simp [Resolution.templates, Resolution.bare, ht], hn⟩
  have paths := fills.path_of_reference ((Scope.rooted_base base).addAll r.shownNeeds) needed
  rw [Scope.fragment, Scope.fragment, Template.fill_congr fun i hi ref hr =>
    Scope.aliasOf_grown (r.hides_bare base).tables (paths i hi ref hr)]

theorem aliases_bare (s : Settings) (q : Query) (r : Resolution) (base : Entity) :
    (q.assemble s base r).plan.aliases = (q.bare.assemble s base r.bare).plan.aliases :=
  (r.hides_bare base).aliasPlans (r.rooted_bare base) s.config.keepInjectedKeys
    (r.injected (r.scopes base))

theorem joins_bare (s : Settings) (q : Query) (r : Resolution) (base : Entity) :
    ∃ extra, (q.assemble s base r).select.joins =
        (q.bare.assemble s base r.bare).select.joins ++ extra ∧
      ∀ join ∈ extra, ∀ a ∈ (q.assemble s base r).plan.aliases, a.attachment.isSome →
        a.name.token ≠ join.tableAlias := by
  have rooted := r.rooted_bare base
  obtain ⟨extra, joins, apart⟩ := (r.hides_bare base).joins
  refine ⟨extra.map fun entry => entry.2.leftJoin, ?_, ?_⟩
  · simp only [assemble, Resolution.statement, joins, List.map_append]
  · intro join hj a ha attached same
    obtain ⟨entry, he, rfl⟩ := List.mem_map.mp hj
    have name : a.name = entry.2.name := Alias.token_injective same
    rw [aliases_bare] at ha
    obtain ⟨shown, path, e, hshown, there, -, -, attachment, -⟩ := Scope.mem_aliasPlans.mp ha
    have below := (rooted.attached _ hshown).mp (attachment ▸ attached)
    rcases apart entry he with root | beyond
    · exact below (name.trans root)
    · have within := (List.getElem?_eq_some_iff.mp there).1
      rw [name] at within
      omega

theorem assemble_extends {bindings : List Binding}
    (resolved : s.Resolved base q.clauses bindings r) :
    (q.assemble s base r).Extends (q.bare.assemble s base r.bare) := by
  have hides := r.hides_bare base
  have nodup := (r.backed base).2.paths
  refine ⟨?_, joins_bare s q r base, rfl, aliases_bare s q r base, ?_, ?_⟩
  · simp only [assemble, Resolution.statement, columns_bare resolved, expressions_bare resolved]
    rfl
  · refine Resolution.indexTarget?_congr (fun ref hr => ?_) q.clauses.index
    have requested : ref ∈ r.requested :=
      List.mem_append_right _ (Option.mem_toList.mpr hr)
    have known := shown_subset_bare r base (resolved.path_of_requested requested)
    rw [Scope.label, Scope.label, Scope.aliasOf_grown hides.tables known]
  · exact filterMap_sublist (fun mount m hm => hides.mountPlan?_of_some nodup hm) _

end

theorem built_of_fresh (fresh : q.compiled = none) (built : q.build s = (.ok compiled, next)) :
    ∃ base r, q.Resolves s base r ∧ q.faults = [] ∧
      compiled = (q.forward s.schema r).assemble s base r ∧
      next.children = (q.forward s.schema r).children := by
  rcases resolves_or_error s q with ⟨base, r, resolves, faultless⟩ | ⟨faults, fails⟩
  · have again := build_of_resolves fresh resolves faultless
    rw [built, Prod.mk.injEq, Except.ok.injEq] at again
    exact ⟨base, r, resolves, faultless, again.1, by rw [again.2]⟩
  · rw [build_of_error fresh fails] at built
    cases built

theorem Reached.assembled (reached : q.Reached s) (built : q.build s = (.ok compiled, next)) :
    ∃ base r, q.Resolves s base r ∧ compiled = (q.forward s.schema r).assemble s base r ∧
      next.children.map Prod.fst = (q.forward s.schema r).children.map Prod.fst := by
  cases memo : q.compiled with
  | none =>
      obtain ⟨base, r, resolves, -, same, children⟩ := built_of_fresh memo built
      exact ⟨base, r, resolves, same, by rw [children]⟩
  | some kept =>
      rw [Query.build, memo] at built
      cases built
      obtain ⟨base, r, resolves, there, same⟩ := reached.sound.memo memo
      have mounts := mounts_forward_of_mem s.schema there
      have frames := frames_forward s.schema r q
      refine ⟨base, r, resolves, ?_, mounts.symm⟩
      rw [same, assemble_congr frames.clauses frames.link mounts]

theorem mounts_forward_bare (s : Settings) (q : Query) (r : Resolution) :
    (q.bare.forward s.schema r.bare).children.map Prod.fst =
      (q.forward s.schema r).children.map Prod.fst :=
  (paired_forward (s := s) (a := q) (b := q.bare) (.refl (Twins.refl s) q.children) r).mounts

theorem mounts_bare {base : Entity} {r : Resolution}
    (known : ∀ mount ∈ (q.forward s.schema r).children.map Prod.fst,
      mount.owner ∈ (r.bare.scopes base).whole.tables.map Prod.fst) :
    ((q.forward s.schema r).assemble s base r).plan.mounts =
      ((q.bare.forward s.schema r.bare).assemble s base r.bare).plan.mounts := by
  simp only [assemble, Resolution.plan, mounts_forward_bare]
  exact List.filterMap_congr fun mount hm =>
    (r.hides_bare base).mountPlan? (r.backed base).2.paths (known mount hm)

theorem extends_bare {base : Entity} {r : Resolution} (resolves : q.Resolves s base r) :
    ((q.forward s.schema r).assemble s base r).Extends
      ((q.bare.forward s.schema r.bare).assemble s base r.bare) := by
  have frames := frames_forward s.schema r q
  have bareFrames := frames_forward s.schema r.bare q.bare
  have resolved := Settings.check_ok resolves.resolution
  rw [← frames.clauses] at resolved
  have clauses : (q.bare.forward s.schema r.bare).clauses =
      (q.forward s.schema r).bare.clauses := by
    rw [bareFrames.clauses, bare, bare, restate, restate, edit, edit, frames.clauses]
  have link : (q.bare.forward s.schema r.bare).link = (q.forward s.schema r).bare.link :=
    bareFrames.link.trans frames.link.symm
  rw [assemble_congr clauses link (mounts_forward_bare s q r)]
  exact assemble_extends resolved

theorem Reached.owner_known (hs : s.schema.Named) (reached : q.Reached s)
    (built : q.build s = (.ok compiled, next)) {base : Entity} {r : Resolution}
    (resolves : q.Resolves s base r) : ∀ mount ∈ next.children.map Prod.fst,
      mount.owner ∈ (r.bare.scopes base).whole.tables.map Prod.fst := by
  intro mount hm
  obtain ⟨sound, frames, -⟩ := reached.build built
  have tied := sound.tied hs
  have hbase : next.base? s.schema = some base := by
    rw [Query.base?, frames.clauses]
    exact resolves.entity
  have resolved := Settings.check_ok resolves.resolution
  rw [← frames.clauses] at resolved
  obtain ⟨target, foreignKey, mounts⟩ := tied.toMany hbase mount hm
  exact shown_subset_bare r base
    (resolved.owner_shown hs (mem_of_base? hbase) (tied.asked mount hm) mounts)

theorem Reached.graph_kept (reached : q.Reached s) (built : q.build s = (.ok compiled, next))
    {filter : Option String} {params : List (Param Query)} {group : Option String}
    {having : Option (String × List Value)} {order : Option String} {other : Compiled}
    {later : Query}
    (rebuilt : (q.restate filter params group having order).build s = (.ok other, later)) :
    ∃ bare alone, q.bare.build s = (.ok bare, alone) ∧ compiled.Extends bare ∧
      other.Extends bare ∧
      ∀ {declarations : List Declaration}, Schema.ofDeclarations declarations = .ok s.schema →
        (∀ d ∈ declarations, d.Named) →
          compiled.plan.mounts = bare.plan.mounts ∧ other.plan.mounts = bare.plan.mounts := by
  obtain ⟨base, r, resolves, rfl, mounts⟩ := reached.assembled built
  obtain ⟨base', t, restated, faultless, rfl, -⟩ := built_of_fresh rfl rebuilt
  obtain ⟨rfl, same⟩ := resolves.bare.unique restated.bare
  have alone := build_of_resolves rfl resolves.bare faultless
  have extended := extends_bare restated
  rw [← same] at extended
  refine ⟨_, _, alone, extends_bare resolves, extended, fun declared named => ?_⟩
  have known := reached.owner_known (Schema.named_ofDeclarations declared named) built resolves
  rw [mounts] at known
  have again : (q.forward s.schema r).children.map Prod.fst =
      ((q.restate filter params group having order).forward s.schema t).children.map Prod.fst := by
    rw [← mounts_forward_bare, same]
    exact mounts_forward_bare s (q.restate filter params group having order) t
  refine ⟨mounts_bare known, ?_⟩
  rw [again, same] at known
  rw [mounts_bare known, same]
  rfl

end Query

namespace Sample

def ids : Query := (({} : Query).setSource schema "Order").select "id"

theorem ids_reached : ids.Reached settings :=
  .call (.call .new (.setSource (s := settings) "Order")) (.select "id")

def named : Query :=
  ids.restate (some "\x7bcustomerId\x7d IN ?") [.subquery customers] none none
    (some "\x7bcustomer.name\x7d")

end Sample

theorem Query.Reached.graph_kept_ids : ∃ compiled next other later bare,
    Sample.ids.build Sample.settings = (.ok compiled, next) ∧
      Sample.named.build Sample.settings = (.ok other, later) ∧
      compiled.select.joins = [] ∧ other.select.joins.length = 1 ∧
      compiled.Extends bare ∧ other.Extends bare ∧
      compiled.plan.mounts = bare.plan.mounts ∧ other.plan.mounts = bare.plan.mounts := by
  have rebuilt : ∃ other later, Sample.named.build Sample.settings = (.ok other, later) ∧
      other.select.joins.length = 1 := ⟨_, _, rfl, rfl⟩
  obtain ⟨other, later, rebuilt, joins⟩ := rebuilt
  obtain ⟨bare, alone, -, extended, again, mounts⟩ :=
    Query.Reached.graph_kept (s := Sample.settings) Sample.ids_reached rfl rebuilt
  exact ⟨_, _, other, later, bare, rfl, rebuilt, rfl, joins, extended, again,
    mounts Sample.declared fun d held => (Sample.plain d held).named⟩

namespace Sample

/-- Parcels on their routes to depots. The bridge from a route to its depot has no name. -/
def parcels : List Declaration :=
  [{ name := "Parcel"
     parts := [.column "id", .column "routeId", .bridge "route" "routeId" "Route"] },
   { name := "Route"
     parts := [.column "id", .column "depotId", .bridge "" "depotId" "Depot"] },
   { name := "Depot", parts := [.column "id", .toMany "vans" "Van" "depotId"] },
   { name := "Van", parts := [.column "id", .column "depotId"] }]

def shipping : Settings where
  schema :=
    match Schema.ofDeclarations parcels with
    | .ok s => s
    | .error _ => { entities := [] }

def shipped : Query :=
  (((({} : Query).setSource shipping.schema "Parcel").select "id").toMany shipping "route..vans").2

theorem shipped_reached : shipped.Reached shipping :=
  .call (.call (.call .new (.setSource (s := shipping) "Parcel")) (.select "id")) (.toMany _)

end Sample

theorem Query.Reached.filter_mounts : ∃ compiled next other later,
    Schema.ofDeclarations Sample.parcels = .ok Sample.shipping.schema ∧
      Sample.shipped.Reached Sample.shipping ∧
      Sample.shipped.build Sample.shipping = (.ok compiled, next) ∧
      (Sample.shipped.filter "\x7broute..id\x7d = 2" []).build Sample.shipping = (.ok other, later) ∧
      compiled.plan.mounts = [] ∧ other.plan.mounts.length = 1 :=
  ⟨_, _, _, _, rfl, Sample.shipped_reached, rfl, rfl, rfl, rfl⟩

end RowGraph
