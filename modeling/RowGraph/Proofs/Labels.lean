import RowGraph.Proofs.Depiction

/-!
# Labels of keys

Every object but the root, and every collection, is found by a primary key that the statement
selects. Its label is made of the name of the key, unless a field asks for the key by a name that
the affix completes to it: then the label is made of that shorter name, and the mapping does not
find it (`Query.Reached.keys_selected`, `Query.Reached.keys_mislabelled`).
-/

namespace RowGraph

/-! ## Names of columns -/

/-- A name for a column: its own, or one that the affix completes to it. -/
def Config.Spells (config : Config) (name column : String) : Prop :=
  name = column ∨ config.affix.map (·.apply name) = some column

namespace Settings

variable {s : Settings} {base : Entity} {place : Place}

/-- A name that a column of an entity is reported under: its own, or one that is no property of the
entity and that the affix completes to it. -/
def Reports (s : Settings) (e : Entity) (name column : String) : Prop :=
  name = column ∨ e.property? name = none ∧ s.config.affix.map (·.apply name) = some column

theorem Reports.spells {e : Entity} {name column : String} (h : s.Reports e name column) :
    s.config.Spells name column :=
  h.imp_right And.right

theorem Ends.reports {e : Entity} {path : Path} {rest : List String} {goal : Goal}
    (h : s.Ends place e path rest goal) {references : List Reference}
    (hg : goal = .columns references) : ∀ ref ∈ references,
      ref.path = path ∧ ref.column ∈ e.columns ∧ s.Reports e ref.label ref.column := by
  intro ref hr
  cases h with
  | star =>
      cases hg
      obtain ⟨column, listed, rfl⟩ := List.mem_map.mp hr
      exact ⟨rfl, listed, .inl rfl⟩
  | column isColumn =>
      cases hg
      rw [List.mem_singleton.mp hr]
      exact ⟨rfl, Entity.mem_columns_of_property? isColumn, .inl rfl⟩
  | affix _ unknown affixed =>
      cases hg
      obtain ⟨made, isColumn⟩ := Option.filter_eq_some_iff.mp affixed
      rw [List.mem_singleton.mp hr]
      refine ⟨rfl, Entity.mem_columns_of_property? (Entity.hasColumn_iff.mp isColumn), ?_⟩
      dsimp only
      split
      · exact .inl rfl
      · exact .inr ⟨unknown, made⟩
  | toMany => cases hg

theorem Follows.reports {field : String} {i : Item} (h : s.Follows base place field i) :
    ∃ last final, s.schema.Chain base .root i.walk.steps last final ∧ ∀ ref ∈ i.references,
      ref.path = final ∧ ref.column ∈ last.columns ∧ s.Reports last ref.label ref.column := by
  obtain ⟨last, final, rest, chain, -, ends⟩ := h.walk
  refine ⟨last, final, chain, ?_⟩
  unfold Item.references
  split
  · next references hg => exact ends.reports hg
  · simp

theorem Resolved.item_of_requested {c : Clauses} {bindings : List Binding} {r : Resolution}
    (h : s.Resolved base c bindings r) {ref : Reference} (hr : ref ∈ r.requested) :
    ∃ place field i, s.Follows base place field i ∧ i.excluded = false ∧
      i.needs true ⊆ r.shownNeeds ∧ ref ∈ i.references := by
  have listed : ∀ {fields : List String} {items : List Item},
      List.Forall₂ (s.Follows base .select) fields items →
      items.flatMap (·.needs true) ⊆ r.shownNeeds → ref ∈ selected items →
      ∃ place field i, s.Follows base place field i ∧ i.excluded = false ∧
        i.needs true ⊆ r.shownNeeds ∧ ref ∈ i.references := by
    intro fields items follows needed hr
    obtain ⟨⟨i, hi, plain, hm⟩, -⟩ := mem_selected.mp hr
    obtain ⟨field, -, hf⟩ := exists_of_forall₂ follows hi
    refine ⟨_, field, i, hf, plain, List.Subset.trans (fun need hn => ?_) needed, hm⟩
    exact List.mem_flatMap.mpr ⟨i, hi, hn⟩
  rw [Resolution.requested, List.mem_append, List.mem_append] at hr
  rcases hr with (hr | hr) | hr
  · refine listed h.fields (fun need hn => ?_) hr
    simp only [Resolution.shownNeeds, List.mem_append]
    exact .inl (.inr hn)
  · refine listed h.forced (fun need hn => ?_) hr
    simp only [Resolution.shownNeeds, List.mem_append]
    exact .inl (.inl (.inl hn))
  · obtain ⟨i, hi, hm⟩ := Option.bind_eq_some_iff.mp (Option.mem_toList.mp hr)
    have hindex := h.index
    rw [hi] at hindex
    generalize c.index = index at hindex
    cases hindex with
    | field follows =>
        refine ⟨_, _, i, follows, follows.excluded_of_place (by decide), fun need hn => ?_,
          Item.mem_references_of_reference? hm⟩
        simp only [Resolution.shownNeeds, hi, List.mem_append]
        exact .inl (.inl (.inr (by simpa using hn)))

theorem Resolved.spells {c : Clauses} {bindings : List Binding} {r : Resolution}
    (h : s.Resolved base c bindings r) :
    ∀ ref ∈ r.requested, s.config.Spells ref.label ref.column := by
  intro ref hr
  obtain ⟨place, field, i, follows, -, -, hm⟩ := h.item_of_requested hr
  obtain ⟨last, final, -, reports⟩ := follows.reports
  exact (reports ref hm).2.2.spells

end Settings

/-! ## Objects and their keys -/

namespace Scope

variable {scope : Scope}

structure Backed (scope : Scope) : Prop where
  paths : (scope.tables.map Prod.fst).Nodup
  needed : ∀ entry ∈ scope.shown, entry.2.attachment.isSome →
    ∃ path e, scope.table? entry.1 = some (path, e) ∧ path ∈ scope.keys

theorem backed_base (e : Entity) : (Scope.base e).Backed :=
  ⟨by simp [Scope.base], by simp [Scope.base]⟩

theorem nodup_addJoin (h : (scope.tables.map Prod.fst).Nodup) (step : Step) :
    ((scope.addJoin step).tables.map Prod.fst).Nodup := by
  rw [tables_addJoin, Keyed.keys_putNew]
  split
  · exact h
  · next new =>
    rw [← List.concat_eq_append, List.nodup_concat]
    exact ⟨new, h⟩

theorem table?_of_prefix {more : Scope} (h : scope.tables <+: more.tables) {name : Alias}
    {entry : Path × Entity} (ht : scope.table? name = some entry) :
    more.table? name = some entry := by
  obtain ⟨rest, hr⟩ := h
  rw [table?, ← hr, List.getElem?_append_left (List.getElem?_eq_some_iff.mp ht).1]
  exact ht

namespace Backed

theorem addKey (h : scope.Backed) (path : Path) : (scope.addKey path).Backed := by
  refine ⟨by simpa using h.paths, fun entry he attached => ?_⟩
  rw [shown_addKey] at he
  obtain ⟨found, e, ht, hk⟩ := h.needed entry he attached
  exact ⟨found, e, by rw [table?, tables_addKey]; exact ht, mem_keys_addKey.mpr (.inl hk)⟩

theorem addJoin (h : scope.Backed) (step : Step) : (scope.addJoin step).Backed := by
  refine ⟨nodup_addJoin h.paths step, fun entry he attached => ?_⟩
  obtain ⟨path, e, ht, hk⟩ := h.needed entry he attached
  exact ⟨path, e, table?_of_prefix (tables_prefix_addAll scope [.join step false]) ht, hk⟩

theorem addShown (h : scope.Backed) {step : Step} (there : step.path ∈ scope.tables.map Prod.fst) :
    (scope.addShown step).Backed := by
  obtain ⟨⟨path, e⟩, hm, hp⟩ := List.mem_map.mp there
  obtain ⟨i, hi⟩ := List.mem_iff_getElem?.mp hm
  subst hp
  have name := aliasOf_eq h.paths hi
  refine ⟨by simpa using h.paths, fun entry he attached => ?_⟩
  have ht : ∀ name, (scope.addShown step).table? name = scope.table? name := by
    intro name
    rw [table?, tables_addShown]
    rfl
  rw [ht]
  rw [Scope.addShown, shown_addKey] at he
  rw [Scope.addShown]
  rcases Keyed.mem_putNew he with hold | rfl
  · obtain ⟨path, e, ht, hk⟩ := h.needed entry hold attached
    exact ⟨path, e, ht, mem_keys_addKey.mpr (.inl hk)⟩
  · exact ⟨step.path, e, by rw [name]; exact hi, mem_keys_addKey.mpr (.inr rfl)⟩

theorem addAll (h : scope.Backed) (needs : List Need) : (scope.addAll needs).Backed := by
  induction needs generalizing scope with
  | nil => exact h
  | cons need rest ih =>
      apply ih
      rcases need with ⟨step, _ | _⟩ | path
      · exact h.addJoin step
      · refine (h.addJoin step).addShown ?_
        rw [tables_addJoin, Keyed.keys_putNew]
        split <;> simp [*]
      · exact h.addKey path

end Backed

theorem shown_addAll_hidden {needs : List Need} (hidden : ∀ need ∈ needs, need.shownStep? = none) :
    (scope.addAll needs).shown = scope.shown := by
  induction needs generalizing scope with
  | nil => rfl
  | cons need rest ih =>
      rw [List.forall_mem_cons] at hidden
      refine (ih hidden.2).trans ?_
      rcases need with ⟨step, _ | _⟩ | path
      · rfl
      · simp [Need.shownStep?] at hidden
      · exact shown_addKey path

end Scope

/-! ## Selected keys -/

def Sql.Select.SelectsKey (config : Config) (select : Sql.Select) (name : Alias) (key : String) :
    Prop :=
  ∃ column ∈ select.columns, column.source = ⟨name.token, key⟩ ∧
    ∃ spelled, column.label = name.label spelled ∧ config.Spells spelled key

section

variable {s : Settings} {base : Entity} {r : Resolution}

theorem Resolution.exists_mem_columns
    (spells : ∀ ref ∈ r.requested, s.config.Spells ref.label ref.column) {scopes : Scopes}
    {key : Reference} (h : key ∈ scopes.neededKeys) : ∃ ref ∈ r.columns scopes,
      ref.path = key.path ∧ ref.column = key.column ∧ s.config.Spells ref.label ref.column := by
  by_cases asked : ∃ ref ∈ r.requested, ref.sameColumn key
  · obtain ⟨ref, hr, same⟩ := asked
    obtain ⟨hpath, hcolumn⟩ := Bool.and_eq_true_iff.mp same
    refine ⟨ref, ?_, of_decide_eq_true hpath, of_decide_eq_true hcolumn, spells ref hr⟩
    rw [Resolution.columns, Keyed.mem_distinct]
    exact List.mem_append_left _ hr
  · refine ⟨key, ?_, rfl, rfl, .inl ?_⟩
    · rw [Resolution.columns, Keyed.mem_distinct, List.mem_append, Resolution.injected,
        List.mem_filter]
      exact .inr ⟨h, by simpa using asked⟩
    · rw [Scopes.plain_of_mem_neededKeys h]
      rfl

theorem Resolution.selectsKey
    (spells : ∀ ref ∈ r.requested, s.config.Spells ref.label ref.column)
    (backed : (r.scopes base).whole.Backed) {name : Alias} {path : Path} {e : Entity}
    (there : (r.scopes base).whole.table? name = some (path, e))
    (needed : .plain path e.primaryKey ∈ (r.scopes base).neededKeys) (c : Clauses)
    (link : Option Link) :
    (r.statement s base (r.scopes base) c link).SelectsKey s.config name e.primaryKey := by
  obtain ⟨ref, hr, hpath, hcolumn, hspells⟩ := exists_mem_columns spells needed
  have found : (r.scopes base).whole.aliasOf ref.path = name := by
    rw [hpath]
    exact Scope.aliasOf_eq backed.paths there
  have key : ref.column = e.primaryKey := hcolumn
  refine ⟨(r.scopes base).whole.column ref, List.mem_map_of_mem hr, ?_, ref.label, ?_, ?_⟩
  · rw [Scope.column, found, key]
  · rw [Scope.column, Scope.label, found]
  · rw [← key]
    exact hspells

theorem Resolution.backed (r : Resolution) (base : Entity) :
    (r.scopes base).shown.Backed ∧ (r.scopes base).whole.Backed := by
  have shown := (Scope.backed_base base).addAll r.shownNeeds
  exact ⟨shown, shown.addAll r.otherNeeds⟩

theorem Resolution.shown_whole (r : Resolution) (base : Entity) :
    (r.scopes base).whole.shown = (r.scopes base).shown.shown :=
  Scope.shown_addAll_hidden fun _ => shownStep?_of_mem_otherNeeds

theorem Resolution.needed_of_shown {entry : Alias × Shown}
    (he : entry ∈ (r.scopes base).whole.shown) (attached : entry.2.attachment.isSome) :
    ∃ path e, (r.scopes base).whole.table? entry.1 = some (path, e) ∧
      .plain path e.primaryKey ∈ (r.scopes base).neededKeys := by
  rw [r.shown_whole] at he
  obtain ⟨path, e, ht, hk⟩ := (r.backed base).1.needed entry he attached
  have grown := Scope.tables_prefix_addAll (r.scopes base).shown r.otherNeeds
  refine ⟨path, e, Scope.table?_of_prefix grown ht, List.mem_filterMap.mpr ⟨path, hk, ?_⟩⟩
  rw [Keyed.lookup_of_mem (r.backed base).1.paths (List.mem_of_getElem? ht)]
  rfl

end

namespace Query

variable {s : Settings} {q next : Query} {compiled : Compiled}

theorem Compiles.objects_keyed (h : q.Compiles s compiled) : ∀ a ∈ compiled.plan.aliases,
    a.attachment.isSome → compiled.select.SelectsKey s.config a.name a.primaryKey := by
  obtain ⟨base, r, -, -, resolved, rfl⟩ := h.resolved
  intro a ha attached
  obtain ⟨⟨name, shown⟩, he, hplan⟩ := List.mem_filterMap.mp ha
  obtain ⟨⟨path, e⟩, ht, rfl⟩ := Option.map_eq_some_iff.mp hplan
  obtain ⟨found, f, hf, needed⟩ := Resolution.needed_of_shown he attached
  rw [ht, Option.some.injEq, Prod.mk.injEq] at hf
  obtain ⟨rfl, rfl⟩ := hf
  exact Resolution.selectsKey resolved.spells (r.backed base).2 ht needed q.clauses q.link

theorem Compiles.collections_keyed (hs : s.schema.WellFormed) (tied : q.Tied s.schema)
    (h : q.Compiles s compiled) : ∀ m ∈ compiled.plan.mounts,
      compiled.select.SelectsKey s.config m.owner m.ownerKey := by
  obtain ⟨base, r, hbase, hb, resolved, rfl⟩ := h.resolved
  intro m hm
  obtain ⟨mount, hmount, hplan⟩ := List.mem_filterMap.mp hm
  have joined := resolved.joined hs.named hb
  obtain ⟨e, ht, rfl, hkey⟩ := (Scope.mountPlan?_eq_some_iff joined).mp hplan
  obtain ⟨target, foreignKey, mounts⟩ := tied.toMany hbase _ hmount
  have needs := (tied.asked _ hmount).needsKey hs hb (tied.hasColumn hbase) mounts
  have needed := (resolved.mem_neededKeys hs hb (tied.hasColumn hbase) (tied.entityAt? hbase)).mpr
    ⟨needs, e, joined.entityAt? (List.mem_of_getElem? ht), rfl⟩
  rw [hkey]
  exact Resolution.selectsKey resolved.spells (r.backed base).2 ht needed q.clauses q.link

/-- The key of each object below the root, and that of each owner of a collection, is selected under
a name for it. -/
theorem Reached.keys_selected (reached : q.Reached s) (built : q.build s = (.ok compiled, next)) :
    (∀ a ∈ compiled.plan.aliases, a.attachment.isSome →
      compiled.select.SelectsKey s.config a.name a.primaryKey) ∧
    ∀ {declarations : List Declaration}, Schema.ofDeclarations declarations = .ok s.schema →
      (∀ d ∈ declarations, d.Plain) → ∀ m ∈ compiled.plan.mounts,
        compiled.select.SelectsKey s.config m.owner m.ownerKey := by
  obtain ⟨sound, -, compiles⟩ := reached.build built
  refine ⟨compiles.objects_keyed, fun declared plain => ?_⟩
  have hs := Schema.wellFormed_ofDeclarations declared plain
  exact compiles.collections_keyed hs (sound.tied hs.named)

end Query

theorem Sql.Select.SelectsKey.label_mem {config : Config} {select : Sql.Select} {name : Alias}
    {key : String} (h : select.SelectsKey config name key) (affix : config.affix = none) :
    name.label key ∈ select.columns.map (·.label) := by
  obtain ⟨column, hc, -, spelled, label, same | affixed⟩ := h
  · rw [← same, ← label]
    exact List.mem_map_of_mem hc
  · simp [affix] at affixed

theorem Query.Reached.keys_selected_history : ∃ compiled next,
    Sample.history.build Sample.settings = (.ok compiled, next) ∧
      (∀ a ∈ compiled.plan.aliases, a.attachment.isSome →
        a.name.label a.primaryKey ∈ compiled.select.columns.map (·.label)) ∧
      compiled.plan.mounts ≠ [] ∧
      ∀ m ∈ compiled.plan.mounts,
        m.owner.label m.ownerKey ∈ compiled.select.columns.map (·.label) := by
  obtain ⟨compiled, next, built, mounts⟩ : ∃ compiled next,
      Sample.history.build Sample.settings = (.ok compiled, next) ∧ compiled.plan.mounts ≠ [] :=
    ⟨_, _, rfl, List.cons_ne_nil _ _⟩
  obtain ⟨objects, collections⟩ := Reached.keys_selected Sample.history_reached built
  refine ⟨compiled, next, built, fun a ha attached => ?_, mounts, fun m hm => ?_⟩
  · exact (objects a ha attached).label_mem rfl
  · exact (collections Sample.declared Sample.plain m hm).label_mem rfl

namespace Sample

def sales : List Declaration :=
  [{ name := "Sale"
     parts := [.column "id", .column "customer_id", .bridge "buyer" "customer_id" "Customer"] },
   { name := "Customer"
     parts := [.primaryKey "customer_id", .column "customer_id", .column "name"] }]

def shortened : Settings :=
  { schema := match Schema.ofDeclarations sales with
      | .ok s => s
      | .error _ => { entities := [] }
    config := { affix := some { text := "_id", side := .trailing } } }

def buyers : Query := (({} : Query).setSource shortened.schema "Sale").select "id, buyer.customer"

theorem shortened_declared : Schema.ofDeclarations sales = .ok shortened.schema := rfl

theorem buyers_reached : buyers.Reached shortened :=
  .call (.call .new (.setSource (s := shortened) "Sale")) (.select _)

end Sample

theorem Query.Reached.keys_mislabelled : ∃ compiled next,
    Schema.ofDeclarations Sample.sales = .ok Sample.shortened.schema ∧
      Sample.buyers.Reached Sample.shortened ∧
      Sample.buyers.build Sample.shortened = (.ok compiled, next) ∧
      (∃ a ∈ compiled.plan.aliases, a.attachment.isSome ∧
        a.name.label a.primaryKey ∉ compiled.select.columns.map (·.label)) ∧
      (compiled.plan.mapRow [] [("#0.id", .ofInt64 1), ("#1.customer", .ofInt64 7)]).1.get? "buyer" =
        some .null := by
  refine ⟨_, _, Sample.shortened_declared, Sample.buyers_reached, rfl, ?_, rfl⟩
  exact ⟨_, List.mem_cons_of_mem _ (List.mem_cons_self ..), rfl, by decide +kernel⟩

end RowGraph
