import RowGraph.Proofs.Decoding
import RowGraph.Proofs.Faults

/-!
# Faults that a validated schema rules out

In a schema that was validated, no field and no toMany path leads to an entity that is missing
(`Settings.finds_walk`, `Settings.finds_levels`), and what calls record is at most a source that is
set again (`Query.Sourced`). A child selects its foreign key under one label, whatever else it
selects (`Query.Anchored`); every key that is needed is found, and every child is in the mapping
plan (`Query.Covers`). So what stands against the build of a child are its source, if it was set
again, and faults of the clauses that were given (`Query.Reached.schema_holds`).
-/

namespace RowGraph

/-! ## Entities that are found -/

section finds

variable {α β : Type}

def Finds (result : Except Fault α) : Prop := ∀ entity, result ≠ .error (.unknownEntity entity)

def Checked.Finds (result : Checked α) : Prop := ∀ entity, .unknownEntity entity ∉ result.faults

theorem Finds.map {result : Except Fault α} (finds : Finds result) (f : α → β) :
    Finds (result.map f) := by
  intro entity failed
  cases result with
  | ok value => cases failed
  | error fault =>
      cases failed
      exact finds entity rfl

theorem Finds.ofExcept {result : Except Fault α} (finds : Finds result) :
    (Checked.ofExcept result).Finds := by
  intro entity mem
  cases result with
  | ok value => cases mem
  | error fault => exact finds entity (congrArg Except.error (List.mem_singleton.mp mem).symm)

theorem Checked.Finds.map {result : Checked α} (finds : result.Finds) (f : α → β) :
    Checked.Finds (result.map f) := by
  intro entity
  rw [Checked.faults_map]
  exact finds entity

theorem Checked.finds_all {results : List (Checked α)} (finds : ∀ result ∈ results, result.Finds) :
    (Checked.all results).Finds := by
  intro entity mem
  rw [Checked.faults_all] at mem
  obtain ⟨result, there, mem⟩ := List.mem_flatMap.mp mem
  exact finds result there entity mem

theorem Checked.faultless_all {results : List (Checked α)}
    (faultless : ∀ result ∈ results, result.faults = []) : (Checked.all results).faults = [] := by
  rw [Checked.faults_all, List.flatMap_eq_nil_iff]
  exact faultless

end finds

namespace Settings

variable {s : Settings} {base : Entity}

theorem exists_walkPath {e last : Entity} {parts : List String}
    (there : s.schema.entityAt? e parts = some last) (path : Path) :
    ∃ steps, s.walkPath e path parts = .ok steps := by
  induction parts generalizing e path with
  | nil => exact ⟨[], rfl⟩
  | cons part rest ih =>
      obtain ⟨boundKey, next, ⟨target, isBridge, found⟩, below⟩ :=
        Schema.exists_of_entityAt?_cons there
      obtain ⟨steps, walked⟩ := ih below (path.enter part)
      unfold walkPath
      rw [isBridge]
      simp only [found, Step.path, walked, Except.map]
      exact ⟨_, rfl⟩

section

variable (hs : s.schema.WellFormed)

include hs

theorem finds_walk {e : Entity} (he : e ∈ s.schema.entities) (place : Place) (field : String)
    (path : Path) (parts : List String) : Finds (s.walk place field e path parts) := by
  induction parts generalizing e path with
  | nil => exact fun _ => nofun
  | cons part rest ih =>
      unfold walk
      dsimp only
      split
      · split
        · simp [Finds]
        · split <;> simp [Finds]
      · split
        · split <;> simp [Finds]
        · next boundKey target isBridge =>
          -- The one place where the entity could be missing: the schema has the target.
          obtain ⟨-, next, found⟩ := hs.bridge e he _ _ _ isBridge
          rw [found]
          split
          · simp [Finds]
          · exact (ih (Schema.mem_of_entity? found) _).map _
        · split
          · simp [Finds]
          · split <;> simp [Finds]
        · split <;> simp [Finds]

variable (hb : base ∈ s.schema.entities)

include hb

theorem finds_item (place : Place) (fields : List String) (field : String) :
    Finds (s.item base place fields field) := by
  unfold item
  repeat' split
  · simp [Finds]
  · simp [Finds]
  · exact (finds_walk hs hb _ _ _ _).map _
  · exact (finds_walk hs hb _ _ _ _).map _

theorem finds_items (place : Place) (fields : List String) :
    (s.items base place fields).Finds := by
  apply Checked.finds_all
  intro result mem
  obtain ⟨field, -, rfl⟩ := List.mem_map.mp mem
  exact (finds_item hs hb place fields field).ofExcept

theorem finds_template (expression : String) : (s.template base expression).Finds := by
  apply Checked.finds_all
  intro result mem
  obtain ⟨segment, -, rfl⟩ := List.mem_map.mp mem
  cases segment with
  | literal => exact fun _ => List.not_mem_nil
  | reference field =>
      have finds := finds_item hs hb .expression [Text.trim field] (Text.trim field)
      exact (finds.map TemplatePart.field).ofExcept

theorem finds_template? (expression : Option String) : (s.template? base expression).Finds := by
  cases expression with
  | none => exact fun _ => List.not_mem_nil
  | some expression => exact (finds_template hs hb expression).map _

theorem finds_indexItem (index : Option Index) : (s.indexItem base index).Finds := by
  rcases index with _ | name | key
  · exact fun _ => List.not_mem_nil
  · exact (finds_items hs hb _ _).map _
  · exact fun _ => List.not_mem_nil

theorem finds_filter {bindings : List Binding} (bound : ∀ b ∈ bindings, b.check.Finds)
    (expression : String) : (s.filter base expression bindings).Finds := by
  have finds := finds_template hs hb expression
  intro entity
  rw [faults_filter]
  cases ht : s.template base expression with
  | error found =>
      rw [ht] at finds
      exact finds entity
  | ok template =>
      dsimp only
      split
      · simp
      · intro mem
        obtain ⟨b, there, mem⟩ := List.mem_flatMap.mp mem
        exact bound b there entity mem

theorem finds_filter? {bindings : List Binding} (bound : ∀ b ∈ bindings, b.check.Finds)
    (expression : Option String) : (s.filter? base bindings expression).Finds := by
  cases expression with
  | none => exact fun _ => List.not_mem_nil
  | some expression => exact (finds_filter hs hb bound expression).map _

theorem faults_relations {c : Clauses} {bindings : List Binding}
    (there : ∀ path ∈ c.relations, (s.schema.entityAt? base path.bridges).isSome) :
    (s.check base c bindings).relations.faults = [] := by
  apply Checked.faultless_all
  intro result walk
  obtain ⟨path, mem, rfl⟩ := List.mem_map.mp walk
  have named := Schema.filter_of_entityAt? hs.named hb (there path mem)
  obtain ⟨last, found⟩ := Option.isSome_iff_exists.mp (there path mem)
  obtain ⟨steps, walked⟩ := exists_walkPath found .root
  rw [named, walked]
  rfl

theorem items_forced {column : String} (isColumn : base.hasColumn column) :
    s.items base .select [column] =
      .ok [{ excluded := false, walk := ⟨[], .columns [.plain .root column]⟩ }] := by
  simp only [items, List.map_cons, List.map_nil, item_column hs hb isColumn]
  rfl

theorem faults_forced {c : Clauses} (columns : ∀ name ∈ c.forced, base.hasColumn name) :
    (s.items base .select c.forced).faults = [] := by
  apply Checked.faultless_all
  intro result item
  obtain ⟨name, mem, rfl⟩ := List.mem_map.mp item
  rw [item_column hs hb (columns name mem)]
  rfl

end

theorem faults_fields (s : Settings) (base : Entity) (c : Clauses) :
    (s.items base .select c.fields).faults = (s.items base .select c.listed).faults := by
  by_cases given : c.listed = []
  · rw [faults_fields_of_nil s base given, given, faults_items_nil]
  · rw [Clauses.fields_of_explicit (.inl given)]

def givenFaults (s : Settings) (base : Entity) (c : Clauses) (bindings : List Binding) :
    List Fault :=
  (s.indexItem base c.index).faults ++ (s.items base .select c.listed).faults ++
    c.expressions.flatMap (fun expression => (s.template base expression).faults) ++
    (s.filter? base bindings c.filter).faults ++ (s.template? base c.group).faults ++
    (s.template? base (c.having.map Prod.fst)).faults ++ (s.template? base c.order).faults

theorem faults_check_eq (hs : s.schema.WellFormed) (hb : base ∈ s.schema.entities) {c : Clauses}
    {bindings : List Binding} (columns : ∀ name ∈ c.forced, base.hasColumn name)
    (there : ∀ path ∈ c.relations, (s.schema.entityAt? base path.bridges).isSome) :
    (s.check base c bindings).faults = s.givenFaults base c bindings := by
  rw [faults_check, faults_relations hs hb there, faults_forced hs hb columns, faults_fields,
    givenFaults]
  simp only [List.nil_append, List.append_nil]

theorem finds_given (hs : s.schema.WellFormed) (hb : base ∈ s.schema.entities) {c : Clauses}
    {bindings : List Binding} (bound : ∀ b ∈ bindings, b.check.Finds) (entity : String) :
    .unknownEntity entity ∉ s.givenFaults base c bindings := by
  simp only [givenFaults, List.mem_append, not_or]
  refine ⟨⟨⟨⟨⟨⟨?_, ?_⟩, ?_⟩, ?_⟩, ?_⟩, ?_⟩, ?_⟩
  · exact finds_indexItem hs hb _ entity
  · exact finds_items hs hb _ _ entity
  · rw [List.mem_flatMap]
    rintro ⟨expression, -, mem⟩
    exact finds_template hs hb expression entity mem
  · exact finds_filter? hs hb bound _ entity
  all_goals exact finds_template? hs hb _ entity

theorem finds_levels (hs : s.schema.WellFormed) {e : Entity} (he : e ∈ s.schema.entities)
    (expression last : String) (owner : Path) (parts : List String) (entity : String) :
    (s.levels expression last e owner parts).2 ≠
      some (.resolution (.unknownEntity entity)) := by
  induction parts generalizing e owner with
  | nil => simp [levels]
  | cons part rest ih =>
      unfold levels
      split
      · simp
      · simp
      · next boundKey target isBridge =>
        obtain ⟨-, next, found⟩ := hs.bridge e he _ _ _ isBridge
        rw [found]
        exact ih (Schema.mem_of_entity? found) _
      · next target foreignKey isToMany =>
        obtain ⟨next, found, -⟩ := hs.toMany e he _ _ _ isToMany
        dsimp only
        split
        · simp
        · rw [found]
          exact ih (Schema.mem_of_entity? found) _

end Settings

namespace Query

variable {s : Settings} {q next : Query}

/-! ## Recorded faults -/

/-- A query of a known entity, and every child of it, has recorded no fault but that of a source
that is set again. -/
inductive Sourced (s : Schema) : Query → Prop where
  | intro {q : Query}
      (recorded : ∀ fault ∈ q.faults,
        fault = .sourceSetTwice ∨ q.clauses.source.isSome ∧ q.base? s = none)
      (children : ∀ entry ∈ q.children, Sourced s entry.2) : Sourced s q

namespace Sourced

theorem recorded (h : q.Sourced s.schema) {base : Entity} (hb : q.base? s.schema = some base) :
    ∀ fault ∈ q.faults, fault = .sourceSetTwice := by
  cases h with
  | intro recorded =>
      intro fault mem
      apply (recorded fault mem).resolve_right
      rintro ⟨-, none⟩
      rw [none] at hb
      cases hb

theorem child (h : q.Sourced s.schema) {mount : Mount} {child : Query}
    (found : q.children.lookup mount = some child) : child.Sourced s.schema := by
  cases h with
  | intro _ children => exact children _ (Keyed.mem_of_lookup found)

theorem congr {schema : Schema} (h : q.Sourced schema)
    (source : next.clauses.source = q.clauses.source) (faults : next.faults = q.faults)
    (children : next.children = q.children) : next.Sourced schema := by
  cases h with
  | intro recorded held =>
      refine .intro ?_ (by rwa [children])
      rw [faults, base?, source]
      exact recorded

theorem setSource {schema : Schema} (h : q.Sourced schema) (entity : String) :
    (q.setSource schema entity).Sourced schema := by
  cases h with
  | intro recorded children =>
      unfold Query.setSource
      split
      · refine .intro ?_ children
        intro fault mem
        rcases List.mem_append.mp mem with old | new
        · exact recorded fault old
        · exact .inl (List.mem_singleton.mp new)
      · next unset =>
        have old : ∀ fault ∈ q.faults, fault = .sourceSetTwice := fun fault mem =>
          (recorded fault mem).resolve_right fun ⟨set, _⟩ => unset set
        refine .intro ?_ children
        dsimp only
        split
        · exact fun fault mem => .inl (old fault mem)
        · next missing =>
          intro fault mem
          rcases List.mem_append.mp mem with mem | new
          · exact .inl (old fault mem)
          · exact .inr ⟨rfl, by simpa [base?, edit] using missing⟩

theorem newChild (schema : Schema) (target foreignKey : String) :
    (Query.newChild schema target foreignKey).Sourced schema := by
  have blank : ({} : Query).Sourced schema := .intro (by simp) (by simp)
  exact (blank.setSource target).congr rfl rfl rfl

theorem move {schema : Schema} (step : Move schema q next) (h : q.Sourced schema) :
    next.Sourced schema := by
  -- The base entity decides what may be recorded, so a change of a clause keeps the source.
  induction step with
  | edit change source => exact h.congr source rfl rfl
  | setSource entity => exact h.setSource entity
  | filter | listen | restrict | remember => exact h.congr rfl rfl rfl
  | openChild mount target foreignKey =>
      cases h with
      | intro recorded children =>
          refine .intro recorded ?_
          intro entry mem
          rcases Keyed.mem_putNew mem with old | rfl
          · exact children entry old
          · exact newChild schema target foreignKey
  | child found _ ih =>
      cases h with
      | intro recorded children =>
          have moved := ih (children _ (Keyed.mem_of_lookup found))
          refine .intro recorded ?_
          intro entry mem
          rcases Keyed.mem_modify mem with old | ⟨_, -, rfl⟩
          · exact children entry old
          · exact moved

end Sourced

theorem Reached.sourced (h : q.Reached s) : q.Sourced s.schema := by
  apply h.keeps
  · exact .intro (by simp) (by simp)
  · exact fun step sourced => sourced.move step
  · exact fun sourced found => sourced.child found

/-! ## Children -/

inductive Restricts (child : Query) : Query → Prop where
  | alone : Restricts child child
  | keys {link : Link} (linked : child.link = some link) (keys : List Value) :
      Restricts child (child.setOwnerKeys link keys)

/-- A child that stands where the schema has it: it selects from the target of its relation, its
foreign key is a column there, and it selects this column under one label. If it does not build, its
source was set again or a clause that it was given has a fault. -/
structure Anchored (s : Settings) (child : Query) (target : Entity) (foreignKey : String) :
    Prop where
  base : child.base? s.schema = some target
  serves : child.Serves target.name foreignKey
  isColumn : target.hasColumn foreignKey
  forced : s.items target .select child.clauses.forced =
    .ok [{ excluded := false, walk := ⟨[], .columns [.plain .root foreignKey]⟩ }]
  one : ∀ restricted compiled next, child.Restricts restricted →
    restricted.build s = (.ok compiled, next) →
      compiled.select.columns.filter (·.label = Alias.root.label foreignKey) =
        [⟨baseColumn foreignKey, Alias.root.label foreignKey⟩]
  recorded : ∀ fault ∈ child.faults, fault = .sourceSetTwice
  faults : ∀ restricted found next, child.Restricts restricted →
    restricted.build s = (.error found, next) → found ≠ [] ∧
      found = child.faults ++ s.givenFaults target child.clauses (child.bindings s)

theorem Restricts.evolves {child restricted : Query} (h : child.Restricts restricted) :
    restricted.clauses = child.clauses ∧ restricted.faults = child.faults ∧
      restricted.params = child.params := by
  cases h <;> exact ⟨rfl, rfl, rfl⟩

theorem Restricts.sound {child restricted : Query} (h : child.Restricts restricted)
    (sound : Sound s child) : Sound s restricted := by
  cases h with
  | alone => exact sound
  | keys linked keys => exact (sound.setOwnerKeys linked keys).1

theorem filter_label {columns : List Sql.LabelledColumn}
    (nodup : (columns.map (·.label)).Nodup) {column : Sql.LabelledColumn}
    (mem : column ∈ columns) : columns.filter (·.label = column.label) = [column] := by
  induction columns with
  | nil => cases mem
  | cons first rest ih =>
      rw [List.map_cons, List.nodup_cons] at nodup
      rcases List.mem_cons.mp mem with rfl | later
      · have others : ∀ other ∈ rest, ¬ other.label = column.label := by
          intro other among same
          exact nodup.1 (same ▸ List.mem_map_of_mem among)
        simpa [List.filter_eq_nil_iff] using others
      · have other : first.label ≠ column.label := by
          intro same
          exact nodup.1 (same ▸ List.mem_map_of_mem later)
        rw [List.filter_cons_of_neg (by simpa using other), ih nodup.2 later]

theorem Compiles.forced_once (hs : s.schema.WellFormed) {compiled : Compiled}
    (h : q.Compiles s compiled) {base : Entity} (hb : q.base? s.schema = some base)
    {column : String} (forced : q.clauses.forced = [column]) (isColumn : base.hasColumn column) :
    compiled.select.columns.filter (·.label = Alias.root.label column) =
      [⟨baseColumn column, Alias.root.label column⟩] := by
  obtain ⟨found, r, resolves, -, rfl⟩ := h
  obtain rfl : found = base := Option.some.inj (resolves.entity.symm.trans hb)
  have there := mem_of_base? hb
  have resolved := Settings.check_ok resolves.resolution
  have joined := resolved.joined hs.named there
  have items : r.forced =
      [{ excluded := false, walk := ⟨[], .columns [.plain .root column]⟩ }] := by
    have parts := resolves.resolution
    rw [Checks.resolution_eq_ok_iff, Settings.check, Checks.mk.injEq, forced,
      Settings.items_forced hs there isColumn] at parts
    exact (Except.ok.inj parts.1).symm
  have selects : Reference.plain .root column ∈ selected r.forced := by
    rw [items, mem_selected]
    exact ⟨⟨_, List.mem_singleton_self _, rfl, List.mem_singleton_self _⟩, by simp⟩
  have listed : Reference.plain .root column ∈ r.columns (r.scopes found) := by
    rw [Resolution.columns, Keyed.mem_distinct, Resolution.requested]
    simp only [List.mem_append, selects, or_true, true_or]
  have root : (r.scopes found).whole.aliasOf .root = .root :=
    Scope.aliasOf_eq joined.keys_nodup joined.root_mem
  have placed : (r.scopes found).whole.column (.plain .root column) =
      ⟨baseColumn column, Alias.root.label column⟩ := by
    rw [Scope.column, Scope.label, Reference.plain, root]
    rfl
  exact filter_label (resolved.labels_nodup hs.named there) (List.mem_map.mpr ⟨_, listed, placed⟩)

theorem Tied.faults_eq (hs : s.schema.WellFormed) (tied : q.Tied s.schema) {base : Entity}
    (hb : q.base? s.schema = some base) {found : List Fault}
    (failed : q.build s = (.error found, next)) : found ≠ [] ∧
      found = q.faults ++ s.givenFaults base q.clauses (q.bindings s) := by
  have told := telling_build s q
  rw [failed] at told
  refine ⟨fun none => told (congrArg _ none), ?_⟩
  cases memo : q.compiled with
  | some compiled =>
      rw [Query.build, memo] at failed
      cases failed
  | none =>
      have faults := faults_build hb memo
      rwa [failed, Settings.faults_check_eq hs (mem_of_base? hb) (tied.hasColumn hb)
        (tied.entityAt? hb)] at faults

theorem Reached.anchored (hs : s.schema.WellFormed) (reached : q.Reached s) {base : Entity}
    (hb : q.base? s.schema = some base) {mount : Mount} {child : Query}
    (found : q.children.lookup mount = some child) : ∃ target foreignKey,
      s.schema.Mounts base mount target.name foreignKey ∧ child.Anchored s target foreignKey := by
  obtain ⟨name, foreignKey, mounts, serves⟩ :=
    (reached.sound.tied hs.named).child hb (Keyed.mem_of_lookup found)
  obtain ⟨target, known, isColumn⟩ := mounts.hasColumn hs.named (mem_of_base? hb)
  obtain rfl : target.name = name := by simpa using List.find?_some known
  have sound := reached.sound.child (Keyed.mem_of_lookup found)
  have base : child.base? s.schema = some target := serves.base?.trans known
  refine ⟨target, foreignKey, mounts, base, serves, isColumn, ?_, ?_, ?_, ?_⟩
  · rw [serves.forced]
    exact Settings.items_forced hs (mem_of_base? base) isColumn
  · intro restricted compiled next restricts built
    obtain ⟨clauses, -, -⟩ := restricts.evolves
    obtain ⟨-, frames, compiles⟩ := (restricts.sound sound).build
    rw [built] at frames compiles
    apply (compiles compiled rfl).forced_once hs _ _ isColumn
    · rw [base?, frames.clauses, clauses]
      exact base
    · rw [frames.clauses, clauses]
      exact serves.forced
  · exact (reached.sourced.child found).recorded base
  · intro restricted faults next restricts failed
    obtain ⟨clauses, recorded, params⟩ := restricts.evolves
    have there : restricted.base? s.schema = some target := by
      rw [base?, clauses]
      exact base
    have same := ((restricts.sound sound).tied hs.named).faults_eq hs there failed
    rwa [clauses, recorded, bindings_eq, params, ← bindings_eq] at same

/-! ## Keys and plans -/

/-- A compiled query leaves nothing out: each key that is needed is that of a table, which has an
alias and selects the key, and each child has its place in the plan. -/
structure Covers (s : Settings) (base : Entity) (r : Resolution) (compiled : Compiled)
    (next : Query) : Prop where
  keys : (r.scopes base).neededKeys.map Reference.path = (r.scopes base).shown.keys
  selected : ∀ path ∈ (r.scopes base).shown.keys, ∃ name e,
    (r.scopes base).whole.table? name = some (path, e) ∧
      s.schema.entityAt? base path.bridges = some e ∧
      compiled.select.SelectsKey s.config name e.primaryKey
  mounts : compiled.plan.mounts.map MountPlan.mount = next.children.map Prod.fst

end Query

theorem filterMap_fit {α β : Type} {f : α → Option β} {g : β → α} {items : List α}
    (fit : ∀ a ∈ items, (f a).map g = some a) : (items.filterMap f).map g = items := by
  rw [List.map_filterMap, List.filterMap_congr fit, List.filterMap_some]

theorem Scope.map_mountPlan? {scope : Scope} (paths : (scope.tables.map Prod.fst).Nodup)
    {mount : Mount} (known : mount.owner ∈ scope.tables.map Prod.fst) :
    (scope.mountPlan? mount).map MountPlan.mount = some mount := by
  obtain ⟨e, table⟩ := Scope.exists_table? paths known
  have plan : scope.mountPlan? mount =
      some ⟨mount, scope.aliasOf mount.owner, e.primaryKey⟩ := by
    rw [Scope.mountPlan?_iff paths]
    exact ⟨e, table, rfl, rfl⟩
  rw [plan]
  rfl

namespace Settings.Resolved

variable {s : Settings} {base : Entity} {c : Clauses} {bindings : List Binding} {r : Resolution}
  (hs : s.schema.WellFormed) (hb : base ∈ s.schema.entities)
  (resolved : s.Resolved base c bindings r) (forced : ∀ name ∈ c.forced, base.hasColumn name)
  (relations : ∀ path ∈ c.relations, (s.schema.entityAt? base path.bridges).isSome)

include hs hb resolved forced relations

theorem exists_neededKey {path : Path} (key : path ∈ (r.scopes base).shown.keys) :
    ∃ e, s.schema.entityAt? base path.bridges = some e ∧
      .plain path e.primaryKey ∈ (r.scopes base).neededKeys := by
  have needs := (resolved.mem_keys hs hb forced relations).mp key
  have there : (s.schema.entityAt? base path.bridges).isSome := by
    rcases needs with shows | ⟨root, -⟩
    · exact shows.2.1
    · rw [root]
      rfl
  obtain ⟨e, found⟩ := Option.isSome_iff_exists.mp there
  exact ⟨e, found, (resolved.mem_neededKeys hs hb forced relations).mpr ⟨needs, e, found, rfl⟩⟩

theorem paths_neededKeys :
    (r.scopes base).neededKeys.map Reference.path = (r.scopes base).shown.keys := by
  apply filterMap_fit
  intro path key
  obtain ⟨e, -, there⟩ := resolved.exists_neededKey hs hb forced relations key
  have known := Scopes.mem_tables_of_neededKeys there
  obtain ⟨f, found⟩ := Option.isSome_iff_exists.mp (Keyed.lookup_isSome_iff_mem.mpr known)
  rw [show (r.scopes base).shown.tables.lookup path = some f from found]
  rfl

theorem key_selected {path : Path} (key : path ∈ (r.scopes base).shown.keys) (clauses : Clauses)
    (link : Option Link) : ∃ name e, (r.scopes base).whole.table? name = some (path, e) ∧
      s.schema.entityAt? base path.bridges = some e ∧
      (r.statement s base (r.scopes base) clauses link).SelectsKey s.config name e.primaryKey := by
  obtain ⟨e, found, there⟩ := resolved.exists_neededKey hs hb forced relations key
  have joined := resolved.joined hs.named hb
  have grown := Scope.tables_prefix_addAll (r.scopes base).shown r.otherNeeds
  have known := (grown.map Prod.fst).subset (Scopes.mem_tables_of_neededKeys there)
  obtain ⟨f, table⟩ := Scope.exists_table? joined.keys_nodup known
  have same := found.symm.trans (Scope.entityAt?_of_table? joined table)
  obtain rfl : e = f := Option.some.inj same
  exact ⟨_, e, table, found,
    Resolution.selectsKey resolved.spells (r.backed base).2 table there clauses link⟩

end Settings.Resolved

namespace Query

variable {s : Settings} {q next : Query}

theorem Reached.covers (hs : s.schema.WellFormed) (reached : q.Reached s) {compiled : Compiled}
    (built : q.build s = (.ok compiled, next)) :
    ∃ base r, q.Resolves s base r ∧ Covers s base r compiled next := by
  obtain ⟨base, r, resolves, same, mounts⟩ := reached.assembled built
  have owners := reached.owner_known hs.named built resolves
  subst same
  have tied := reached.sound.tied hs.named
  have hb := mem_of_base? resolves.entity
  have forced := tied.hasColumn resolves.entity
  have relations := tied.entityAt? resolves.entity
  have resolved := Settings.check_ok resolves.resolution
  refine ⟨base, r, resolves, resolved.paths_neededKeys hs hb forced relations, ?_, ?_⟩
  · intro path key
    exact resolved.key_selected hs hb forced relations key _ _
  · rw [mounts]
    apply filterMap_fit
    intro mount held
    rw [← mounts] at held
    apply Scope.map_mountPlan? (resolved.joined hs.named hb).keys_nodup
    exact ((r.hides_bare base).tables.map Prod.fst).subset (owners mount held)

/-! ## Queries of a validated schema -/

theorem Reached.finds_build (hs : s.schema.WellFormed) (reached : q.Reached s) {base : Entity}
    (hb : q.base? s.schema = some base) (alone : ∀ sub, .subquery sub ∉ q.params) :
    Checked.Finds (q.build s).1 := by
  have values : ∀ b ∈ q.bindings s, b.check.Finds := by
    rw [bindings_eq_map]
    intro b mem
    obtain ⟨param, given, rfl⟩ := List.mem_map.mp mem
    cases param with
    | value v => exact fun _ => List.not_mem_nil
    | subquery sub => exact absurd given (alone sub)
  intro entity mem
  cases built : q.build s with
  | mk result next =>
      rw [built] at mem
      cases result with
      | ok compiled => cases mem
      | error found =>
          obtain ⟨-, rfl⟩ := (reached.sound.tied hs.named).faults_eq hs hb built
          rcases List.mem_append.mp mem with recorded | given
          · cases reached.sourced.recorded hb _ recorded
          · exact Settings.finds_given hs (mem_of_base? hb) values entity given

theorem finds_toMany (hs : s.schema.WellFormed) {base : Entity}
    (hb : q.base? s.schema = some base) (path entity : String) :
    (q.toMany s path).1 ≠ .error (.resolution (.unknownEntity entity)) := by
  obtain ⟨source, named, known⟩ := Option.bind_eq_some_iff.mp hb
  have finds := Settings.finds_levels hs (mem_of_base? hb) path
    (((Text.split '.' path).map Text.trim).getLastD "") .root
    ((Text.split '.' path).map Text.trim) entity
  unfold toMany levels
  simp only [named, known]
  split
  · next failure failed =>
    intro same
    cases same
    exact finds failed
  · nofun

/-- What a validated schema rules out, for a query that calls lead to and for the children of it,
which calls lead to as well: no entity is missing, nothing is left out of a compiled form, and a
child stands where the schema has it. -/
theorem Reached.schema_holds {declarations : List Declaration}
    (declared : Schema.ofDeclarations declarations = .ok s.schema)
    (plain : ∀ d ∈ declarations, d.Plain) (reached : q.Reached s) {base : Entity}
    (hb : q.base? s.schema = some base) :
    ((∀ sub, .subquery sub ∉ q.params) → Checked.Finds (q.build s).1) ∧
    (∀ path entity, (q.toMany s path).1 ≠ .error (.resolution (.unknownEntity entity))) ∧
    (∀ compiled next, q.build s = (.ok compiled, next) →
      ∃ r, q.Resolves s base r ∧ Covers s base r compiled next) ∧
    ∀ mount child, q.children.lookup mount = some child → ∃ target foreignKey,
      s.schema.Mounts base mount target.name foreignKey ∧
        child.Reached s ∧ child.Anchored s target foreignKey := by
  have hs := Schema.wellFormed_ofDeclarations declared plain
  refine ⟨reached.finds_build hs hb, finds_toMany hs hb, ?_, ?_⟩
  · intro compiled next built
    obtain ⟨found, r, resolves, covers⟩ := reached.covers hs built
    obtain rfl : found = base := Option.some.inj (resolves.entity.symm.trans hb)
    exact ⟨r, resolves, covers⟩
  · intro mount child found
    obtain ⟨target, foreignKey, mounts, anchored⟩ := reached.anchored hs hb found
    exact ⟨target, foreignKey, mounts, reached.child found, anchored⟩

end Query
namespace Sample

def reopened : Query :=
  (((({} : Query).setSource schema "Customer").select "name").toMany settings
    "orders").2.modifyChild ⟨.root, "orders"⟩ (·.setSource schema "Order")

theorem reopened_reached : reopened.Reached settings :=
  .call (.call (.call (.call .new (.setSource (s := settings) "Customer")) (.select "name"))
    (.toMany "orders")) (.child rfl (.setSource (s := settings) "Order"))

end Sample

theorem Query.Reached.schema_holds_history : ∃ base child compiled next,
    Sample.history.base? Sample.schema = some base ∧
      (∀ sub, .subquery sub ∉ Sample.history.params) ∧
      Checked.Finds (Sample.history.build Sample.settings).1 ∧
      Sample.history.children.lookup ⟨Path.root.enter "customer", "orders"⟩ = some child ∧
      child.build Sample.settings = (.ok compiled, next) ∧
      compiled.select.columns.filter (·.label = "#0.customerId") =
        [⟨baseColumn "customerId", "#0.customerId"⟩] := by
  have alone : ∀ sub, .subquery sub ∉ Sample.history.params := fun _ => List.not_mem_nil
  obtain ⟨finds, -, -, children⟩ := Reached.schema_holds (s := Sample.settings) Sample.declared
    Sample.plain Sample.history_reached rfl
  obtain ⟨target, foreignKey, -, -, anchored⟩ :=
    children ⟨Path.root.enter "customer", "orders"⟩ _ rfl
  obtain rfl : "customerId" = foreignKey := (List.cons.inj anchored.serves.forced).1
  exact ⟨_, _, _, _, rfl, alone, finds alone, rfl, rfl, anchored.one _ _ _ .alone rfl⟩

/-- A child that was given neither fields nor expressions does not build if its source is set. -/
theorem Query.Reached.child_resourced : ∃ child, Sample.reopened.Reached Sample.settings ∧
    Sample.reopened.children.lookup ⟨.root, "orders"⟩ = some child ∧
      child.clauses = { source := some "Order", forced := ["customerId"] } ∧ child.params = [] ∧
      (child.build Sample.settings).1 = .error [.sourceSetTwice] :=
  ⟨_, Sample.reopened_reached, rfl, rfl, rfl, rfl⟩

end RowGraph
