import RowGraph.Proofs.Plans
import RowGraph.Proofs.Shown

/-!
# Rows as objects

The object of a row can be described by paths alone, without aliases and labels
(`Query.Depicts`): at every path it holds the columns requested there, an object or null under
each bridge that the clauses go along, and the toMany properties. Mapping a row by the plan of a
built query gives this object (`Query.Reached.mapRow_depicts`).
-/

namespace RowGraph

/-- The columns that the object at a path holds: those requested, and its primary key if it is
needed and stays. -/
inductive Clauses.Holds (s : Settings) (base : Entity) (c : Clauses) : List String → String → Prop where
  | requested {path : List String} {column label : String}
      (h : c.Requests s base path column label) : Holds s base c path column
  | key {path : List String} {e : Entity} (needed : c.NeedsKey s.schema base path)
      (there : s.schema.entityAt? base path = some e)
      (stays : path = [] ∨ s.config.keepInjectedKeys = true) : Holds s base c path e.primaryKey

def Sql.Select.Reads (select : Sql.Select) (paths : List (List String)) (row : Row)
    (path : List String) (column : String) (value : Value) : Prop :=
  ∃ selected ∈ select.columns, TokenOf paths path selected.source.qualifier ∧
    selected.source.column = column ∧ row.lookup selected.label = some value

def Sql.Select.Labels (select : Sql.Select) (paths : List (List String)) (path : List String)
    (column label : String) : Prop :=
  ∃ selected ∈ select.columns, TokenOf paths path selected.source.qualifier ∧
    selected.source.column = column ∧ selected.label = label

theorem Sql.Select.reads_iff {select : Sql.Select} {paths : List (List String)} {row : Row}
    {path : List String} {column : String} {value : Value} :
    select.Reads paths row path column value ↔
      ∃ label, select.Labels paths path column label ∧ row.lookup label = some value := by
  constructor
  · rintro ⟨selected, hm, token, source, hvalue⟩
    exact ⟨_, ⟨selected, hm, token, source, rfl⟩, hvalue⟩
  · rintro ⟨_, ⟨selected, hm, token, source, rfl⟩, hvalue⟩
    exact ⟨selected, hm, token, source, hvalue⟩

namespace Query

/-- The object at a path of a row. -/
inductive Depicts (s : Settings) (base : Entity) (c : Clauses) (mounts : List Mount)
    (select : Sql.Select) (groups : Groups) (row : Row) : List String → Object → Prop where
  | intro {path : List String} {e : Entity} {o : Object} (below : String → Object)
      (there : s.schema.entityAt? base path = some e) (entity : o.entity = e.name)
      (nodup : o.names.Nodup)
      (columns : ∀ column, c.Holds s base path column → ∃ value,
        select.Reads (c.joinPaths s.schema base) row path column value ∧
          o.get? column = some value)
      (bridges : ∀ bridge next, c.Shows s.schema base (path ++ [bridge]) →
        s.schema.entityAt? base (path ++ [bridge]) = some next → ∃ key,
          select.Reads (c.joinPaths s.schema base) row (path ++ [bridge]) next.primaryKey key ∧
            o.get? bridge = some (if key.isNull then .null else (below bridge).value))
      (members : ∀ mount ∈ mounts, mount.owner.bridges = path → ∃ key,
        select.Reads (c.joinPaths s.schema base) row path e.primaryKey key ∧
          o.get? mount.property = some (groups.of mount key))
      (only : ∀ name ∈ o.names, c.Holds s base path name ∨
        c.Shows s.schema base (path ++ [name]) ∨
        ∃ mount ∈ mounts, mount.owner.bridges = path ∧ mount.property = name)
      (objects : ∀ bridge, c.Shows s.schema base (path ++ [bridge]) →
        Depicts s base c mounts select groups row (path ++ [bridge]) (below bridge)) :
      Depicts s base c mounts select groups row path o

inductive KeyedBy (s : Settings) (base : Entity) (c : Clauses) (select : Sql.Select) (row : Row)
    (o : Object) : Option Value → Prop where
  | none (h : c.index = none) : KeyedBy s base c select row o none
  | field {name column label : String} {path : List String} {value : Value}
      (h : c.index = some (.field name))
      (points : s.Points base .index (fieldPath name) path column label)
      (reads : select.Reads (c.joinPaths s.schema base) row path column value) :
      KeyedBy s base c select row o (some value)
  | computed {key : Object → Value} (h : c.index = some (.computed key)) :
      KeyedBy s base c select row o (some (key o))

end Query

/-! ## Aliases of paths -/

def Resolution.aliases (s : Settings) (base : Entity) (r : Resolution) : List AliasPlan :=
  (r.scopes base).whole.aliasPlans s.config.keepInjectedKeys (r.injected (r.scopes base))

namespace Settings.Resolved

variable {s : Settings} {base : Entity} {c : Clauses} {bindings : List Binding} {r : Resolution}
  (hs : s.schema.WellFormed) (hb : base ∈ s.schema.entities)
  (resolved : s.Resolved base c bindings r) (forced : ∀ name ∈ c.forced, base.hasColumn name)
  (relations : ∀ path ∈ c.relations, (s.schema.entityAt? base path.bridges).isSome)

include hs hb resolved

include forced relations

theorem displayed : Scope.Displayed base (r.scopes base).whole.tables (r.scopes base).whole.shown := by
  obtain ⟨seen, -, whole, -⟩ := resolved.exhibits hs hb forced relations
  exact whole.displayed

theorem mem_aliases_iff {path : Path} : (path = .root ∨ c.Shows s.schema base path.bridges) ↔
    ∃ a ∈ r.aliases s base, ∃ e, (r.scopes base).whole.table? a.name = some (path, e) := by
  obtain ⟨seen, -, whole, hseen⟩ := resolved.exhibits hs hb forced relations
  rw [← hseen]
  exact whole.seen_iff (resolved.joined hs.named hb)

theorem name_of_head? {root : AliasPlan} (h : root ∈ (r.aliases s base).head?) :
    root.name = .root := by
  have displayed := resolved.displayed hs hb forced relations
  obtain ⟨rest, hshown, -⟩ := displayed.eq_cons
  have names : (r.aliases s base).map (·.name) = (r.scopes base).whole.shown.map Prod.fst :=
    Scope.names_aliasPlans (resolved.joined hs.named hb) displayed
  have head := congrArg List.head? names
  rw [List.head?_map, show (r.aliases s base).head? = some root from h, hshown] at head
  simpa using head

theorem tokenOf_iff {name : Alias} {path : Path} {e : Entity} {token : String}
    (ht : (r.scopes base).whole.table? name = some (path, e)) :
    TokenOf (c.joinPaths s.schema base) path.bridges token ↔ token = name.token := by
  have tables := resolved.tables_whole hs hb forced relations
  have bridges : Function.Injective Path.bridges := fun _ _ h => Path.ext h
  have nodup : ([] :: c.joinPaths s.schema base).Nodup := by
    have := (resolved.joined hs.named hb).keys_nodup.map bridges
    rw [List.map_map] at this
    exact tables ▸ this
  have here : ([] :: c.joinPaths s.schema base)[name.index]? = some path.bridges := by
    rw [← tables, List.getElem?_map, show (r.scopes base).whole.tables[name.index]? = _ from ht]
    rfl
  constructor
  · rintro ⟨k, hk, rfl⟩
    have hlt := (List.getElem?_eq_some_iff.mp hk).1
    rw [(List.getElem?_inj hlt nodup).mp (hk.trans here.symm)]
  · rintro rfl
    exact ⟨name.index, here, rfl⟩

/-! ## Rows -/

variable (affix : s.config.affix = none)

include affix

theorem label_of_column {ref : Reference} (h : ref ∈ r.columns (r.scopes base)) :
    ∃ a ∈ r.aliases s base, ∃ e, (r.scopes base).whole.table? a.name = some (ref.path, e) ∧
      (r.scopes base).whole.column ref =
        { source := ⟨a.name.token, ref.column⟩, label := a.name.label ref.column } := by
  have plain := resolved.plain_of_mem_columns affix hs hb forced h
  generalize ref.path = path at plain ⊢
  generalize ref.column = column at plain ⊢
  subst plain
  have shown : path = .root ∨ c.Shows s.schema base path.bridges := by
    rw [Path.eq_root_iff]
    rcases (resolved.selects_iff affix hs hb forced relations).mp h with ⟨_, requests⟩ | ⟨needed, -⟩
    · exact requests.shows
    · rcases needed with hshown | ⟨hroot, -⟩
      · exact .inr hshown
      · exact .inl hroot
  obtain ⟨a, ha, e, ht⟩ := (resolved.mem_aliases_iff hs hb forced relations).mp shown
  refine ⟨a, ha, e, ht, ?_⟩
  have name := Scope.aliasOf_eq (resolved.joined hs.named hb).keys_nodup ht
  simp only [Scope.column, Scope.label, Reference.plain, name]

theorem labels_iff {name : Alias} {path : Path} {e : Entity} {column label : String}
    (ht : (r.scopes base).whole.table? name = some (path, e)) {select : Sql.Select}
    (columns : select.columns = (r.columns (r.scopes base)).map (r.scopes base).whole.column) :
    select.Labels (c.joinPaths s.schema base) path.bridges column label ↔
      Reference.plain path column ∈ r.columns (r.scopes base) ∧ label = name.label column := by
  constructor
  · rintro ⟨selected, hm, hname, rfl, rfl⟩
    rw [columns] at hm
    obtain ⟨ref, href, rfl⟩ := List.mem_map.mp hm
    obtain ⟨a, -, f, hta, hcolumn⟩ := resolved.label_of_column hs hb forced relations affix href
    rw [hcolumn] at hname ⊢
    rw [resolved.tokenOf_iff hs hb forced relations ht] at hname
    have same := Alias.token_injective hname
    rw [same, ht, Option.some.injEq, Prod.mk.injEq] at hta
    refine ⟨?_, by rw [same]⟩
    rw [hta.1, ← resolved.plain_of_mem_columns affix hs hb forced href]
    exact href
  · rintro ⟨href, rfl⟩
    obtain ⟨a, -, f, hta, hcolumn⟩ := resolved.label_of_column hs hb forced relations affix href
    have hname := (Scope.table?_inj (resolved.joined hs.named hb) hta ht).1
    refine ⟨_, columns ▸ List.mem_map_of_mem href, ?_, ?_, ?_⟩
    · rw [hcolumn, resolved.tokenOf_iff hs hb forced relations ht, hname]
    · rw [hcolumn]
      rfl
    · rw [hcolumn, hname]
      rfl

theorem indexTarget?_of_field {name : String} (hc : c.index = some (.field name)) {select : Sql.Select}
    (columns : select.columns = (r.columns (r.scopes base)).map (r.scopes base).whole.column) :
    ∃ path column found label, s.Points base .index (fieldPath name) path column found ∧
      select.Labels (c.joinPaths s.schema base) path column label ∧
      r.indexTarget? (r.scopes base).whole c.index = some (.label label) := by
  have hindex := resolved.index
  have member := fun ref => @mem_index_iff s base c.index r.index hs hb hindex ref
  have reference : ∃ ref, r.index.bind Item.reference? = some ref := by
    rw [hc] at hindex
    generalize r.index = item at hindex
    cases hindex with
    | field follows =>
        obtain ⟨ref, href⟩ := follows.reference (by decide)
        exact ⟨ref, by simp [Item.reference?, href]⟩
  obtain ⟨ref, href⟩ := reference
  obtain ⟨found, hfound, points⟩ := (member ref).mp href
  rw [hc, Option.some.injEq, Index.field.injEq] at hfound
  subst hfound
  have hmem : ref ∈ r.columns (r.scopes base) := by
    rw [Resolution.columns, Keyed.mem_distinct, Resolution.requested, href]
    simp
  obtain ⟨a, ha, e, ht, hcolumn⟩ := resolved.label_of_column hs hb forced relations affix hmem
  refine ⟨_, _, _, a.name.label ref.column, points, ?_, ?_⟩
  · apply (resolved.labels_iff hs hb forced relations affix ht columns).mpr
    refine ⟨?_, rfl⟩
    rw [← resolved.plain_of_mem_columns affix hs hb forced hmem]
    exact hmem
  · have label : (r.scopes base).whole.label ref = a.name.label ref.column :=
      congrArg Sql.LabelledColumn.label hcolumn
    rw [hc, Resolution.indexTarget?, href, Option.map_some, label]

variable {row : Row}
  (labels : (row.map Prod.fst).Perm ((r.columns (r.scopes base)).map (r.scopes base).whole.label))

include labels

theorem mem_labels_iff {name : Alias} {path : Path} {e : Entity} {column : String}
    (ht : (r.scopes base).whole.table? name = some (path, e)) :
    name.label column ∈ row.map Prod.fst ↔
      Reference.plain path column ∈ r.columns (r.scopes base) := by
  have joined := resolved.joined hs.named hb
  rw [labels.mem_iff, List.mem_map]
  constructor
  · rintro ⟨ref, href, hlabel⟩
    obtain ⟨a, -, f, hta, hcolumn⟩ := resolved.label_of_column hs hb forced relations affix href
    have same : a.name.label ref.column = name.label column := by
      rw [← hlabel]
      exact (congrArg Sql.LabelledColumn.label hcolumn).symm
    obtain ⟨hname, rfl⟩ := Alias.label_injective same
    rw [hname, ht, Option.some.injEq, Prod.mk.injEq] at hta
    rw [hta.1, ← resolved.plain_of_mem_columns affix hs hb forced href]
    exact href
  · intro href
    obtain ⟨a, -, f, hta, hcolumn⟩ := resolved.label_of_column hs hb forced relations affix href
    refine ⟨_, href, ?_⟩
    rw [← (Scope.table?_inj joined hta ht).1]
    exact congrArg Sql.LabelledColumn.label hcolumn

theorem carries (index : Option Index) (mounts : List Mount) :
    (r.plan s (r.scopes base) index mounts).Carries row := by
  have joined := resolved.joined hs.named hb
  have label := fun ref => @label_of_column s base c bindings r hs hb resolved forced relations affix ref
  constructor
  · rw [labels.nodup_iff]
    refine List.Nodup.map_on (fun x hx y hy heq => ?_) (Keyed.nodup_distinct _)
    obtain ⟨a, -, e, hta, hx'⟩ := label x hx
    obtain ⟨b, -, f, htb, hy'⟩ := label y hy
    have same : a.name.label x.column = b.name.label y.column := by
      have := (congrArg Sql.LabelledColumn.label hx').symm.trans heq
      exact this.trans (congrArg Sql.LabelledColumn.label hy')
    obtain ⟨hname, hcolumn⟩ := Alias.label_injective same
    rw [hname, htb, Option.some.injEq, Prod.mk.injEq] at hta
    rw [resolved.plain_of_mem_columns affix hs hb forced hx,
      resolved.plain_of_mem_columns affix hs hb forced hy, hta.1, hcolumn]
  · intro text ht
    rw [labels.mem_iff, List.mem_map] at ht
    obtain ⟨ref, href, rfl⟩ := ht
    obtain ⟨a, ha, -, -, hcolumn⟩ := label ref href
    refine ⟨a.name, List.mem_map_of_mem ha, ref.column, ?_⟩
    exact congrArg Sql.LabelledColumn.label hcolumn

theorem reads_iff {name : Alias} {path : Path} {e : Entity} {column : String} {value : Value}
    (ht : (r.scopes base).whole.table? name = some (path, e)) {select : Sql.Select}
    (columns : select.columns = (r.columns (r.scopes base)).map (r.scopes base).whole.column) :
    select.Reads (c.joinPaths s.schema base) row path.bridges column value ↔
      row.lookup (name.label column) = some value := by
  rw [Sql.Select.reads_iff]
  constructor
  · rintro ⟨label, hlabel, hvalue⟩
    rwa [((resolved.labels_iff hs hb forced relations affix ht columns).mp hlabel).2] at hvalue
  · intro hvalue
    have there : name.label column ∈ row.map Prod.fst := by
      rw [← Keyed.lookup_isSome_iff_mem, hvalue]
      rfl
    have href := (resolved.mem_labels_iff hs hb forced relations affix labels ht).mp there
    exact ⟨_, (resolved.labels_iff hs hb forced relations affix ht columns).mpr ⟨href, rfl⟩, hvalue⟩

/-! ## Objects of rows -/

omit affix labels in
theorem strips_iff {a : AliasPlan} (ha : a ∈ r.aliases s base) {path : Path} {e : Entity}
    (ht : (r.scopes base).whole.table? a.name = some (path, e)) :
    a.stripKey = true ↔ path ≠ .root ∧ s.config.keepInjectedKeys = false ∧
      ¬ ∃ label, c.Requests s base path.bridges e.primaryKey label := by
  have joined := resolved.joined hs.named hb
  have hat := Scope.entityAt?_of_table? joined ht
  rw [Scope.stripKey_iff joined (resolved.displayed hs hb forced relations) ha ht]
  refine and_congr_right fun hroot => and_congr_right fun _ => ?_
  have injected := @injected_iff s base c bindings r hs hb resolved forced relations path e.primaryKey
  have needed : c.NeedsKey s.schema base path.bridges := by
    have := (resolved.mem_aliases_iff hs hb forced relations).mpr ⟨a, ha, e, ht⟩
    exact .inl (this.resolve_left hroot)
  constructor
  · rintro ⟨ref, href, rfl⟩
    rw [Scopes.plain_of_mem_neededKeys (List.mem_of_mem_filter href),
      resolved.injected_iff hs hb forced relations] at href
    obtain ⟨⟨-, f, hf, hcolumn⟩, unrequested⟩ := href
    rw [hat, Option.some.injEq] at hf
    rwa [hcolumn, ← hf] at unrequested
  · intro unrequested
    exact ⟨_, injected.mpr ⟨⟨needed, e, hat, rfl⟩, unrequested⟩, rfl⟩

omit labels in
theorem holds_iff {a : AliasPlan} (ha : a ∈ r.aliases s base) {path : Path} {e : Entity}
    (ht : (r.scopes base).whole.table? a.name = some (path, e)) {column : String} :
    c.Holds s base path.bridges column ↔
      Reference.plain path column ∈ r.columns (r.scopes base) ∧
        ¬ (a.stripKey = true ∧ column = e.primaryKey) := by
  have hat := Scope.entityAt?_of_table? (resolved.joined hs.named hb) ht
  rw [resolved.selects_iff affix hs hb forced relations, resolved.strips_iff hs hb forced relations ha ht]
  constructor
  · intro h
    generalize hbridges : path.bridges = bridges at h
    cases h with
    | requested requests =>
        refine ⟨.inl ⟨_, requests⟩, ?_⟩
        rintro ⟨⟨-, -, unrequested⟩, rfl⟩
        exact unrequested ⟨_, requests⟩
    | key needed there stays =>
        refine ⟨.inr ⟨needed, _, there, rfl⟩, ?_⟩
        rintro ⟨⟨hroot, unkept, -⟩, -⟩
        rcases stays with hnil | kept
        · exact hroot (Path.eq_root_iff.mpr (hbridges.trans hnil))
        · simp [kept] at unkept
  · rintro ⟨⟨label, requests⟩ | ⟨needed, f, hf, rfl⟩, kept⟩
    · exact .requested requests
    · by_cases requests : ∃ label, c.Requests s base path.bridges f.primaryKey label
      · exact .requested requests.choose_spec
      · refine .key needed hf ?_
        rw [hat, Option.some.injEq] at hf
        subst hf
        by_contra hnot
        rw [not_or, ← Path.eq_root_iff, Bool.not_eq_true] at hnot
        exact kept ⟨⟨hnot.1, hnot.2, requests⟩, rfl⟩

omit labels in
theorem hasColumn_of_mem {path : Path} {e : Entity} {column : String}
    (hat : s.schema.entityAt? base path.bridges = some e)
    (h : Reference.plain path column ∈ r.columns (r.scopes base)) : e.hasColumn column := by
  rcases (resolved.selects_iff affix hs hb forced relations).mp h with ⟨_, requests⟩ | ⟨-, f, hf, rfl⟩
  · exact requests.hasColumn forced hat
  · rw [hat, Option.some.injEq] at hf
    exact hf ▸ hs.primaryKey e (Schema.entityAt?_mem hb hat)

variable {mounts : List Mount} (nodup : mounts.Nodup)
  (toMany : ∀ mount ∈ mounts, ∃ target foreignKey, s.schema.Mounts base mount target foreignKey)
  (asked : ∀ mount ∈ mounts, c.Asks mount) (index : Option Index)

include nodup toMany

omit affix labels in
theorem orderly : (r.plan s (r.scopes base) index mounts).Orderly :=
  Scope.orderly_plan (resolved.joined hs.named hb) (resolved.displayed hs hb forced relations)
    nodup toMany _

omit affix labels nodup in
theorem column_apart {name : Alias} {path : Path} {e : Entity} {column : String}
    (ht : (r.scopes base).whole.table? name = some (path, e)) (hc : e.hasColumn column) :
    (∀ m ∈ (r.plan s (r.scopes base) index mounts).mounts, m.owner = name →
      m.mount.property ≠ column) ∧
    ∀ b ∈ r.aliases s base, b.attachment ≠ some ⟨name, column⟩ := by
  have joined := resolved.joined hs.named hb
  have displayed := resolved.displayed hs hb forced relations
  have hat := Scope.entityAt?_of_table? joined ht
  rw [Entity.hasColumn_iff] at hc
  constructor
  · rintro m hm rfl rfl
    obtain ⟨mount, hmount, hplan⟩ := List.mem_filterMap.mp hm
    obtain ⟨f, htm, rfl, -⟩ := (Scope.mountPlan?_eq_some_iff joined).mp hplan
    obtain ⟨target, foreignKey, owner, howner, hp⟩ := toMany _ hmount
    rw [ht, Option.some.injEq, Prod.mk.injEq] at htm
    rw [← htm.1, hat, Option.some.injEq] at howner
    rw [← howner, hc] at hp
    cases hp
  · intro b hb' hattached
    obtain ⟨other, f, htb, -⟩ := Scope.aliasPlans_entry joined displayed hb'
    have hpath := (Scope.attachment_iff joined displayed ht hb' htb column).mp hattached
    have hf := Scope.entityAt?_of_table? joined htb
    rw [hpath, Schema.entityAt?_concat_eq_some_iff] at hf
    obtain ⟨owner, boundKey, howner, target, hp, -⟩ := hf
    rw [hat, Option.some.injEq] at howner
    rw [← howner, hc] at hp
    cases hp

omit affix labels nodup toMany in
theorem exists_attached {a : AliasPlan} {path : Path} {e : Entity}
    (ht : (r.scopes base).whole.table? a.name = some (path, e)) {bridge : String}
    (h : c.Shows s.schema base (path.bridges ++ [bridge])) :
    ∃ b ∈ r.aliases s base, ∃ next f, b.attachment = some ⟨a.name, bridge⟩ ∧
      (r.scopes base).whole.table? b.name = some (next, f) ∧
      next.bridges = path.bridges ++ [bridge] := by
  have there : ({ bridges := path.bridges ++ [bridge] } : Path) = .root ∨
      c.Shows s.schema base (path.bridges ++ [bridge]) := .inr h
  obtain ⟨b, hmem, f, htb⟩ := (resolved.mem_aliases_iff hs hb forced relations).mp there
  have attached := Scope.attachment_iff (resolved.joined hs.named hb)
    (resolved.displayed hs hb forced relations) ht hmem htb bridge
  exact ⟨b, hmem, _, f, attached.mpr rfl, htb, rfl⟩

omit affix labels nodup in
theorem get?_finish_of_apart {a : AliasPlan} {o : Object} (nodup : o.names.Nodup)
    (ha : a ∈ r.aliases s base) {path : Path} {e : Entity}
    (ht : (r.scopes base).whole.table? a.name = some (path, e)) {field : String}
    (h : (∃ m ∈ (r.plan s (r.scopes base) index mounts).mounts, m.owner = a.name ∧
        m.mount.property = field) ∨
      ∃ b ∈ r.aliases s base, b.attachment = some ⟨a.name, field⟩) :
    (a.finish o).get? field = o.get? field := by
  have joined := resolved.joined hs.named hb
  have isColumn := hs.primaryKey e (Schema.entityAt?_mem hb (Scope.entityAt?_of_table? joined ht))
  obtain ⟨apart, free⟩ := resolved.column_apart hs hb forced relations toMany index ht isColumn
  have hkey := (Scope.aliasPlans_at joined (resolved.displayed hs hb forced relations) ha ht).2
  rw [AliasPlan.get?_finish nodup, if_neg]
  rintro ⟨-, rfl⟩
  rw [hkey] at h
  rcases h with ⟨m, hm, howner, hprop⟩ | ⟨b, hmem, hattached⟩
  · exact apart m hm howner hprop
  · exact free b hmem hattached

omit affix labels nodup in
theorem get?_members {groups : Groups} {row : Row} {a : AliasPlan} {o : Object}
    (h : (r.plan s (r.scopes base) index mounts).Assembled groups row a o)
    (ha : a ∈ r.aliases s base) {mount : Mount} (hm : mount ∈ mounts) {e : Entity}
    (ht : (r.scopes base).whole.table? a.name = some (mount.owner, e)) :
    (a.finish o).get? mount.property =
      some (groups.of mount (row.cell (a.name.label e.primaryKey))) := by
  have member : (⟨mount, a.name, e.primaryKey⟩ : MountPlan) ∈
      (r.plan s (r.scopes base) index mounts).mounts :=
    List.mem_filterMap.mpr ⟨mount, hm,
      (Scope.mountPlan?_eq_some_iff (resolved.joined hs.named hb)).mpr ⟨e, ht, rfl, rfl⟩⟩
  cases h with
  | intro below entity names members attached cells assembled =>
      rw [resolved.get?_finish_of_apart hs hb forced relations toMany index names ha ht
        (.inl ⟨_, member, rfl, rfl⟩)]
      exact members _ member rfl

omit nodup in
theorem get?_column {groups : Groups} {a : AliasPlan} {o : Object}
    (h : (r.plan s (r.scopes base) index mounts).Assembled groups row a o) {path : Path} {e : Entity}
    (ht : (r.scopes base).whole.table? a.name = some (path, e)) {column : String}
    (hc : Reference.plain path column ∈ r.columns (r.scopes base)) :
    ∃ value, row.lookup (a.name.label column) = some value ∧ o.get? column = some value := by
  have there := (resolved.mem_labels_iff hs hb forced relations affix labels ht).mpr hc
  rw [← Keyed.lookup_isSome_iff_mem, Option.isSome_iff_exists] at there
  obtain ⟨value, hvalue⟩ := there
  have carries := resolved.carries hs hb forced relations affix labels index mounts
  have isColumn := resolved.hasColumn_of_mem hs hb forced relations affix
    (Scope.entityAt?_of_table? (resolved.joined hs.named hb) ht) hc
  obtain ⟨apart, free⟩ :=
    resolved.column_apart hs hb forced relations toMany index ht isColumn
  cases h with
  | intro below entity names members attached cells assembled =>
      exact ⟨value, hvalue, (cells carries column apart free).trans hvalue⟩

omit nodup toMany in
theorem name_cases {groups : Groups} {a : AliasPlan} {o : Object}
    (h : (r.plan s (r.scopes base) index mounts).Assembled groups row a o)
    (ha : a ∈ r.aliases s base) {path : Path} {e : Entity}
    (ht : (r.scopes base).whole.table? a.name = some (path, e)) {name : String}
    (hname : name ∈ (a.finish o).names) :
    c.Holds s base path.bridges name ∨ c.Shows s.schema base (path.bridges ++ [name]) ∨
      ∃ mount ∈ mounts, mount.owner.bridges = path.bridges ∧ mount.property = name := by
  have joined := resolved.joined hs.named hb
  have displayed := resolved.displayed hs hb forced relations
  obtain ⟨value, hvalue⟩ := Object.mem_names_iff.mp hname
  cases h with
  | intro below entity names members attached cells assembled =>
      by_cases member : ∃ m ∈ (r.plan s (r.scopes base) index mounts).mounts,
          m.owner = a.name ∧ m.mount.property = name
      · obtain ⟨m, hm, howner, rfl⟩ := member
        obtain ⟨mount, hmount, hplan⟩ := List.mem_filterMap.mp hm
        obtain ⟨f, htm, rfl, -⟩ := (Scope.mountPlan?_eq_some_iff joined).mp hplan
        rw [howner, ht, Option.some.injEq, Prod.mk.injEq] at htm
        exact .inr (.inr ⟨_, hmount, by rw [htm.1], rfl⟩)
      · by_cases bridge : ∃ b ∈ r.aliases s base, b.attachment = some ⟨a.name, name⟩
        · obtain ⟨b, hmem, hattached⟩ := bridge
          obtain ⟨next, f, htb, -⟩ := Scope.aliasPlans_entry joined displayed hmem
          have hbridges := (Scope.attachment_iff joined displayed ht hmem htb name).mp hattached
          have shown := (resolved.mem_aliases_iff hs hb forced relations).mpr ⟨b, hmem, f, htb⟩
          rw [Path.eq_root_iff, hbridges] at shown
          exact .inr (.inl (shown.resolve_left (by simp)))
        · -- neither a member nor a bridge: a cell, and not a key that was given up
          have carries := resolved.carries hs hb forced relations affix labels index mounts
          have cell := cells carries name (fun m hm howner hprop => member ⟨m, hm, howner, hprop⟩)
            fun b hmem hattached => bridge ⟨b, hmem, hattached⟩
          rw [AliasPlan.get?_finish names] at hvalue
          split at hvalue
          · cases hvalue
          · next kept =>
            rw [(Scope.aliasPlans_at joined displayed ha ht).2] at kept
            rw [hvalue] at cell
            have there : a.name.label name ∈ row.map Prod.fst := by
              rw [← Keyed.lookup_isSome_iff_mem, ← cell]
              rfl
            have selected :=
              (resolved.mem_labels_iff hs hb forced relations affix labels ht).mp there
            exact .inl ((resolved.holds_iff hs hb forced relations affix ha ht).mpr ⟨selected, kept⟩)

include asked

theorem depicts {select : Sql.Select}
    (columns : select.columns = (r.columns (r.scopes base)).map (r.scopes base).whole.column)
    {groups : Groups} {a : AliasPlan} {o : Object}
    (h : (r.plan s (r.scopes base) index mounts).Assembled groups row a o)
    (ha : a ∈ r.aliases s base) {path : Path} {e : Entity}
    (ht : (r.scopes base).whole.table? a.name = some (path, e)) :
    Query.Depicts s base c mounts select groups row path.bridges (a.finish o) := by
  have joined := resolved.joined hs.named hb
  have displayed := resolved.displayed hs hb forced relations
  have orderly := resolved.orderly hs hb forced relations nodup toMany index
  have holds := fun {a} ha {path e} ht {column} =>
    @holds_iff s base c bindings r hs hb resolved forced relations affix a ha path e ht column
  induction h generalizing path e with
  | @intro a o below entity names members attached cells assembled ih =>
      have hat := Scope.entityAt?_of_table? joined ht
      obtain ⟨hentity, hkey⟩ := Scope.aliasPlans_at joined displayed ha ht
      -- the object under a bridge is that of the alias attached by it
      have attachedBy : ∀ bridge, ∃ child, ∀ b ∈ r.aliases s base,
          b.attachment = some ⟨a.name, bridge⟩ → child = b.finish (below b) := by
        intro bridge
        by_cases some : ∃ b ∈ r.aliases s base, b.attachment = some ⟨a.name, bridge⟩
        · obtain ⟨b, hmem, hattached⟩ := some
          refine ⟨b.finish (below b), fun other ho hother => ?_⟩
          rw [orderly.attachments b hmem other ho _ hattached hother]
        · exact ⟨{ entity := "" }, fun b hmem hattached => absurd ⟨b, hmem, hattached⟩ some⟩
      choose child hchild using attachedBy
      have whole := Plan.Assembled.intro below entity names members attached cells assembled
      have finish := fun field => AliasPlan.get?_finish (a := a) names field
      rw [hkey] at finish
      refine .intro child hat (AliasPlan.entity_finish.trans (entity.trans hentity))
        (AliasPlan.nodup_finish names) ?columns ?bridges ?members ?only ?objects
      case columns =>
        intro column hold
        obtain ⟨selected, kept⟩ := (holds ha ht).mp hold
        obtain ⟨value, hvalue, hget⟩ := resolved.get?_column hs hb forced relations affix labels
          toMany index whole ht selected
        refine ⟨value, ?_, ?_⟩
        · exact (resolved.reads_iff hs hb forced relations affix labels ht columns).mpr hvalue
        · rw [finish, if_neg kept, hget]
      case bridges =>
        intro bridge next hshown hnext
        obtain ⟨b, hmem, nextPath, f, hattached, htb, hbridges⟩ :=
          resolved.exists_attached hs hb forced relations ht hshown
        have hatb := Scope.entityAt?_of_table? joined htb
        have hkeyb := (Scope.aliasPlans_at joined displayed hmem htb).2
        rw [← hbridges] at hshown hnext ⊢
        rw [hatb, Option.some.injEq] at hnext
        subst hnext
        have selected : Reference.plain nextPath f.primaryKey ∈ r.columns (r.scopes base) :=
          (resolved.selects_iff affix hs hb forced relations).mpr (.inr ⟨.inl hshown, f, hatb, rfl⟩)
        obtain ⟨key, hvalue, hget⟩ := resolved.get?_column hs hb forced relations affix labels
          toMany index (assembled b hmem bridge hattached) htb selected
        refine ⟨key, ?_, ?_⟩
        · exact (resolved.reads_iff hs hb forced relations affix labels htb columns).mpr hvalue
        · rw [resolved.get?_finish_of_apart hs hb forced relations toMany index names ha ht
              (.inr ⟨b, hmem, hattached⟩), attached b hmem bridge hattached,
            AliasPlan.value_eq (hkeyb ▸ hget), hchild bridge b hmem hattached]
      case members =>
        intro mount hmount howner
        obtain rfl : mount.owner = path := Path.ext howner
        obtain ⟨target, foreignKey, isMount⟩ := toMany mount hmount
        have selected : Reference.plain mount.owner e.primaryKey ∈ r.columns (r.scopes base) :=
          (resolved.selects_iff affix hs hb forced relations).mpr
            (.inr ⟨(asked mount hmount).needsKey hs hb forced isMount, e, hat, rfl⟩)
        obtain ⟨key, hvalue, -⟩ := resolved.get?_column hs hb forced relations affix labels
          toMany index whole ht selected
        refine ⟨key, ?_, ?_⟩
        · exact (resolved.reads_iff hs hb forced relations affix labels ht columns).mpr hvalue
        · have cell : row.cell (a.name.label e.primaryKey) = key := by
            rw [Row.cell, hvalue]
            rfl
          rw [resolved.get?_members hs hb forced relations toMany index whole ha hmount ht, cell]
      case only =>
        intro name hname
        exact resolved.name_cases hs hb forced relations affix labels index whole ha ht hname
      case objects =>
        intro bridge hshown
        obtain ⟨b, hmem, next, f, hattached, htb, hbridges⟩ :=
          resolved.exists_attached hs hb forced relations ht hshown
        rw [hchild bridge b hmem hattached, ← hbridges]
        exact ih b hmem bridge hattached hmem htb

omit nodup toMany asked in
theorem keyedBy {select : Sql.Select}
    (columns : select.columns = (r.columns (r.scopes base)).map (r.scopes base).whole.column)
    (o : Object) : Query.KeyedBy s base c select row o
      ((r.indexTarget? (r.scopes base).whole c.index).map fun
        | .label label => row.cell label
        | .computed key => key o) := by
  cases hc : c.index with
  | none => exact .none hc
  | some index =>
      cases index with
      | computed key => exact .computed hc
      | field name =>
          obtain ⟨path, column, found, label, points, hlabel, target⟩ :=
            resolved.indexTarget?_of_field hs hb forced relations affix hc columns
          have there : label ∈ row.map Prod.fst := by
            obtain ⟨selected, hm, -, -, rfl⟩ := hlabel
            rw [labels.mem_iff]
            rw [columns] at hm
            obtain ⟨ref, href, rfl⟩ := List.mem_map.mp hm
            exact List.mem_map_of_mem href
          rw [← Keyed.lookup_isSome_iff_mem, Option.isSome_iff_exists] at there
          obtain ⟨value, hvalue⟩ := there
          have cell : row.cell label = value := by
            rw [Row.cell, hvalue]
            rfl
          rw [← hc, target, Option.map_some]
          show Query.KeyedBy s base c select row o (some (row.cell label))
          rw [cell]
          exact .field hc points (Sql.Select.reads_iff.mpr ⟨label, hlabel, hvalue⟩)

end Settings.Resolved

/-! ## Built queries -/

namespace Query

variable {s : Settings} {q next : Query} {compiled : Compiled}

theorem Compiles.depicts (hs : s.schema.WellFormed) (tied : q.Tied s.schema)
    (affix : s.config.affix = none) (h : q.Compiles s compiled) (groups : Groups) {row : Row}
    (labels : (row.map Prod.fst).Perm (compiled.select.columns.map (·.label))) :
    ∃ base, q.base? s.schema = some base ∧
      Depicts s base q.clauses (q.children.map Prod.fst) compiled.select groups row []
        (compiled.plan.mapRow groups row).1 ∧
      KeyedBy s base q.clauses compiled.select row (compiled.plan.mapRow groups row).1
        (compiled.plan.mapRow groups row).2 := by
  obtain ⟨base, r, hbase, hb, resolved, rfl⟩ := h.resolved
  have forced := tied.hasColumn hbase
  have relations := tied.entityAt? hbase
  have toMany := tied.toMany hbase
  have labels : (row.map Prod.fst).Perm
      ((r.columns (r.scopes base)).map (r.scopes base).whole.label) := by
    simpa [assemble, Resolution.statement, Scope.column, Function.comp_def] using labels
  have orderly := resolved.orderly hs hb forced relations tied.mounts toMany q.clauses.index
  obtain ⟨root, hroot, o, assembled, hmapped⟩ := Plan.mapRow_assembled orderly groups row
  refine ⟨base, hbase, ?_, resolved.keyedBy hs hb forced relations affix labels rfl _⟩
  have joined := resolved.joined hs.named hb
  have member : root ∈ r.aliases s base := List.mem_of_head? hroot
  have there : (r.scopes base).whole.table? root.name = some (.root, base) := by
    rw [resolved.name_of_head? hs hb forced relations hroot]
    exact joined.root_mem
  have columns : (q.assemble s base r).select.columns =
      (r.columns (r.scopes base)).map (r.scopes base).whole.column := rfl
  have drawn := resolved.depicts hs hb forced relations affix labels tied.mounts toMany tied.asked
    q.clauses.index columns assembled member there
  rw [← hmapped] at drawn
  exact drawn

/-- Mapping a row by the plan of a built query draws the object that is described by paths. -/
theorem Reached.mapRow_depicts {declarations : List Declaration}
    (declared : Schema.ofDeclarations declarations = .ok s.schema)
    (plain : ∀ d ∈ declarations, d.Plain) (affix : s.config.affix = none) (reached : q.Reached s)
    (built : q.build s = (.ok compiled, next)) (groups : Groups) {row : Row}
    (labels : (row.map Prod.fst).Perm (compiled.select.columns.map (·.label))) :
    ∃ base, q.base? s.schema = some base ∧
      Depicts s base q.clauses (next.children.map Prod.fst) compiled.select groups row []
        (compiled.plan.mapRow groups row).1 ∧
      KeyedBy s base q.clauses compiled.select row (compiled.plan.mapRow groups row).1
        (compiled.plan.mapRow groups row).2 := by
  have hs := Schema.wellFormed_ofDeclarations declared plain
  obtain ⟨sound, frames, compiles⟩ := reached.build built
  obtain ⟨base, hbase, drawn⟩ := compiles.depicts hs (sound.tied hs.named) affix groups labels
  rw [Query.base?, frames.clauses] at hbase
  rw [frames.clauses] at drawn
  exact ⟨base, hbase, drawn⟩

end Query

namespace Sample

def history : Query :=
  (((({} : Query).setSource schema "Order").select "total, customer.name").toMany settings
    "customer.orders").2

theorem history_reached : history.Reached settings :=
  .call (.call (.call .new (.setSource (s := settings) "Order")) (.select _)) (.toMany _)

def historyRow : Row :=
  [("#1.name", .text "Ada"), ("#0.total", .ofInt64 150), ("#1.id", .ofInt64 7)]

end Sample

theorem Query.Reached.mapRow_depicts_history : ∃ compiled next base,
    Sample.history.build Sample.settings = (.ok compiled, next) ∧
      (Sample.historyRow.map Prod.fst).Perm (compiled.select.columns.map (·.label)) ∧
      Sample.history.base? Sample.schema = some base ∧
      Depicts Sample.settings base Sample.history.clauses (next.children.map Prod.fst)
        compiled.select [] Sample.historyRow [] (compiled.plan.mapRow [] Sample.historyRow).1 ∧
      KeyedBy Sample.settings base Sample.history.clauses compiled.select Sample.historyRow
        (compiled.plan.mapRow [] Sample.historyRow).1
        (compiled.plan.mapRow [] Sample.historyRow).2 := by
  obtain ⟨compiled, next, built, labels⟩ : ∃ compiled next,
      Sample.history.build Sample.settings = (.ok compiled, next) ∧
        (Sample.historyRow.map Prod.fst).Perm (compiled.select.columns.map (·.label)) :=
    ⟨_, _, rfl, by decide +kernel⟩
  obtain ⟨base, hbase, drawn⟩ := Reached.mapRow_depicts (s := Sample.settings) Sample.declared
    Sample.plain rfl Sample.history_reached built [] labels
  exact ⟨compiled, next, base, built, labels, hbase, drawn⟩

end RowGraph
