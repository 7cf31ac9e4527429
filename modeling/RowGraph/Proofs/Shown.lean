import RowGraph.Proofs.Joins

/-!
# What clauses show

The clauses of a query make objects along the paths of the index, the select list and the toMany
paths (`Clauses.Shows`), and select the primary keys of these objects and of the owners of children
(`Clauses.NeedsKey`). Without affixes the selected columns are exactly the requested ones and these
keys, each under its own name (`Resolved.selects_iff`).
-/

namespace RowGraph

/-! ## Objects that clauses ask for -/

namespace Clauses

def Shows (s : Schema) (base : Entity) (c : Clauses) (path : List String) : Prop :=
  path ≠ [] ∧ (s.entityAt? base path).isSome ∧ ∃ whole ∈ c.graphPaths, path <+: whole

def LeavesBase (base : Entity) (c : Clauses) : Prop :=
  .root ∈ c.relations ∨ ∃ field ∈ c.fields, isExclusion field = false ∧
    ∃ property target foreignKey rest, base.property? property = some (.toMany target foreignKey) ∧
      rest ≠ [] ∧ fieldPath field = property :: rest

/-- The primary key at a path is selected whatever the fields are. -/
def NeedsKey (s : Schema) (base : Entity) (c : Clauses) (path : List String) : Prop :=
  c.Shows s base path ∨ path = [] ∧ c.LeavesBase base

end Clauses

theorem Settings.Points.shows {s : Settings} {base : Entity} {c : Clauses} {place : Place}
    {parts path : List String} {column label : String}
    (h : s.Points base place parts path column label) (hm : parts ∈ c.graphPaths) :
    path = [] ∨ c.Shows s.schema base path := by
  obtain ⟨e, part, rfl, hat, -⟩ := h
  by_cases hne : path = []
  · exact .inl hne
  · exact .inr ⟨hne, by rw [hat]; rfl, _, hm, List.prefix_append ..⟩

theorem Clauses.Requests.shows {s : Settings} {base : Entity} {c : Clauses} {path : List String}
    {column label : String} (h : c.Requests s base path column label) :
    path = [] ∨ c.Shows s.schema base path := by
  cases h with
  | field listed plain points =>
      apply points.shows
      simp only [Clauses.graphPaths, List.mem_append]
      exact .inl (.inr (List.mem_map_of_mem (List.mem_filter.mpr ⟨listed, by simp [plain]⟩)))
  | index keyed points =>
      apply points.shows
      simp [Clauses.graphPaths, keyed]
  | forced => exact .inl rfl

theorem Clauses.Requests.hasColumn {s : Settings} {base e : Entity} {c : Clauses}
    {path : List String} {column label : String} (h : c.Requests s base path column label)
    (forced : ∀ name ∈ c.forced, base.hasColumn name) (hat : s.schema.entityAt? base path = some e) :
    e.hasColumn column := by
  cases h with
  | field _ _ points =>
      obtain ⟨f, _, -, hf, names⟩ := points
      rw [hat, Option.some.injEq] at hf
      exact hf ▸ names.hasColumn
  | index _ points =>
      obtain ⟨f, _, -, hf, names⟩ := points
      rw [hat, Option.some.injEq] at hf
      exact hf ▸ names.hasColumn
  | forced listed =>
      cases hat
      exact forced _ listed

/-! ## Needs -/

theorem Item.mem_needs {i : Item} {need : Need} : need ∈ i.needs true ↔ i.excluded = false ∧
    ((∃ step ∈ i.walk.steps, need = .join step true) ∨
      ∃ hop, i.hop? = some hop ∧ need = .key hop.mount.owner) := by
  unfold Item.needs
  cases i.excluded
  · cases i.hop? <;> simp [eq_comm]
  · simp

theorem shownStep?_of_mem_needs {i : Item} {need : Need} (h : need ∈ i.needs false) :
    need.shownStep? = none := by
  unfold Item.needs at h
  split at h
  · cases h
  · dsimp only at h
    split at h
    · obtain ⟨step, -, rfl⟩ := List.mem_map.mp h
      rfl
    · rcases List.mem_append.mp h with hm | hm
      · obtain ⟨step, -, rfl⟩ := List.mem_map.mp hm
        rfl
      · rw [List.mem_singleton.mp hm]
        rfl

theorem Item.step?_of_mem_needs {i : Item} {need : Need} (h : need ∈ i.needs true) :
    need.step? = need.shownStep? := by
  obtain ⟨-, ⟨step, -, rfl⟩ | ⟨hop, -, rfl⟩⟩ := mem_needs.mp h <;> rfl

theorem mem_pathNeeds {steps : List Step} {need : Need} : need ∈ pathNeeds steps ↔
    (∃ step ∈ steps, need = .join step true) ∨
      need = .key ((steps.getLast?.map Step.path).getD .root) := by
  simp [pathNeeds, eq_comm]

theorem Schema.Chain.final_eq {s : Schema} {e last : Entity} {path final : Path}
    {steps : List Step} (h : s.Chain e path steps last final) :
    (steps.getLast?.map Step.path).getD path = final := by
  induction h with
  | nil => rfl
  | cons _ rest ih =>
      rw [List.getLast?_cons, ← ih]
      cases hl : List.getLast? _ <;> simp [Step.path]

namespace Resolution

variable {r : Resolution} {need : Need}

theorem step?_of_mem_shownNeeds (h : need ∈ r.shownNeeds) : need.step? = need.shownStep? := by
  simp only [shownNeeds, List.mem_append, List.mem_flatMap] at h
  rcases h with ((⟨i, -, hn⟩ | ⟨i, -, hn⟩) | ⟨i, -, hn⟩) | ⟨steps, -, hn⟩
  · exact Item.step?_of_mem_needs hn
  · exact Item.step?_of_mem_needs hn
  · exact Item.step?_of_mem_needs hn
  · rcases mem_pathNeeds.mp hn with ⟨step, -, rfl⟩ | rfl <;> rfl

theorem shownStep?_of_mem_otherNeeds (h : need ∈ r.otherNeeds) : need.shownStep? = none := by
  obtain ⟨t, -, hn⟩ := List.mem_flatMap.mp h
  obtain ⟨i, -, hn⟩ := List.mem_flatMap.mp hn
  exact shownStep?_of_mem_needs hn

theorem exhibits {s : Schema} {base : Entity} (routed : s.Routed base [.root] r.shownNeeds) :
    (r.scopes base).shown.Exhibits base ((r.shownNeeds.filterMap Need.step?).map Step.path ++ [.root]) ∧
    (r.scopes base).whole.Exhibits base
      ((r.shownNeeds.filterMap Need.step?).map Step.path ++ [.root]) := by
  have shown := Scope.exhibits_addAll_shown (Scope.exhibits_base base) (Scope.joined_base s base)
    routed fun _ => step?_of_mem_shownNeeds
  exact ⟨shown, Scope.exhibits_addAll_hidden shown fun _ => shownStep?_of_mem_otherNeeds⟩

end Resolution

theorem Schema.Mounts.needsKey {s : Schema} {base : Entity} {c : Clauses} {mount : Mount}
    {target foreignKey field : String} {rest : List String}
    (h : s.Mounts base mount target foreignKey) (listed : field ∈ c.fields)
    (plain : isExclusion field = false) (hne : rest ≠ [])
    (hpath : fieldPath field = mount.owner.bridges ++ mount.property :: rest) :
    c.NeedsKey s base mount.owner.bridges := by
  obtain ⟨owner, hat, hp⟩ := h
  by_cases hroot : mount.owner.bridges = []
  · rw [hroot] at hat hpath
    cases hat
    exact .inr ⟨hroot, .inr ⟨field, listed, plain, _, _, _, rest, hp, hne, hpath⟩⟩
  · refine .inl ⟨hroot, by rw [hat]; rfl, fieldPath field, ?_, ?_⟩
    · simp only [Clauses.graphPaths, List.mem_append]
      exact .inl (.inr (List.mem_map_of_mem (List.mem_filter.mpr ⟨listed, by simp [plain]⟩)))
    · rw [hpath]
      exact List.prefix_append ..

theorem Clauses.needsKey_of_relation {s : Schema} {base : Entity} {c : Clauses} {path : Path}
    (h : path ∈ c.relations) (hat : (s.entityAt? base path.bridges).isSome) :
    c.NeedsKey s base path.bridges := by
  by_cases hroot : path.bridges = []
  · exact .inr ⟨hroot, .inl (by rwa [← Path.eq_root_iff.mpr hroot])⟩
  · refine .inl ⟨hroot, hat, path.bridges, ?_, List.prefix_rfl⟩
    simp only [Clauses.graphPaths, List.mem_append]
    exact .inr (List.mem_map_of_mem h)

theorem Clauses.Asks.needsKey {s : Schema} {base : Entity} {c : Clauses} {mount : Mount}
    {target foreignKey : String} (hs : s.WellFormed) (hb : base ∈ s.entities)
    (columns : ∀ name ∈ c.forced, base.hasColumn name) (h : c.Asks mount)
    (mounts : s.Mounts base mount target foreignKey) :
    c.NeedsKey s base mount.owner.bridges := by
  rcases h.cases_listed hs hb columns with h | ⟨field, hf, plain, rest, hne, hpath⟩
  · obtain ⟨owner, hat, -⟩ := mounts
    exact Clauses.needsKey_of_relation h (by rw [hat]; rfl)
  · exact mounts.needsKey (c.listed_subset_fields hf) plain hne hpath

namespace Settings

variable {s : Settings} {base : Entity} {c : Clauses} {bindings : List Binding} {r : Resolution}

theorem Follows.hop?_eq_none {place : Place} {field : String} {i : Item}
    (h : s.Follows base place field i) (hp : place ≠ .select) : i.hop? = none := by
  obtain ⟨found, hfound⟩ := h.reference hp
  unfold Item.references at hfound
  unfold Item.hop?
  cases hg : i.walk.goal with
  | columns references => rfl
  | toMany hop => simp [hg] at hfound

theorem Reaches.final (hs : s.schema.Named) (hb : base ∈ s.schema.entities) {path : Path}
    {steps : List Step} (h : s.Reaches base path steps)
    (hat : (s.schema.entityAt? base path.bridges).isSome) :
    (steps.getLast?.map Step.path).getD .root = path := by
  obtain ⟨last, final, chain, hpath⟩ := h
  rw [Schema.filter_of_entityAt? hs hb hat] at hpath
  rw [chain.final_eq]
  have bridges := chain.bridges_final hs hb
  rw [← hpath, Path.bridges_root, List.nil_append] at bridges
  exact Path.ext bridges

section

variable (hs : s.schema.WellFormed) (hb : base ∈ s.schema.entities)

include hs hb

theorem Follows.needsKey {field : String} {i : Item} {hop : Hop}
    (h : s.Follows base .select field i) (listed : field ∈ c.fields) (plain : i.excluded = false)
    (hi : i.hop? = some hop) : c.NeedsKey s.schema base hop.mount.owner.bridges := by
  obtain ⟨mounts, rest, hne, hpath⟩ := h.mounts hs.named hb hi
  have hnot : isExclusion field = false := by rw [← h.excluded, plain]
  rw [itemPath_of_not hnot] at hpath
  exact mounts.needsKey listed hnot hne hpath

variable (resolved : s.Resolved base c bindings r) (forced : ∀ name ∈ c.forced, base.hasColumn name)
  (relations : ∀ path ∈ c.relations, (s.schema.entityAt? base path.bridges).isSome)

include resolved forced relations

theorem Resolved.mem_shownNeeds {need : Need} (h : need ∈ r.shownNeeds) :
    (∃ step, need = .join step true) ∨
      ∃ path, need = .key path ∧ c.NeedsKey s.schema base path.bridges := by
  have item : ∀ {i : Item}, need ∈ i.needs true →
      (∀ hop, i.excluded = false → i.hop? = some hop →
        c.NeedsKey s.schema base hop.mount.owner.bridges) → (∃ step, need = .join step true) ∨
        ∃ path, need = .key path ∧ c.NeedsKey s.schema base path.bridges := by
    intro i hn key
    obtain ⟨plain, ⟨step, -, rfl⟩ | ⟨hop, hhop, rfl⟩⟩ := Item.mem_needs.mp hn
    · exact .inl ⟨step, rfl⟩
    · exact .inr ⟨_, rfl, key hop plain hhop⟩
  simp only [Resolution.shownNeeds, List.mem_append, List.mem_flatMap] at h
  rcases h with ((⟨i, hi, hn⟩ | ⟨i, hi, hn⟩) | ⟨i, hi, hn⟩) | ⟨steps, hsteps, hn⟩
  · obtain ⟨name, hname, follows⟩ := exists_of_forall₂ resolved.forced hi
    refine item hn fun hop _ hhop => ?_
    rw [follows.hop?_of_hasColumn hs hb (forced name hname)] at hhop
    cases hhop
  · have hindex := resolved.index
    rw [Option.mem_toList.mp hi] at hindex
    generalize c.index = index at hindex
    cases hindex with
    | field follows =>
        refine item hn fun hop _ hhop => ?_
        rw [follows.hop?_eq_none (by decide)] at hhop
        cases hhop
  · obtain ⟨field, hfield, follows⟩ := exists_of_forall₂ resolved.fields hi
    exact item hn fun hop plain hhop => follows.needsKey hs hb hfield plain hhop
  · obtain ⟨path, hpath, reaches⟩ := exists_of_forall₂ resolved.relations hsteps
    have hat := relations path hpath
    rcases mem_pathNeeds.mp hn with ⟨step, -, rfl⟩ | rfl
    · exact .inl ⟨step, rfl⟩
    · rw [reaches.final hs.named hb hat]
      exact .inr ⟨path, rfl, Clauses.needsKey_of_relation hpath hat⟩

theorem Resolved.mem_stepPaths {path : List String} :
    path ∈ stepPaths r.shownNeeds ↔ c.Shows s.schema base path := by
  rw [resolved.stepPaths_shown hs hb forced relations]
  exact Schema.mem_flatMap_bridgePaths

omit forced in
theorem Resolved.root_mem_needs (leaves : c.LeavesBase base) : .key .root ∈ r.shownNeeds := by
  simp only [Resolution.shownNeeds, List.mem_append, List.mem_flatMap]
  rcases leaves with hroot | ⟨field, hf, plain, property, target, foreignKey, rest, hp, hne, hpath⟩
  · obtain ⟨steps, hsteps, reaches⟩ := exists_of_forall₂ resolved.relations.flip hroot
    refine .inr ⟨steps, hsteps, mem_pathNeeds.mpr (.inr ?_)⟩
    rw [Reaches.final hs.named hb reaches (relations _ hroot)]
  · obtain ⟨i, hi, follows⟩ := exists_of_forall₂ resolved.fields.flip hf
    refine .inl (.inr ⟨i, hi, Item.mem_needs.mpr ⟨by rw [follows.excluded, plain], .inr ?_⟩⟩)
    obtain ⟨last, final, back, chain, hwalk, ends⟩ := follows.walk
    rw [itemPath_of_not plain, hpath] at hwalk
    generalize i.walk.steps = steps at chain hwalk
    cases chain with
    | cons isBridge _ =>
        obtain ⟨target, hbridge, -⟩ := isBridge
        rw [List.map_cons, List.cons_append, List.cons.injEq] at hwalk
        obtain ⟨rfl, -⟩ := hwalk
        cases hp.symm.trans hbridge
    | nil =>
        rw [List.map_nil, List.nil_append] at hwalk
        subst hwalk
        unfold Item.hop?
        generalize i.walk.goal = goal at ends
        cases ends with
        | star => rw [hs.not_star hb] at hp; cases hp
        | column => exact absurd rfl hne
        | affix => exact absurd rfl hne
        | toMany => exact ⟨_, rfl, rfl⟩

theorem Resolved.mem_keys {path : Path} :
    path ∈ (r.scopes base).shown.keys ↔ c.NeedsKey s.schema base path.bridges := by
  have keys : path ∈ (r.scopes base).shown.keys ↔
      ∃ need ∈ r.shownNeeds, need.keyPath? = some path := by
    simp [Resolution.scopes, Scope.mem_keys_addAll, Scope.base]
  have steps : path.bridges ∈ stepPaths r.shownNeeds ↔ c.Shows s.schema base path.bridges :=
    resolved.mem_stepPaths hs hb forced relations
  rw [keys]
  constructor
  · rintro ⟨need, hn, hkey⟩
    rcases resolved.mem_shownNeeds hs hb forced relations hn with ⟨step, rfl⟩ | ⟨found, rfl, needed⟩
    · cases hkey
      refine .inl (steps.mp (List.mem_map.mpr ⟨step, ?_, rfl⟩))
      exact List.mem_filterMap.mpr ⟨_, hn, rfl⟩
    · cases hkey
      exact needed
  · rintro (hshown | ⟨hroot, leaves⟩)
    · obtain ⟨step, hstep, hpath⟩ := List.mem_map.mp (steps.mpr hshown)
      obtain ⟨need, hn, hneed⟩ := List.mem_filterMap.mp hstep
      refine ⟨need, hn, ?_⟩
      rcases resolved.mem_shownNeeds hs hb forced relations hn with ⟨_, rfl⟩ | ⟨_, rfl, -⟩
      · cases hneed
        exact congrArg some (Path.ext hpath)
      · cases hneed
    · refine ⟨_, resolved.root_mem_needs hs hb relations leaves, ?_⟩
      rw [Path.eq_root_iff.mpr hroot]
      rfl

theorem Resolved.exhibits : ∃ seen, (r.scopes base).shown.Exhibits base seen ∧
    (r.scopes base).whole.Exhibits base seen ∧
    ∀ path, path ∈ seen ↔ path = .root ∨ c.Shows s.schema base path.bridges := by
  obtain ⟨shown, whole⟩ := Resolution.exhibits (resolved.routed_shown hs.named hb)
  refine ⟨_, shown, whole, fun path => ?_⟩
  rw [List.mem_append, List.mem_singleton, or_comm, ← resolved.mem_stepPaths hs hb forced relations]
  refine or_congr_right ?_
  simp only [stepPaths, List.mem_map, Path.bridges_inj]

end

end Settings

/-! ## Selected columns -/

theorem Scopes.plain_of_mem_neededKeys {scopes : Scopes} {ref : Reference}
    (h : ref ∈ scopes.neededKeys) : ref = .plain ref.path ref.column := by
  obtain ⟨path, -, hkey⟩ := List.mem_filterMap.mp h
  obtain ⟨e, -, rfl⟩ := Option.map_eq_some_iff.mp hkey
  rfl

section

variable {s : Settings} {base : Entity} {c : Clauses} {bindings : List Binding} {r : Resolution}
  (affix : s.config.affix = none)

include affix

theorem Settings.Names.label_eq {place : Place} {e : Entity} {part column label : String}
    (h : s.Names place e part column label) : label = column := by
  cases h with
  | column => rfl
  | star => rfl
  | affix _ _ affixed => simp [Settings.affixColumn?, affix] at affixed

theorem Clauses.Requests.label_eq {path : List String} {column label : String}
    (h : c.Requests s base path column label) : label = column := by
  cases h with
  | field _ _ points =>
      obtain ⟨_, _, -, -, names⟩ := points
      exact names.label_eq affix
  | index _ points =>
      obtain ⟨_, _, -, -, names⟩ := points
      exact names.label_eq affix
  | forced => rfl

variable (hs : s.schema.WellFormed) (hb : base ∈ s.schema.entities)
  (resolved : s.Resolved base c bindings r) (forced : ∀ name ∈ c.forced, base.hasColumn name)
  (relations : ∀ path ∈ c.relations, (s.schema.entityAt? base path.bridges).isSome)

include hs hb resolved forced

theorem Settings.Resolved.plain_of_mem_columns {ref : Reference}
    (h : ref ∈ r.columns (r.scopes base)) : ref = .plain ref.path ref.column := by
  rw [Resolution.columns, Keyed.mem_distinct, List.mem_append] at h
  rcases h with h | h
  · have label := ((requested_iff hs hb resolved forced).mp h).label_eq affix
    obtain ⟨path, column, name⟩ := ref
    cases label
    rfl
  · exact Scopes.plain_of_mem_neededKeys (List.mem_of_mem_filter h)

theorem Settings.Resolved.requests_iff {path : Path} {column : String} :
    Reference.plain path column ∈ r.requested ↔
      ∃ label, c.Requests s base path.bridges column label := by
  rw [requested_iff hs hb resolved forced]
  constructor
  · exact fun h => ⟨_, h⟩
  · rintro ⟨label, h⟩
    rwa [h.label_eq affix] at h

include relations

omit affix in
theorem Settings.Resolved.mem_neededKeys {path : Path} {column : String} :
    Reference.plain path column ∈ (r.scopes base).neededKeys ↔
      c.NeedsKey s.schema base path.bridges ∧
        ∃ e, s.schema.entityAt? base path.bridges = some e ∧ column = e.primaryKey := by
  have entity : ∀ {e}, (path, e) ∈ (r.scopes base).shown.tables →
      s.schema.entityAt? base path.bridges = some e := fun hm =>
    (resolved.joined hs.named hb).entityAt? ((Scope.tables_prefix_addAll _ _).subset hm)
  rw [← resolved.mem_keys hs hb forced relations, Scopes.neededKeys, List.mem_filterMap]
  constructor
  · rintro ⟨found, hkey, href⟩
    obtain ⟨e, he, heq⟩ := Option.map_eq_some_iff.mp href
    rw [Reference.plain, Reference.plain, Reference.mk.injEq] at heq
    obtain ⟨rfl, rfl, -⟩ := heq
    exact ⟨hkey, e, entity (Keyed.mem_of_lookup he), rfl⟩
  · rintro ⟨hkey, e, hat, rfl⟩
    refine ⟨path, hkey, ?_⟩
    obtain ⟨seen, shown, -, hseen⟩ := resolved.exhibits hs hb forced relations
    have there : path ∈ (r.scopes base).shown.tables.map Prod.fst := by
      apply shown.tables
      rw [hseen]
      rcases (resolved.mem_keys hs hb forced relations).mp hkey with hshows | ⟨hroot, -⟩
      · exact .inr hshows
      · exact .inl (Path.eq_root_iff.mpr hroot)
    rw [← Keyed.lookup_isSome_iff_mem, Option.isSome_iff_exists] at there
    obtain ⟨found, hf⟩ := there
    have same := entity (Keyed.mem_of_lookup hf)
    rw [hat, Option.some.injEq] at same
    rw [hf, same]
    rfl

omit affix in
theorem Settings.Resolved.injected_iff {path : Path} {column : String} :
    Reference.plain path column ∈ r.injected (r.scopes base) ↔
      (c.NeedsKey s.schema base path.bridges ∧
        ∃ e, s.schema.entityAt? base path.bridges = some e ∧ column = e.primaryKey) ∧
      ¬ ∃ label, c.Requests s base path.bridges column label := by
  rw [Resolution.injected, List.mem_filter, resolved.mem_neededKeys hs hb forced relations]
  refine and_congr_right fun _ => ?_
  rw [Bool.not_eq_true', ← Bool.not_eq_true, List.any_eq_true]
  refine not_congr ⟨?_, ?_⟩
  · rintro ⟨ref, href, same⟩
    have requests := (requested_iff hs hb resolved forced).mp href
    obtain ⟨hpath, hcolumn⟩ := Bool.and_eq_true_iff.mp same
    rw [of_decide_eq_true hpath, of_decide_eq_true hcolumn] at requests
    exact ⟨_, requests⟩
  · rintro ⟨label, requests⟩
    refine ⟨⟨path, column, label⟩, (requested_iff hs hb resolved forced).mpr requests, ?_⟩
    simp [Reference.sameColumn, Reference.plain]

theorem Settings.Resolved.selects_iff {path : Path} {column : String} :
    Reference.plain path column ∈ r.columns (r.scopes base) ↔
      (∃ label, c.Requests s base path.bridges column label) ∨
        c.NeedsKey s.schema base path.bridges ∧
          ∃ e, s.schema.entityAt? base path.bridges = some e ∧ column = e.primaryKey := by
  rw [Resolution.columns, Keyed.mem_distinct, List.mem_append,
    resolved.requests_iff affix hs hb forced, resolved.injected_iff hs hb forced relations]
  tauto

end
end RowGraph
