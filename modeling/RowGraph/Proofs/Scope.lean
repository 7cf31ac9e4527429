import RowGraph.Proofs.Walk
import RowGraph.Query.Scope

/-!
# Scopes

A scope grows by one table and its join at a time, and every join refers to a table that is there
already (`Schema.Joined`). The objects grow in the same way below objects that are there
(`Scope.Displayed`). Adding what some fields need keeps both, provided that every step starts from
a path that is known (`Schema.Routed`); the paths of a scope are then the distinct paths of the
steps in order of first use (`Scope.paths_addAll`).
-/

namespace RowGraph

/-! ## Needs -/

def Need.step? : Need → Option Step
  | .join step _ => some step
  | .key _ => none

def Need.shownStep? : Need → Option Step
  | .join step true => some step
  | _ => none

def Need.keyPath? : Need → Option Path
  | .join step true => some step.path
  | .join _ false => none
  | .key path => some path

def Schema.Takes (s : Schema) (base : Entity) (step : Step) : Prop :=
  (∃ owner, s.entityAt? base step.owner.bridges = some owner ∧
    s.IsBridge owner step.bridge step.boundKey step.target) ∧
  step.path.bridges = step.owner.bridges ++ [step.bridge]

/-- Needs whose steps start from paths that are known or that earlier steps lead to. -/
def Schema.Routed (s : Schema) (base : Entity) : List Path → List Need → Prop
  | _, [] => True
  | known, .join step _ :: rest =>
      s.Takes base step ∧ step.owner ∈ known ∧ s.Routed base (step.path :: known) rest
  | known, .key _ :: rest => s.Routed base known rest

namespace Schema

variable {s : Schema} {base : Entity}

theorem Routed.mono {known more : List Path} {needs : List Need}
    (h : s.Routed base known needs) (hk : known ⊆ more) : s.Routed base more needs := by
  induction needs generalizing known more with
  | nil => trivial
  | cons need rest ih =>
      cases need with
      | join step shown =>
          obtain ⟨takes, owner, hrest⟩ := h
          exact ⟨takes, hk owner, ih hrest (List.cons_subset_cons _ hk)⟩
      | key path => exact ih (show s.Routed base known rest from h) hk

theorem Routed.append {known : List Path} {needs more : List Need}
    (h : s.Routed base known needs) (hm : s.Routed base known more) :
    s.Routed base known (needs ++ more) := by
  induction needs generalizing known with
  | nil => exact hm
  | cons need rest ih =>
      cases need with
      | join step shown =>
          obtain ⟨takes, owner, hrest⟩ := h
          exact ⟨takes, owner, ih hrest (hm.mono (List.subset_cons_self _ _))⟩
      | key path => exact ih (show s.Routed base known rest from h) hm

theorem Routed.flatMap {α : Type} {known : List Path} {f : α → List Need} {items : List α}
    (h : ∀ item ∈ items, s.Routed base known (f item)) :
    s.Routed base known (items.flatMap f) := by
  induction items with
  | nil => trivial
  | cons item rest ih =>
      rw [List.forall_mem_cons] at h
      rw [List.flatMap_cons]
      exact h.1.append (ih h.2)

theorem Chain.routed {e last : Entity} {path final : Path} {steps : List Step} {known : List Path}
    (h : s.Chain e path steps last final) (hs : s.Named) (he : e ∈ s.entities)
    (hp : s.entityAt? base path.bridges = some e) (hk : path ∈ known) (shown : Bool) :
    s.Routed base known (steps.map (Need.join · shown)) := by
  induction h generalizing known with
  | nil => trivial
  | @cons e next last path final bridge boundKey steps isBridge _ ih =>
      obtain ⟨target, hb, ht⟩ := isBridge
      have enter : (path.enter bridge).bridges = path.bridges ++ [bridge] :=
        Path.bridges_enter (hs.ne_empty he hb) path
      refine ⟨⟨⟨e, hp, target, hb, ht⟩, enter⟩, hk, ?_⟩
      refine ih (mem_of_entity? ht) ?_ (List.mem_cons_self ..)
      rw [enter, entityAt?_concat_eq_some_iff]
      exact ⟨e, boundKey, hp, target, hb, ht⟩

/-! ## Tables and joins -/

/-- Tables and joins that grew one by one from the base table. -/
inductive Joined (s : Schema) (base : Entity) :
    List (Path × Entity) → List (Path × Join) → Prop where
  | base : Joined s base [(.root, base)] []
  | snoc {tables : List (Path × Entity)} {joins : List (Path × Join)} {path owner : Path}
      {e ownerEntity : Entity} {bridge boundKey : String} {parent : Alias}
      (grown : Joined s base tables joins) (new : path ∉ tables.map Prod.fst)
      (there : tables[parent.index]? = some (owner, ownerEntity))
      (isBridge : s.IsBridge ownerEntity bridge boundKey e)
      (bridges : path.bridges = owner.bridges ++ [bridge]) :
      Joined s base (tables ++ [(path, e)]) (joins ++ [(path,
        { name := ⟨tables.length⟩, table := e.table, primaryKey := e.primaryKey, parent,
          boundKey })])

namespace Joined

variable {tables : List (Path × Entity)} {joins : List (Path × Join)}

theorem keys_nodup (h : s.Joined base tables joins) : (tables.map Prod.fst).Nodup := by
  induction h with
  | base => simp
  | snoc grown new _ _ _ ih =>
      rw [List.map_append, List.map_singleton, ← List.concat_eq_append, List.nodup_concat]
      exact ⟨new, ih⟩

theorem root_mem (h : s.Joined base tables joins) : tables[0]? = some (.root, base) := by
  induction h with
  | base => rfl
  | snoc grown _ _ _ _ ih =>
      rw [List.getElem?_append_left]
      · exact ih
      · exact (List.getElem?_eq_some_iff.mp ih).1

theorem keys_joins (h : s.Joined base tables joins) :
    tables.map Prod.fst = .root :: joins.map Prod.fst := by
  induction h with
  | base => rfl
  | snoc _ _ _ _ _ ih => simp [ih]

theorem entityAt? (h : s.Joined base tables joins) {path : Path} {e : Entity}
    (hm : (path, e) ∈ tables) : s.entityAt? base path.bridges = some e := by
  induction h generalizing path e with
  | base =>
      simp only [List.mem_singleton, Prod.mk.injEq] at hm
      obtain ⟨rfl, rfl⟩ := hm
      rfl
  | snoc grown _ there isBridge bridges ih =>
      rcases List.mem_append.mp hm with hm | hm
      · exact ih hm
      · simp only [List.mem_singleton, Prod.mk.injEq] at hm
        obtain ⟨rfl, rfl⟩ := hm
        rw [bridges, entityAt?_concat_eq_some_iff]
        exact ⟨_, _, ih (List.mem_of_getElem? there), isBridge⟩

theorem length_tables (h : s.Joined base tables joins) : tables.length = joins.length + 1 := by
  have := congrArg List.length h.keys_joins
  simpa using this

theorem names_joins (h : s.Joined base tables joins) :
    joins.map (·.2.name) = (List.range joins.length).map fun i => ⟨i + 1⟩ := by
  induction h with
  | base => rfl
  | snoc grown _ _ _ _ ih =>
      rw [List.map_append, ih, List.length_append, List.length_singleton, List.range_succ,
        List.map_append, grown.length_tables]
      rfl

theorem join_at (h : s.Joined base tables joins) {i : Nat} {path : Path} {e : Entity}
    (ht : tables[i + 1]? = some (path, e)) :
    ∃ owner ownerEntity bridge boundKey k, k ≤ i ∧ tables[k]? = some (owner, ownerEntity) ∧
      s.IsBridge ownerEntity bridge boundKey e ∧ path.bridges = owner.bridges ++ [bridge] ∧
      joins[i]? = some (path,
        { name := ⟨i + 1⟩, table := e.table, primaryKey := e.primaryKey, parent := ⟨k⟩,
          boundKey }) := by
  induction h generalizing i path e with
  | base => simp at ht
  | @snoc tables joins last owner e' ownerEntity bridge boundKey parent grown _ there isBridge
      bridges ih =>
      have length := grown.length_tables
      have parentLt := (List.getElem?_eq_some_iff.mp there).1
      rcases Nat.lt_trichotomy i joins.length with hi | rfl | hi
      · rw [List.getElem?_append_left (by omega)] at ht
        obtain ⟨owner, ownerEntity, bridge, boundKey, k, hk, hat, found, hpath, hjoin⟩ := ih ht
        refine ⟨owner, ownerEntity, bridge, boundKey, k, hk, ?_, found, hpath, ?_⟩
        · rw [List.getElem?_append_left (by omega), hat]
        · rw [List.getElem?_append_left hi, hjoin]
      · rw [← length, List.getElem?_concat_length, Option.some.injEq, Prod.mk.injEq] at ht
        obtain ⟨rfl, rfl⟩ := ht
        refine ⟨owner, ownerEntity, bridge, boundKey, parent.index, by omega, ?_, isBridge,
          bridges, ?_⟩
        · rw [List.getElem?_append_left parentLt, there]
        · rw [List.getElem?_concat_length, length]
      · rw [List.getElem?_eq_none (by simp; omega)] at ht
        cases ht

end Joined
end Schema

namespace Scope

variable {s : Schema} {base : Entity} {scope : Scope}

theorem aliasOf?_eq_some_iff (hn : (scope.tables.map Prod.fst).Nodup) {path : Path} {name : Alias} :
    scope.aliasOf? path = some name ↔ ∃ e, scope.tables[name.index]? = some (path, e) := by
  have found : ∀ i, scope.tables.findIdx? (·.1 == path) = some i ↔
      ∃ e, scope.tables[i]? = some (path, e) := by
    intro i
    rw [List.findIdx?_eq_some_iff_getElem]
    constructor
    · rintro ⟨hi, hp, -⟩
      refine ⟨scope.tables[i].2, ?_⟩
      rw [List.getElem?_eq_getElem hi, ← eq_of_beq hp]
    · rintro ⟨e, he⟩
      obtain ⟨hi, hget⟩ := List.getElem?_eq_some_iff.mp he
      refine ⟨hi, by simp [hget], ?_⟩
      intro j hj hp
      have hlt : j < (scope.tables.map Prod.fst).length := by simp; omega
      have same : (scope.tables.map Prod.fst)[j]? = (scope.tables.map Prod.fst)[i]? := by
        rw [List.getElem?_map, List.getElem?_map, List.getElem?_eq_getElem (by omega), he,
          Option.map_some, Option.map_some, eq_of_beq hp]
      have := (List.getElem?_inj hlt hn).mp same
      omega
  obtain ⟨i⟩ := name
  rw [aliasOf?, Option.map_eq_some_iff, ← found]
  constructor
  · rintro ⟨j, hj, heq⟩
    rw [hj]
    exact congrArg some (congrArg Alias.index heq)
  · exact fun h => ⟨i, h, rfl⟩

theorem aliasOf_eq (hn : (scope.tables.map Prod.fst).Nodup) {path : Path} {e : Entity} {i : Nat}
    (h : scope.tables[i]? = some (path, e)) : scope.aliasOf path = ⟨i⟩ := by
  have : scope.aliasOf? path = some ⟨i⟩ := (aliasOf?_eq_some_iff hn).mpr ⟨e, h⟩
  rw [aliasOf, this]
  rfl

theorem aliasOf?_of_mem {path : Path} (h : path ∈ scope.tables.map Prod.fst) :
    scope.aliasOf? path = some (scope.aliasOf path) := by
  obtain ⟨entry, hm, same⟩ := List.mem_map.mp h
  have found : (scope.tables.findIdx? (·.1 == path)).isSome := by
    rw [List.findIdx?_isSome, List.any_eq_true]
    exact ⟨entry, hm, by simpa using same⟩
  obtain ⟨i, hi⟩ := Option.isSome_iff_exists.mp found
  rw [aliasOf, aliasOf?, hi]
  rfl

theorem aliasOf_inj (hn : (scope.tables.map Prod.fst).Nodup) {path other : Path}
    (hp : path ∈ scope.tables.map Prod.fst) (ho : other ∈ scope.tables.map Prod.fst) :
    scope.aliasOf path = scope.aliasOf other ↔ path = other := by
  refine ⟨fun same => ?_, congrArg _⟩
  obtain ⟨e, there⟩ := (aliasOf?_eq_some_iff hn).mp (aliasOf?_of_mem hp)
  obtain ⟨f, otherThere⟩ := (aliasOf?_eq_some_iff hn).mp (aliasOf?_of_mem ho)
  rw [same, otherThere, Option.some.injEq, Prod.mk.injEq] at there
  exact there.1.symm

theorem aliasOf_grown {more : Scope} (h : scope.tables <+: more.tables) {path : Path}
    (known : path ∈ scope.tables.map Prod.fst) : more.aliasOf path = scope.aliasOf path := by
  obtain ⟨rest, tables⟩ := h
  obtain ⟨i, hi, -⟩ := Option.map_eq_some_iff.mp (aliasOf?_of_mem known)
  rw [aliasOf, aliasOf, aliasOf?, aliasOf?, ← tables, List.findIdx?_append, hi, Option.some_or]

theorem joined_base (s : Schema) (e : Entity) :
    s.Joined e (Scope.base e).tables (Scope.base e).joins := .base

theorem joined_addJoin (h : s.Joined base scope.tables scope.joins) {step : Step}
    (takes : s.Takes base step) (known : step.owner ∈ scope.tables.map Prod.fst) :
    s.Joined base (scope.addJoin step).tables (scope.addJoin step).joins := by
  obtain ⟨⟨ownerEntity, hat, isBridge⟩, hpath⟩ := takes
  simp only [addJoin]
  by_cases hm : step.path ∈ scope.tables.map Prod.fst
  · have hj : step.path ∈ scope.joins.map Prod.fst := by
      rw [h.keys_joins, List.mem_cons] at hm
      refine hm.resolve_left fun hroot => ?_
      rw [hroot] at hpath
      simp at hpath
    rw [Keyed.putNew_of_mem _ hm, Keyed.putNew_of_mem _ hj]
    exact h
  · have hj : step.path ∉ scope.joins.map Prod.fst := by
      rw [h.keys_joins, List.mem_cons, not_or] at hm
      exact hm.2
    obtain ⟨⟨owner, e⟩, hmem, howner⟩ := List.mem_map.mp known
    simp only at howner
    subst howner
    obtain ⟨i, hi⟩ := List.mem_iff_getElem?.mp hmem
    have heq : e = ownerEntity := by
      have := h.entityAt? hmem
      rw [hat] at this
      exact (Option.some.inj this).symm
    have hname : Scope.aliasOf
        { scope with tables := scope.tables ++ [(step.path, step.target)] } step.path =
          ⟨scope.tables.length⟩ := by
      refine aliasOf_eq ?_ (e := step.target) (by simp)
      rw [List.map_append, List.map_singleton, ← List.concat_eq_append, List.nodup_concat]
      exact ⟨hm, h.keys_nodup⟩
    have hparent : scope.aliasOf step.owner = ⟨i⟩ := aliasOf_eq h.keys_nodup hi
    rw [Keyed.putNew_of_not_mem _ hm, Keyed.putNew_of_not_mem _ hj, hname, hparent]
    exact .snoc h hm hi (heq ▸ isBridge) hpath

theorem tables_addJoin (step : Step) :
    (scope.addJoin step).tables = Keyed.putNew step.path step.target scope.tables := rfl

@[simp] theorem tables_addKey (path : Path) : (scope.addKey path).tables = scope.tables := by
  unfold addKey
  split <;> rfl

@[simp] theorem joins_addKey (path : Path) : (scope.addKey path).joins = scope.joins := by
  unfold addKey
  split <;> rfl

@[simp] theorem shown_addKey (path : Path) : (scope.addKey path).shown = scope.shown := by
  unfold addKey
  split <;> rfl

@[simp] theorem tables_addShown (step : Step) :
    (scope.addShown step).tables = scope.tables := by simp [addShown]

@[simp] theorem joins_addShown (step : Step) : (scope.addShown step).joins = scope.joins := by
  simp [addShown]

theorem mem_keys_addKey {path other : Path} :
    other ∈ (scope.addKey path).keys ↔ other ∈ scope.keys ∨ other = path := by
  unfold addKey
  split
  · next h =>
    have : path ∈ scope.keys := by simpa using h
    constructor
    · exact .inl
    · rintro (h | rfl) <;> assumption
  · simp

theorem tables_add (need : Need) : (scope.add need).tables =
    match need.step? with
    | some step => Keyed.putNew step.path step.target scope.tables
    | none => scope.tables := by
  rcases need with ⟨step, _ | _⟩ | path
  · rfl
  · exact tables_addShown step
  · exact tables_addKey path

theorem joined_addAll {needs : List Need} (h : s.Joined base scope.tables scope.joins)
    (routed : s.Routed base (scope.tables.map Prod.fst) needs) :
    s.Joined base (scope.addAll needs).tables (scope.addAll needs).joins := by
  induction needs generalizing scope with
  | nil => exact h
  | cons need rest ih =>
      rw [addAll, List.foldl_cons]
      cases need with
      | key path =>
          have same : s.Joined base (scope.addKey path).tables (scope.addKey path).joins := by
            simpa using h
          have onward : s.Routed base ((scope.addKey path).tables.map Prod.fst) rest := by
            rw [tables_addKey]
            exact routed
          exact ih same onward
      | join step shown =>
          obtain ⟨takes, known, hrest⟩ := routed
          have joined := joined_addJoin h takes known
          have grown : step.path :: scope.tables.map Prod.fst ⊆
              (scope.addJoin step).tables.map Prod.fst := by
            intro path hp
            rw [tables_addJoin, Keyed.keys_putNew]
            split <;> aesop
          cases shown with
          | false => exact ih joined (hrest.mono grown)
          | true =>
              have same : s.Joined base ((scope.addJoin step).addShown step).tables
                  ((scope.addJoin step).addShown step).joins := by simpa using joined
              have onward : s.Routed base
                  (((scope.addJoin step).addShown step).tables.map Prod.fst) rest := by
                simpa using hrest.mono grown
              exact ih same onward

theorem tables_prefix_addAll (scope : Scope) (needs : List Need) :
    scope.tables <+: (scope.addAll needs).tables := by
  induction needs generalizing scope with
  | nil => exact List.prefix_rfl
  | cons need rest ih =>
      rw [addAll, List.foldl_cons]
      refine List.IsPrefix.trans ?_ (ih (scope.add need))
      rw [tables_add]
      split
      · rw [Keyed.putNew]
        split
        · exact List.prefix_rfl
        · exact List.prefix_append ..
      · exact List.prefix_rfl

theorem paths_addAll (hn : (scope.tables.map Prod.fst).Nodup) (needs : List Need) :
    (scope.addAll needs).tables.map Prod.fst =
      Keyed.distinct (scope.tables.map Prod.fst ++ (needs.filterMap Need.step?).map Step.path) := by
  have fold : (scope.addAll needs).tables = (needs.filterMap Need.step?).foldl
      (fun tables step => Keyed.putNew step.path step.target tables) scope.tables := by
    clear hn
    induction needs generalizing scope with
    | nil => rfl
    | cons need rest ih =>
        rw [addAll, List.foldl_cons, ← addAll, ih, tables_add]
        cases hs : need.step? <;> simp [hs]
  rw [fold]
  exact Keyed.keys_foldl_putNew Step.path Step.target _ _ hn

/-! ## Objects -/

inductive Displayed (base : Entity) (tables : List (Path × Entity)) :
    List (Alias × Shown) → Prop where
  | base : Displayed base tables [(.root, { entity := base.name, attachment := none })]
  | snoc {shown : List (Alias × Shown)} {name parent : Alias} {path owner : Path}
      {e ownerEntity : Entity} {bridge : String} (grown : Displayed base tables shown)
      (new : name ∉ shown.map Prod.fst) (below : parent ∈ shown.map Prod.fst)
      (there : tables[name.index]? = some (path, e))
      (ownerThere : tables[parent.index]? = some (owner, ownerEntity))
      (bridges : path.bridges = owner.bridges ++ [bridge]) :
      Displayed base tables
        (shown ++ [(name, { entity := e.name, attachment := some ⟨parent, bridge⟩ })])

theorem Displayed.mono {tables more : List (Path × Entity)} {shown : List (Alias × Shown)}
    (h : Displayed base tables shown) : Displayed base (tables ++ more) shown := by
  have keep : ∀ {i : Nat} {entry : Path × Entity}, tables[i]? = some entry →
      (tables ++ more)[i]? = some entry := by
    intro i entry hi
    rw [List.getElem?_append_left (List.getElem?_eq_some_iff.mp hi).1, hi]
  induction h with
  | base => exact .base
  | snoc _ new below there ownerThere bridges ih =>
      exact .snoc ih new below (keep there) (keep ownerThere) bridges

/-- A scope whose objects are those of the paths seen so far. -/
structure Exhibits (base : Entity) (scope : Scope) (seen : List Path) : Prop where
  displayed : Displayed base scope.tables scope.shown
  names : ∀ name, name ∈ scope.shown.map Prod.fst ↔
    ∃ path ∈ seen, ∃ e, scope.tables[name.index]? = some (path, e)
  tables : ∀ path ∈ seen, path ∈ scope.tables.map Prod.fst

theorem exhibits_base (e : Entity) : (Scope.base e).Exhibits e [.root] := by
  refine ⟨.base, ?_, by simp [Scope.base]⟩
  rintro ⟨i⟩
  cases i <;> simp [Scope.base, Alias.root]

theorem Exhibits.congr {seen more : List Path} (h : scope.Exhibits base seen)
    (hm : ∀ path, path ∈ seen ↔ path ∈ more) : scope.Exhibits base more :=
  ⟨h.displayed, fun name => by simp only [h.names, hm], fun path hp => h.tables path ((hm path).mpr hp)⟩

theorem Exhibits.addKey {seen : List Path} (h : scope.Exhibits base seen) (path : Path) :
    (scope.addKey path).Exhibits base seen :=
  ⟨by simpa using h.displayed, by simpa using h.names, by simpa using h.tables⟩

theorem Exhibits.addJoin {seen : List Path} (h : scope.Exhibits base seen) (step : Step) :
    (scope.addJoin step).Exhibits base seen := by
  have hshown : (scope.addJoin step).shown = scope.shown := rfl
  by_cases hm : step.path ∈ scope.tables.map Prod.fst
  · have ht : (scope.addJoin step).tables = scope.tables := Keyed.putNew_of_mem _ hm
    exact ⟨by rw [ht, hshown]; exact h.displayed, by rw [ht, hshown]; exact h.names,
      by rw [ht]; exact h.tables⟩
  · have ht : (scope.addJoin step).tables = scope.tables ++ [(step.path, step.target)] :=
      Keyed.putNew_of_not_mem _ hm
    refine ⟨by rw [ht, hshown]; exact h.displayed.mono, fun name => ?_, fun path hp => ?_⟩
    · rw [hshown, h.names, ht]
      constructor
      · rintro ⟨path, hp, e, he⟩
        exact ⟨path, hp, e, by rw [List.getElem?_append_left (List.getElem?_eq_some_iff.mp he).1, he]⟩
      · rintro ⟨path, hp, e, he⟩
        refine ⟨path, hp, e, ?_⟩
        rw [List.getElem?_append] at he
        split at he
        · exact he
        · have hlast := List.mem_of_getElem? he
          simp only [List.mem_singleton, Prod.mk.injEq] at hlast
          exact absurd (hlast.1 ▸ h.tables path hp) hm
    · rw [ht, List.map_append]
      exact List.mem_append_left _ (h.tables path hp)

theorem entity_of_takes (hj : s.Joined base scope.tables scope.joins) {step : Step}
    (takes : s.Takes base step) {e : Entity} (h : (step.path, e) ∈ scope.tables) :
    e = step.target := by
  obtain ⟨⟨owner, hat, isBridge⟩, hpath⟩ := takes
  have hstep : s.entityAt? base step.path.bridges = some step.target := by
    rw [hpath, Schema.entityAt?_concat_eq_some_iff]
    exact ⟨owner, _, hat, isBridge⟩
  rw [hj.entityAt? h] at hstep
  exact Option.some.inj hstep

theorem Exhibits.addShown {seen : List Path} (h : scope.Exhibits base seen)
    (hj : s.Joined base scope.tables scope.joins) {step : Step} (takes : s.Takes base step)
    (there : step.path ∈ scope.tables.map Prod.fst) (owner : step.owner ∈ seen) :
    (scope.addShown step).Exhibits base (step.path :: seen) := by
  obtain ⟨⟨path, e⟩, hmem, hp⟩ := List.mem_map.mp there
  subst hp
  obtain ⟨i, hi⟩ := List.mem_iff_getElem?.mp hmem
  obtain ⟨⟨ownerPath, ownerEntity⟩, homem, ho⟩ := List.mem_map.mp (h.tables _ owner)
  subst ho
  obtain ⟨k, hk⟩ := List.mem_iff_getElem?.mp homem
  have hname : scope.aliasOf step.path = ⟨i⟩ := aliasOf_eq hj.keys_nodup hi
  have hparent : scope.aliasOf step.owner = ⟨k⟩ := aliasOf_eq hj.keys_nodup hk
  refine Exhibits.addKey ?_ step.path
  rw [hname, hparent]
  by_cases hm : (⟨i⟩ : Alias) ∈ scope.shown.map Prod.fst
  · rw [Keyed.putNew_of_mem _ hm]
    obtain ⟨path, hseen, e', he'⟩ := (h.names _).mp hm
    rw [hi] at he'
    obtain ⟨rfl, -⟩ := Prod.mk.inj (Option.some.inj he')
    exact h.congr fun path => by simpa using fun hp => hp ▸ hseen
  · rw [Keyed.putNew_of_not_mem _ hm]
    refine ⟨?_, fun name => ?_, ?_⟩
    · rw [← entity_of_takes hj takes hmem]
      exact h.displayed.snoc hm ((h.names _).mpr ⟨_, owner, _, hk⟩) hi hk takes.2
    · simp only [List.map_append, List.map_singleton, List.mem_append, List.mem_singleton, h.names]
      constructor
      · rintro (⟨path, hp, e', he'⟩ | rfl)
        · exact ⟨path, List.mem_cons_of_mem _ hp, e', he'⟩
        · exact ⟨_, List.mem_cons_self .., e, hi⟩
      · rintro ⟨path, hp, e', he'⟩
        rcases List.mem_cons.mp hp with rfl | hp
        · refine .inr ?_
          have := aliasOf_eq hj.keys_nodup he'
          rw [hname] at this
          exact this.symm
        · exact .inl ⟨path, hp, e', he'⟩
    · rw [List.forall_mem_cons]
      exact ⟨there, h.tables⟩

theorem exhibits_addAll_shown {needs : List Need} {seen : List Path}
    (h : scope.Exhibits base seen) (hj : s.Joined base scope.tables scope.joins)
    (routed : s.Routed base seen needs) (shown : ∀ need ∈ needs, need.step? = need.shownStep?) :
    (scope.addAll needs).Exhibits base ((needs.filterMap Need.step?).map Step.path ++ seen) := by
  induction needs generalizing scope seen with
  | nil => exact h
  | cons need rest ih =>
      rw [addAll, List.foldl_cons]
      rw [List.forall_mem_cons] at shown
      rcases need with ⟨step, _ | _⟩ | path
      · simp [Need.step?, Need.shownStep?] at shown
      · obtain ⟨takes, owner, hrest⟩ := routed
        have joined := joined_addJoin hj takes (h.tables _ owner)
        have there : step.path ∈ (scope.addJoin step).tables.map Prod.fst := by
          rw [tables_addJoin, Keyed.keys_putNew]
          split <;> simp [*]
        have next := (h.addJoin step).addShown joined takes there owner
        have := ih next (by simpa using joined) hrest shown.2
        exact this.congr fun path => by
          simp only [List.filterMap_cons, Need.step?, List.map_cons, List.mem_append, List.mem_cons]
          tauto
      · exact ih (h.addKey path) (by rwa [add, tables_addKey, joins_addKey]) routed shown.2

theorem exhibits_addAll_hidden {needs : List Need} {seen : List Path}
    (h : scope.Exhibits base seen) (hidden : ∀ need ∈ needs, need.shownStep? = none) :
    (scope.addAll needs).Exhibits base seen := by
  induction needs generalizing scope with
  | nil => exact h
  | cons need rest ih =>
      rw [addAll, List.foldl_cons]
      rw [List.forall_mem_cons] at hidden
      rcases need with ⟨step, _ | _⟩ | path
      · exact ih (h.addJoin step) hidden.2
      · simp [Need.shownStep?] at hidden
      · exact ih (h.addKey path) hidden.2

/-! ## Keys -/

theorem mem_keys_addAll {needs : List Need} {path : Path} :
    path ∈ (scope.addAll needs).keys ↔
      path ∈ scope.keys ∨ ∃ need ∈ needs, need.keyPath? = some path := by
  induction needs generalizing scope with
  | nil => simp [addAll]
  | cons need rest ih =>
      rw [addAll, List.foldl_cons, ← addAll, ih]
      have head : path ∈ (scope.add need).keys ↔
          path ∈ scope.keys ∨ need.keyPath? = some path := by
        rcases need with ⟨step, _ | _⟩ | other
        · simp [add, addJoin, Need.keyPath?]
        · simp [add, addShown, addJoin, mem_keys_addKey, Need.keyPath?, eq_comm]
        · simp [add, mem_keys_addKey, Need.keyPath?, eq_comm]
      simp [head, or_assoc]

end Scope
end RowGraph
