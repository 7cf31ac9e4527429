import RowGraph.Proofs.Fields
import RowGraph.Proofs.Moves

/-!
# Levels of a path

A path descends in the schema if it meets bridges and toMany properties only and ends in one of
these (`Schema.Descends`). Then a toMany path opens one child below the other at the levels of the
path, and a field that goes on to a column of the last entity builds to the same chain of children
(`Query.Ladder`). Where the path fails, a field that goes along it does not build, at the query or
further down (`Query.Breaks`).
-/

namespace RowGraph

/-! ## Paths in the schema -/

namespace Schema

variable {s : Schema} {e last : Entity} {path final : Path} {steps : List Step}

/-- A path of bridges and toMany properties from an entity at a join path to an entity behind its
last toMany property, and the levels that it passes. -/
inductive Descends (s : Schema) : Entity → Path → List String → List Level → Entity → Prop where
  | done {e : Entity} : Descends s e .root [] [] e
  | bridge {e next last : Entity} {path : Path} {part boundKey : String} {rest : List String}
      {levels : List Level} (isBridge : s.IsBridge e part boundKey next) (goesOn : rest ≠ [])
      (below : Descends s next (path.enter part) rest levels last) :
      Descends s e path (part :: rest) levels last
  | toMany {e next last : Entity} {path : Path} {part target foreignKey : String}
      {rest : List String} {levels : List Level}
      (isToMany : e.property? part = some (.toMany target foreignKey))
      (found : s.entity? target = some next) (below : Descends s next .root rest levels last) :
      Descends s e path (part :: rest)
        ({ mount := ⟨path, part⟩, target, foreignKey } :: levels) last

inductive Fails (s : Schema) : Entity → List String → Prop where
  | unknown {e : Entity} {part : String} {rest : List String} (unknown : e.property? part = none) :
      Fails s e (part :: rest)
  | column {e : Entity} {part : String} {rest : List String}
      (isColumn : e.property? part = some .column) : Fails s e (part :: rest)
  | bridge {e next : Entity} {part boundKey : String} {rest : List String}
      (isBridge : s.IsBridge e part boundKey next) (below : Fails s next rest) :
      Fails s e (part :: rest)
  | toMany {e next : Entity} {part target foreignKey : String} {rest : List String}
      (isToMany : e.property? part = some (.toMany target foreignKey))
      (found : s.entity? target = some next) (below : Fails s next rest) : Fails s e (part :: rest)

namespace Descends

theorem plain (hs : s.WellFormed) (he : e ∈ s.entities) {parts : List String}
    {levels : List Level} (h : s.Descends e path parts levels last) :
    ∀ part ∈ parts, PlainName part := by
  induction h with
  | done => simp
  | bridge isBridge _ _ ih =>
      obtain ⟨target, hp, hn⟩ := isBridge
      rw [List.forall_mem_cons]
      exact ⟨hs.plainName he hp, ih (mem_of_entity? hn)⟩
  | toMany isToMany found _ ih =>
      rw [List.forall_mem_cons]
      exact ⟨hs.plainName he isToMany, ih (mem_of_entity? found)⟩

theorem mem (he : e ∈ s.entities) {parts : List String} {levels : List Level}
    (h : s.Descends e path parts levels last) : last ∈ s.entities := by
  induction h with
  | done => exact he
  | bridge isBridge _ _ ih => exact ih (mem_of_entity? isBridge.choose_spec.2)
  | toMany _ found _ ih => exact ih (mem_of_entity? found)

theorem split {parts : List String} {levels : List Level}
    (h : s.Descends e path parts levels last) (hne : parts ≠ []) :
    ∃ steps owner level more rest next, s.Chain e path steps owner level.mount.owner ∧
      parts = steps.map (·.bridge) ++ level.mount.property :: rest ∧
      owner.property? level.mount.property = some (.toMany level.target level.foreignKey) ∧
      s.entity? level.target = some next ∧ levels = level :: more ∧
      s.Descends next .root rest more last := by
  induction h with
  | done => exact absurd rfl hne
  | bridge isBridge goesOn _ ih =>
      obtain ⟨steps, owner, level, more, rest, next, chain, rfl, isToMany, found, rfl, below⟩ :=
        ih goesOn
      exact ⟨_ :: steps, owner, level, more, rest, next, .cons isBridge chain, rfl, isToMany,
        found, rfl, below⟩
  | toMany isToMany found below =>
      exact ⟨[], _, _, _, _, _, .nil, rfl, isToMany, found, rfl, below⟩

theorem of_no_levels {parts : List String} (h : s.Descends e path parts [] last) :
    parts = [] ∧ last = e := by
  by_cases hne : parts = []
  · subst hne
    cases h
    exact ⟨rfl, rfl⟩
  · obtain ⟨_, _, _, _, _, _, -, -, -, -, hlevels, -⟩ := h.split hne
    cases hlevels

theorem of_one {parts : List String} {level : Level} (h : s.Descends e path parts [level] last) :
    ∃ steps owner, s.Chain e path steps owner level.mount.owner ∧
      parts = steps.map (·.bridge) ++ [level.mount.property] ∧
      owner.property? level.mount.property = some (.toMany level.target level.foreignKey) ∧
      s.entity? level.target = some last := by
  obtain ⟨steps, owner, first, more, rest, next, chain, rfl, isToMany, found, hlevels, below⟩ :=
    h.split (by rintro rfl; cases h)
  obtain ⟨rfl, rfl⟩ := List.cons.inj hlevels
  obtain ⟨rfl, rfl⟩ := below.of_no_levels
  exact ⟨steps, owner, chain, rfl, isToMany, found⟩

theorem cons_of_bridge {part boundKey target : String} {rest : List String} {next : Entity}
    {levels : List Level} (hp : e.property? part = some (.bridge boundKey target))
    (hn : s.entity? target = some next) : s.Descends e path (part :: rest) levels last ↔
      rest ≠ [] ∧ s.Descends next (path.enter part) rest levels last := by
  constructor
  · rintro (⟨-⟩ | ⟨⟨other, isBridge, found⟩, goesOn, below⟩ | ⟨isToMany, -, -⟩)
    · simp only [hp, Option.some.injEq, Property.bridge.injEq] at isBridge
      obtain ⟨rfl, rfl⟩ := isBridge
      obtain rfl := Option.some.inj (hn.symm.trans found)
      exact ⟨goesOn, below⟩
    · simp [hp] at isToMany
  · rintro ⟨goesOn, below⟩
    exact .bridge ⟨target, hp, hn⟩ goesOn below

theorem cons_of_toMany {part target foreignKey : String} {rest : List String} {next : Entity}
    {levels : List Level} (hp : e.property? part = some (.toMany target foreignKey))
    (hn : s.entity? target = some next) : s.Descends e path (part :: rest) levels last ↔
      ∃ more, levels = { mount := ⟨path, part⟩, target, foreignKey } :: more ∧
        s.Descends next .root rest more last := by
  constructor
  · rintro (⟨-⟩ | ⟨⟨other, isBridge, -⟩, -, -⟩ | ⟨isToMany, found, below⟩)
    · simp [hp] at isBridge
    · simp only [hp, Option.some.injEq, Property.toMany.injEq] at isToMany
      obtain ⟨rfl, rfl⟩ := isToMany
      obtain rfl := Option.some.inj (hn.symm.trans found)
      exact ⟨_, rfl, below⟩
  · rintro ⟨more, rfl, below⟩
    exact .toMany hp hn below

theorem cons_property {part : String} {rest : List String} {levels : List Level}
    (h : s.Descends e path (part :: rest) levels last) :
    e.property? part ≠ none ∧ e.property? part ≠ some .column := by
  cases h with
  | bridge isBridge =>
      obtain ⟨target, hp, -⟩ := isBridge
      simp [hp]
  | toMany isToMany => simp [isToMany]

end Descends

end Schema

/-! ## Walks -/

section walk

variable {s : Settings} {e next last : Entity} {path final : Path} {steps : List Step}
  {place : Place} {field part : String} {rest : List String}

theorem Settings.walk_bridge (star : part ≠ "*") {boundKey : String}
    (isBridge : s.schema.IsBridge e part boundKey next) (goesOn : rest ≠ []) :
    s.walk place field e path (part :: rest) =
      (s.walk place field next (path.enter part) rest).map fun w =>
        { w with steps := { owner := path, bridge := part, boundKey, target := next } :: w.steps } := by
  obtain ⟨target, hp, hn⟩ := isBridge
  conv_lhs => unfold Settings.walk
  simp only [star, if_false, hp, goesOn, hn]
  rfl

theorem Settings.walk_column (star : part ≠ "*") (isColumn : e.property? part = some .column) :
    s.walk place field e path [part] = .ok ⟨[], .columns [.plain path part]⟩ := by
  unfold Settings.walk
  simp [star, isColumn]

theorem Settings.walk_toMany (star : part ≠ "*") {target foreignKey : String}
    (isToMany : e.property? part = some (.toMany target foreignKey)) (goesOn : rest ≠ []) :
    s.walk .select field e path (part :: rest) = .ok ⟨[], .toMany
      { mount := ⟨path, part⟩, target, foreignKey, field := String.intercalate "." rest }⟩ := by
  unfold Settings.walk
  simp [star, isToMany, goesOn]

theorem Schema.Chain.walk_eq (hs : s.schema.WellFormed) (he : e ∈ s.schema.entities)
    (h : s.schema.Chain e path steps last final) (hne : rest ≠ []) :
    s.walk place field e path (steps.map (·.bridge) ++ rest) =
      (s.walk place field last final rest).map fun w => { w with steps := steps ++ w.steps } := by
  induction h with
  | @nil e path =>
      rw [List.map_nil, List.nil_append]
      cases s.walk place field e path rest <;> rfl
  | @cons e next last path final bridge boundKey steps isBridge _ ih =>
      obtain ⟨target, hp, hn⟩ := isBridge
      rw [List.map_cons, List.cons_append, Settings.walk_bridge (hs.plainName he hp).ne_star
        ⟨target, hp, hn⟩ (by simp [hne]), ih (mem_of_entity? hn)]
      cases s.walk place field last final rest <;> rfl

theorem Schema.Chain.walkPath_eq (h : s.schema.Chain e path steps last final) :
    s.walkPath e path (steps.map (·.bridge)) = .ok steps := by
  induction h with
  | nil => rfl
  | cons isBridge _ ih =>
      obtain ⟨target, hp, hn⟩ := isBridge
      simp only [List.map_cons, Settings.walkPath, hp, hn, Step.path, ih, Except.map]

end walk

namespace Settings

variable {s : Settings} {e last : Entity} {path final : Path} {steps : List Step}

theorem levels_eq_iff (hs : s.schema.WellFormed) (he : e ∈ s.schema.entities)
    {expression name : String} {parts : List String} (hne : parts ≠ []) {levels : List Level} :
    s.levels expression name e path parts = (levels, none) ↔
      ∃ last, s.schema.Descends e path parts levels last := by
  induction parts generalizing e path levels with
  | nil => exact absurd rfl hne
  | cons part rest ih =>
      unfold Settings.levels
      cases hp : e.property? part with
      | none =>
          refine ⟨by simp, ?_⟩
          rintro ⟨last, h⟩
          exact absurd hp h.cons_property.1
      | some property =>
          cases property with
          | column =>
              refine ⟨by simp, ?_⟩
              rintro ⟨last, h⟩
              exact absurd hp h.cons_property.2
          | bridge boundKey target =>
              obtain ⟨-, next, hn⟩ := hs.bridge e he _ _ _ hp
              simp only [hn, Schema.Descends.cons_of_bridge hp hn, exists_and_left]
              cases rest with
              | nil => simp [Settings.levels]
              | cons => rw [ih (Schema.mem_of_entity? hn) (by simp)]; simp
          | toMany target foreignKey =>
              obtain ⟨next, hn, -⟩ := hs.toMany e he _ _ _ hp
              simp only [hn, Schema.Descends.cons_of_toMany hp hn]
              by_cases hr : rest = []
              · subst hr
                rw [if_pos rfl]
                constructor
                · intro h
                  exact ⟨next, [], (Prod.mk.inj h).1.symm, .done⟩
                · rintro ⟨last, more, rfl, below⟩
                  cases below
                  rfl
              · rw [if_neg hr]
                constructor
                · intro h
                  obtain ⟨rfl, none⟩ := Prod.mk.inj h
                  obtain ⟨last, below⟩ := (ih (Schema.mem_of_entity? hn) hr).mp (Prod.ext rfl none)
                  exact ⟨last, _, rfl, below⟩
                · rintro ⟨last, more, rfl, below⟩
                  rw [(ih (Schema.mem_of_entity? hn) hr).mpr ⟨last, below⟩]

theorem item_eq {base : Entity} {place : Place} {field : String} (plain : isExclusion field = false)
    (named : fieldPath field ≠ [""]) (fields : List String) :
    s.item base place fields field =
      (s.walk place (Text.trim field) base .root (fieldPath field)).map
        fun walk => { excluded := false, walk } := by
  unfold Settings.item
  split
  · next hc =>
    have blank : Text.trim field = "" := String.toList_injective hc
    rw [fieldPath, blank] at named
    exact absurd (by decide) named
  · next hc => simp [isExclusion, hc] at plain
  · rw [String.ofList_toList]
    rfl

theorem item_column (hs : s.schema.WellFormed) {base : Entity} (hb : base ∈ s.schema.entities)
    {column : String} (hc : base.hasColumn column) (fields : List String) :
    s.item base .select fields column =
      .ok { excluded := false, walk := ⟨[], .columns [.plain .root column]⟩ } := by
  have isColumn := Entity.hasColumn_iff.mp hc
  have plain := hs.plainName hb isColumn
  rw [item_eq plain.isExclusion (by rw [plain.fieldPath_eq]; simpa using plain.1),
    plain.fieldPath_eq, walk_column plain.ne_star isColumn]
  rfl

end Settings

/-! ## Chains of children -/

namespace Query

/-- A query that has one child, which has one child and so on, at some levels, after each has been
opened. -/
inductive Ladder (Opens : Query → Query → Prop) : Query → List Level → Prop where
  | leaf {q next : Query} (opens : Opens q next) (childless : next.children = []) :
      Ladder Opens q []
  | level {q next child : Query} {level : Level} {rest : List Level} (opens : Opens q next)
      (only : next.children = [(level.mount, child)])
      (serves : child.Serves level.target level.foreignKey) (below : Ladder Opens child rest) :
      Ladder Opens q (level :: rest)

def Builds (s : Settings) (q next : Query) : Prop := ∃ compiled, q.build s = (.ok compiled, next)

/-- A query that does not build, or has a child that breaks once it is built. -/
inductive Breaks (s : Settings) : Query → Prop where
  | here {q : Query} {faults : List Fault} (unbuilt : (q.build s).1 = .error faults) : Breaks s q
  | further {q next child : Query} {mount : Mount} (builds : q.Builds s next)
      (held : next.children.lookup mount = some child) (broken : Breaks s child) : Breaks s q

theorem evolves_openLevels (s : Schema) (levels : List Level) (q : Query) :
    q.Evolves (q.openLevels s levels) := by
  cases levels with
  | nil => exact .refl q
  | cons level rest =>
      have related : q.Evolves (q.addRelation level.mount.owner) := by
        unfold addRelation
        split
        · exact .refl q
        · exact ⟨fun _ h => h, rfl, rfl⟩
      exact related.trans ((frames_openChild ..).trans (frames_modifyChild ..)).evolves

theorem children_addRelation (path : Path) (q : Query) :
    (q.addRelation path).children = q.children := by
  unfold addRelation
  split <;> rfl

theorem children_openChild_modifyChild {s : Schema} {q : Query} (childless : q.children = [])
    (mount : Mount) (target foreignKey : String) (change : Query → Query) :
    ((q.openChild s mount target foreignKey).modifyChild mount change).children =
      [(mount, change (newChild s target foreignKey))] := by
  simp [openChild, modifyChild, childless, Keyed.putNew, Keyed.modify]

theorem serves_newChild (s : Schema) (target foreignKey : String) :
    (newChild s target foreignKey).Serves target foreignKey := by
  constructor <;> simp [newChild, setSource, edit]

theorem ladder_openLevels (s : Schema) (levels : List Level) {q : Query}
    (childless : q.children = []) : Ladder Eq (q.openLevels s levels) levels := by
  induction levels generalizing q with
  | nil => exact .leaf rfl childless
  | cons level rest ih =>
      have held := children_addRelation level.mount.owner q
      refine .level rfl (children_openChild_modifyChild (held.trans childless) ..) ?_ (ih rfl)
      exact (evolves_openLevels ..).serves (serves_newChild ..)

theorem Resolves.builds {s : Settings} {q : Query} {base : Entity} {r : Resolution}
    (h : q.Resolves s base r) (faultless : q.faults = []) (fresh : q.compiled = none) :
    ∃ next, q.Builds s next ∧ next.children = (q.forward s.schema r).children := by
  exact ⟨_, ⟨_, build_of_compile fresh (compile_of_resolves h faultless)⟩, rfl⟩

/-! ## A field on its own -/

structure Lone (s : Settings) (q : Query) (e : Entity) (path : List String) : Prop where
  base : q.base? s.schema = some e
  clauses : q.clauses =
    { source := q.clauses.source, selects := q.clauses.selects, forced := q.clauses.forced }
  selects : ∃ list, q.clauses.selects = [list] ∧ Selects list path
  forced : ∀ name ∈ q.clauses.forced, e.hasColumn name
  params : q.params = []
  faults : q.faults = []
  children : q.children = []
  fresh : q.compiled = none

namespace Lone

variable {s : Settings} {q : Query} {e : Entity} {path : List String}

theorem resolves (hs : s.schema.WellFormed) (h : Lone s q e path) (named : path ≠ [""]) {w : Walk}
    (hw : ∀ field, s.walk .select field e .root path = .ok w) :
    ∃ r, q.Resolves s e r ∧ r.hops false = (Item.hop? ⟨false, w⟩).toList ∧ r.hops true = [] := by
  obtain ⟨source, hsource, hentity⟩ := Option.bind_eq_some_iff.mp h.base
  obtain ⟨list, hlist, -, field, hsplit, plain, hpath⟩ := h.selects
  let columns : List Item := q.clauses.forced.map fun name =>
    { excluded := false, walk := ⟨[], .columns [.plain .root name]⟩ }
  have forced : s.items e .select q.clauses.forced = .ok columns := by
    rw [Settings.items, Checked.all_eq_ok_iff, List.map_map]
    refine List.map_congr_left fun name hn => ?_
    rw [s.item_column hs (Schema.mem_of_entity? hentity) (h.forced name hn)]
    rfl
  have fields : s.items e .select q.clauses.fields = .ok [⟨false, w⟩] := by
    have one : q.clauses.fields = [field] := by
      rw [h.clauses]
      simp [Clauses.fields, hlist, hsplit]
    rw [one, Settings.items, Checked.all_eq_ok_iff, List.map_singleton,
      Settings.item_eq plain (by rw [hpath]; exact named), hpath, hw]
    rfl
  have none : columns.filterMap Item.hop? = [] := by
    rw [List.filterMap_eq_nil_iff]
    intro i hi
    obtain ⟨name, -, rfl⟩ := List.mem_map.mp hi
    rfl
  have all : ∀ i ∈ columns ++ [⟨false, w⟩], i.excluded = false := by
    intro i hi
    rcases List.mem_append.mp hi with hf | hw
    · obtain ⟨name, -, rfl⟩ := List.mem_map.mp hf
      rfl
    · rw [List.mem_singleton.mp hw]
  refine ⟨⟨columns, .none, [⟨false, w⟩], [], [], .none, .none, .none, .none⟩, ⟨h.base, ?_⟩, ?_, ?_⟩
  · rw [Settings.check, forced, fields, h.clauses]
    rfl
  · rw [Resolution.hops, List.filter_eq_self.mpr (by simpa using all), List.filterMap_append, none]
    cases hw : Item.hop? ⟨false, w⟩ <;> simp [hw]
  · rw [Resolution.hops, List.filter_eq_nil_iff.mpr (by simpa using all)]
    rfl

theorem build_column (hs : s.schema.WellFormed) {column : String} (h : Lone s q e [column])
    (hc : e.hasColumn column) : ∃ next, q.Builds s next ∧ next.children = [] := by
  have isColumn := Entity.hasColumn_iff.mp hc
  have plain := hs.plainName (mem_of_base? h.base) isColumn
  obtain ⟨r, resolves, none, excluded⟩ := h.resolves hs (by simpa using plain.1)
    fun field => Settings.walk_column plain.ne_star isColumn
  obtain ⟨next, builds, children⟩ := resolves.builds h.faults h.fresh
  refine ⟨next, builds, children.trans ?_⟩
  rw [forward, none, excluded]
  exact h.children

theorem build_toMany (hs : s.schema.WellFormed) {steps : List Step} {owner next : Entity}
    {level : Level} {rest : List String} {column : String}
    (h : Lone s q e (steps.map (·.bridge) ++ level.mount.property :: (rest ++ [column])))
    (chain : s.schema.Chain e .root steps owner level.mount.owner)
    (isToMany : owner.property? level.mount.property = some (.toMany level.target level.foreignKey))
    (found : s.schema.entity? level.target = some next) (plain : ∀ part ∈ rest, PlainName part)
    (hc : PlainName column) :
    ∃ built child, q.Builds s built ∧ built.children = [(level.mount, child)] ∧
      child.Serves level.target level.foreignKey ∧ Lone s child next (rest ++ [column]) := by
  have he := mem_of_base? h.base
  have howner := Schema.entityAt?_mem he chain.entityAt?
  have star := (hs.plainName howner isToMany).ne_star
  have goesOn : rest ++ [column] ≠ [] := by simp
  let hop : Hop :=
    { mount := level.mount
      target := level.target
      foreignKey := level.foreignKey
      field := String.intercalate "." (rest ++ [column]) }
  obtain ⟨r, resolves, hops, excluded⟩ := h.resolves hs (w := ⟨steps, .toMany hop⟩) (by
      cases steps <;> simp) fun field => by
    rw [chain.walk_eq hs he (by simp), Settings.walk_toMany star isToMany goesOn]
    simp [Except.map, hop]
  obtain ⟨built, builds, children⟩ := resolves.builds h.faults h.fresh
  have only : (q.forward s.schema r).children =
      [(level.mount, addField hop.field (newChild s.schema level.target level.foreignKey))] := by
    rw [forward, hops, excluded]
    exact children_openChild_modifyChild h.children ..
  have list := selects_intercalate plain hc
  have child : addField hop.field (newChild s.schema level.target level.foreignKey) =
      select hop.field (newChild s.schema level.target level.foreignKey) := by
    simp [addField, newChild, setSource, edit]
  have nonblank : (Text.trim hop.field).isEmpty = false := by
    simpa [String.isEmpty_iff] using list.nonblank
  obtain ⟨entity, hkey, hcolumn⟩ := hs.toMany owner howner _ _ _ isToMany
  obtain rfl := Option.some.inj (found.symm.trans hkey)
  refine ⟨built, _, builds, children.trans only, ?_, ?_⟩
  · rw [child]
    constructor <;> simp [select, nonblank, newChild, setSource, edit]
  · rw [child, select, nonblank, if_neg Bool.false_ne_true]
    constructor
    · simp [Query.base?, newChild, setSource, edit, found]
    · simp [newChild, setSource, edit]
    · exact ⟨hop.field, by simp [newChild, setSource, edit], list⟩
    · simpa [newChild, setSource, edit] using hcolumn
    · simp [newChild, setSource, edit]
    · simp [newChild, setSource, edit, found]
    · simp [newChild, setSource, edit]
    · simp [newChild, setSource, edit]

theorem ladder (hs : s.schema.WellFormed) {parts : List String} {column : String}
    (h : Lone s q e (parts ++ [column])) {levels : List Level} {last : Entity}
    (descends : s.schema.Descends e .root parts levels last) (hc : last.hasColumn column) :
    Ladder (Builds s) q levels := by
  induction levels generalizing q e parts with
  | nil =>
      obtain ⟨rfl, rfl⟩ := descends.of_no_levels
      obtain ⟨next, builds, childless⟩ := h.build_column hs hc
      exact .leaf builds childless
  | cons level more ih =>
      have he := mem_of_base? h.base
      have names := descends.plain hs he
      have isColumn := Entity.hasColumn_iff.mp hc
      have name := hs.plainName (descends.mem he) isColumn
      obtain ⟨steps, owner, first, others, rest, next, chain, rfl, isToMany, found, hlevels, below⟩ :=
        descends.split (by rintro rfl; cases descends)
      obtain ⟨rfl, rfl⟩ := List.cons.inj hlevels
      rw [List.append_assoc, List.cons_append] at h
      obtain ⟨built, child, builds, only, serves, lone⟩ := h.build_toMany hs chain isToMany found
        (fun part hp => names part (by simp [hp])) name
      exact .level builds only serves (ih lone below)

end Lone

/-! ## Fields that go along a path that fails -/

theorem selects_addField {field other : String} {q : Query} (h : other ∈ q.clauses.selects) :
    other ∈ (q.addField field).clauses.selects := by
  unfold addField select
  split
  · exact h
  · split
    · exact h
    · exact List.mem_append_left _ h

theorem mem_selects_addField {field : String} (nonblank : Text.trim field ≠ "") (q : Query) :
    field ∈ (q.addField field).clauses.selects := by
  unfold addField select
  split
  · assumption
  · rw [if_neg (by simpa [String.isEmpty_iff] using nonblank)]
    exact List.mem_append_right _ (List.mem_singleton_self _)

def HasField (mount : Mount) (field : String) (q : Query) : Prop :=
  ∃ child, q.children.lookup mount = some child ∧ field ∈ child.clauses.selects

namespace HasField

variable {s : Schema} {mount : Mount} {field : String} {q : Query}

theorem modifyChild (h : q.HasField mount field) (other : Mount) (added : String) :
    (q.modifyChild other (addField added)).HasField mount field := by
  obtain ⟨child, found, member⟩ := h
  by_cases same : mount = other
  · subst same
    exact ⟨_, lookup_modifyChild found _, selects_addField member⟩
  · refine ⟨child, ?_, member⟩
    rw [Query.modifyChild, Keyed.lookup_modify, if_neg same]
    exact found

theorem openChild (h : q.HasField mount field) (other : Mount) (target foreignKey : String) :
    (q.openChild s other target foreignKey).HasField mount field := by
  obtain ⟨child, found, member⟩ := h
  refine ⟨child, ?_, member⟩
  rw [Query.openChild, Keyed.putNew]
  split
  · exact found
  · rw [List.lookup_append, found]
    rfl

theorem foldl {f : Query → Hop → Query}
    (hf : ∀ q hop, HasField mount field q → HasField mount field (f q hop)) (hops : List Hop)
    (h : q.HasField mount field) : (hops.foldl f q).HasField mount field := by
  induction hops generalizing q with
  | nil => exact h
  | cons hop rest ih => exact ih (hf q hop h)

end HasField

theorem hasField_forward (s : Schema) {r : Resolution} {hop : Hop} (hm : hop ∈ r.hops false)
    (nonblank : Text.trim hop.field ≠ "") (q : Query) :
    (q.forward s r).HasField hop.mount hop.field := by
  obtain ⟨front, back, hops⟩ := List.append_of_mem hm
  rw [forward, hops, List.foldl_append, List.foldl_cons]
  apply HasField.foldl fun q other h => h.modifyChild other.mount _
  apply HasField.foldl fun q other h => (h.openChild other.mount ..).modifyChild other.mount _
  generalize front.foldl (forwardPlain s) q = middle
  have there := mem_mounts_openChild s hop.mount hop.target hop.foreignKey middle
  obtain ⟨child, found⟩ := Option.isSome_iff_exists.mp (Keyed.lookup_isSome_iff_mem.mpr there)
  exact ⟨_, lookup_modifyChild found _, mem_selects_addField nonblank child⟩

structure Fresh (q : Query) : Prop where
  uncompiled : q.compiled = none
  childless : q.children = []

theorem Fresh.addField {q : Query} (h : q.Fresh) (field : String) : (q.addField field).Fresh := by
  unfold Query.addField Query.select
  split
  · exact h
  · split
    · exact h
    · exact ⟨rfl, h.childless⟩

theorem fresh_forward (s : Schema) (r : Resolution) {q : Query}
    (h : ∀ entry ∈ q.children, entry.2.Fresh) : ∀ entry ∈ (q.forward s r).children, entry.2.Fresh := by
  have modified : ∀ (q : Query) (mount : Mount) (field : String),
      (∀ entry ∈ q.children, entry.2.Fresh) →
        ∀ entry ∈ (q.modifyChild mount (addField field)).children, entry.2.Fresh := by
    intro q mount field hq entry he
    rcases Keyed.mem_modify he with hm | ⟨child, found, rfl⟩
    · exact hq entry hm
    · exact (hq _ (Keyed.mem_of_lookup found)).addField field
  have folded : ∀ {f : Query → Hop → Query} (_ : ∀ q hop, (∀ entry ∈ q.children, entry.2.Fresh) →
      ∀ entry ∈ (f q hop).children, entry.2.Fresh) (hops : List Hop) (q : Query),
      (∀ entry ∈ q.children, entry.2.Fresh) →
        ∀ entry ∈ (hops.foldl f q).children, entry.2.Fresh := by
    intro f hf hops
    induction hops with
    | nil => exact fun _ hq => hq
    | cons hop rest ih => exact fun q hq => ih _ (hf q hop hq)
  refine folded (fun q hop => modified q hop.mount _) _ _ (folded (fun q hop hq => ?_) _ _ h)
  refine modified _ hop.mount _ fun entry he => ?_
  rcases Keyed.mem_putNew he with hm | rfl
  · exact hq entry hm
  · exact ⟨rfl, rfl⟩

end Query

section fails

variable {s : Settings} {e last : Entity} {path final : Path} {steps : List Step}

theorem Settings.Ends.of_goesOn {part : String} {rest : List String} {goal : Goal}
    (h : s.Ends .select e path (part :: rest) goal) (goesOn : rest ≠ []) :
    ∃ target foreignKey, e.property? part = some (.toMany target foreignKey) ∧
      goal = .toMany
        { mount := ⟨path, part⟩, target, foreignKey, field := String.intercalate "." rest } := by
  cases h with
  | toMany _ isToMany => exact ⟨_, _, isToMany, rfl⟩
  | star | column | affix => exact absurd rfl goesOn

/-- A field that goes further along a path that fails is handed to a child, where what is left of
the path fails. -/
theorem Schema.Fails.hop {parts more rest : List String} {goal : Goal} (h : s.schema.Fails e parts)
    (chain : s.schema.Chain e path steps last final)
    (hpath : parts ++ more = steps.map (·.bridge) ++ rest) (ends : s.Ends .select last final rest goal)
    (goesOn : more ≠ []) : ∃ hop front left next, goal = .toMany hop ∧ parts = front ++ left ∧
      front ≠ [] ∧ hop.field = String.intercalate "." (left ++ more) ∧
      s.schema.entity? hop.target = some next ∧ s.schema.Fails next left := by
  induction h generalizing path steps with
  | @unknown e part rest unknown =>
      cases chain with
      | nil =>
          subst hpath
          obtain ⟨_, _, isToMany, -⟩ := ends.of_goesOn (by simp [goesOn])
          simp [unknown] at isToMany
      | cons isBridge =>
          obtain ⟨target, hp, -⟩ := isBridge
          obtain ⟨rfl, -⟩ := List.cons.inj hpath
          simp [unknown] at hp
  | @column e part rest isColumn =>
      cases chain with
      | nil =>
          subst hpath
          obtain ⟨_, _, isToMany, -⟩ := ends.of_goesOn (by simp [goesOn])
          simp [isColumn] at isToMany
      | cons isBridge =>
          obtain ⟨target, hp, -⟩ := isBridge
          obtain ⟨rfl, -⟩ := List.cons.inj hpath
          simp [isColumn] at hp
  | @bridge e next part boundKey rest isBridge _ ih =>
      obtain ⟨target, hp, hn⟩ := isBridge
      cases chain with
      | nil =>
          subst hpath
          obtain ⟨_, _, isToMany, -⟩ := ends.of_goesOn (by simp [goesOn])
          simp [hp] at isToMany
      | cons isBridge further =>
          obtain ⟨other, hq, ho⟩ := isBridge
          obtain ⟨rfl, hrest⟩ := List.cons.inj hpath
          simp only [hp, Option.some.injEq, Property.bridge.injEq] at hq
          obtain ⟨rfl, rfl⟩ := hq
          obtain rfl := Option.some.inj (hn.symm.trans ho)
          obtain ⟨hop, front, left, next, hgoal, rfl, -, result⟩ := ih further hrest
          exact ⟨hop, _ :: front, left, next, hgoal, rfl, by simp, result⟩
  | @toMany e next part target foreignKey rest isToMany found below =>
      cases chain with
      | nil =>
          subst hpath
          obtain ⟨other, otherKey, hp, rfl⟩ := ends.of_goesOn (by simp [goesOn])
          simp only [isToMany, Option.some.injEq, Property.toMany.injEq] at hp
          obtain ⟨rfl, rfl⟩ := hp
          exact ⟨_, [part], rest, next, rfl, rfl, by simp, rfl, found, below⟩
      | cons isBridge =>
          obtain ⟨other, hp, -⟩ := isBridge
          obtain ⟨rfl, -⟩ := List.cons.inj hpath
          simp [isToMany] at hp

theorem Schema.Fails.ne_nil {s : Schema} {parts : List String} (h : s.Fails e parts) :
    parts ≠ [] := by
  cases h <;> simp

namespace Query

theorem breaks_of_fails (hs : s.schema.WellFormed) {q : Query} (sound : Sound s q) (fresh : q.Fresh)
    (hb : q.base? s.schema = some e) {path rest : String}
    (plain : ∀ part ∈ pathParts path, PlainName part)
    (selects : path ++ "." ++ rest ∈ q.clauses.selects) (fails : s.schema.Fails e (pathParts path)) :
    Breaks s q := by
  induction hn : (pathParts path).length using Nat.strong_induction_on generalizing q e path rest with
  | _ n ih =>
  obtain ⟨built, frames, -⟩ := sound.build
  cases hbuild : q.build s with
  | mk result next =>
      rw [hbuild] at built frames
      cases result with
      | error faults => exact .here (by rw [hbuild])
      | ok compiled =>
          obtain ⟨base, r, resolves, rfl⟩ := resolves_of_build fresh.uncompiled hbuild
          obtain rfl := Option.some.inj (hb.symm.trans resolves.entity)
          have he := mem_of_base? hb
          obtain ⟨first, others, more, hsplit, hplain, goesOn, hpath⟩ := splitFields_dotted plain rest
          have field : first ∈ q.clauses.fields := by
            apply q.clauses.listed_subset_fields
            rw [Clauses.listed, List.mem_append, List.mem_flatMap]
            exact .inl ⟨_, selects, by simp [hsplit]⟩
          obtain ⟨i, hi, follows⟩ :=
            exists_of_forall₂ (Settings.check_ok resolves.resolution).fields.flip field
          obtain ⟨last, final, back, chain, hitem, ends⟩ := follows.walk
          rw [itemPath_of_not hplain, hpath] at hitem
          obtain ⟨hop, front, left, target, hgoal, hparts, some, hfield, found, below⟩ :=
            fails.hop chain hitem ends goesOn
          have hhop : i.hop? = .some hop := by rw [Item.hop?, hgoal]
          have hm : hop ∈ r.hops false := by
            refine List.mem_filterMap.mpr ⟨i, List.mem_filter.mpr ⟨by simp [hi], ?_⟩, hhop⟩
            rw [follows.excluded, hplain]
            rfl
          have names : ∀ part ∈ left, PlainName part := fun part hp => plain part (by simp [hparts, hp])
          have parts := pathParts_intercalate names below.ne_nil
          have dotted : hop.field =
              String.intercalate "." left ++ "." ++ String.intercalate "." more := by
            rw [hfield, String.intercalate_append_of_ne_nil below.ne_nil goesOn]
          obtain ⟨child, held, member⟩ := hasField_forward s.schema hm
            (by rw [dotted]; exact trim_dotted_ne _ _) q
          have entry := Keyed.mem_of_lookup held
          -- the child selects from the target of the property, whichever field opened it
          obtain ⟨_, _, mounts, serves⟩ := (built.tied hs.named).child
            (by rw [Query.base?, frames.clauses]; exact hb) entry
          obtain ⟨rfl, -⟩ := mounts.target_eq (follows.mounts hs.named he hhop).1
          refine .further ⟨compiled, hbuild⟩ held ?_
          refine ih left.length ?_ (built.child entry)
            (fresh_forward s.schema r (by simp [fresh.childless]) _ entry)
            (serves.base?.trans found) (by rw [parts]; exact names) (by rw [← dotted]; exact member)
            (by rw [parts]; exact below) (by rw [parts])
          rw [← hn, hparts, List.length_append]
          have := List.length_pos_iff.mpr some
          omega

end Query

end fails

end RowGraph
