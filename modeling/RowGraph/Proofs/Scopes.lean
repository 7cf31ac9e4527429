import RowGraph.Proofs.Columns
import RowGraph.Proofs.Scope

/-!
# The scopes of resolved clauses

The tables of a statement are those of the bridge paths that its clauses refer to, each once, in
order of first use (`Clauses.joinPaths`, `Settings.Resolved.tables_whole`). The references are a
matter of the text of the clauses, which `Clauses.referencedPaths` reads off.
-/

namespace RowGraph

/-! ## Paths that clauses refer to -/

def references (expression : String) : List (List String) :=
  (segments expression).filterMap fun
    | .literal _ => none
    | .reference field => some (fieldPath (Text.trim field))

namespace Clauses

def expressionTexts (c : Clauses) : List String :=
  c.expressions ++ c.filter.toList ++ c.group.toList ++ (c.having.map Prod.fst).toList ++
    c.order.toList

/-- The dotted parts of what becomes objects: the index, the fields of the select list that exclude
nothing, and the toMany paths. -/
def graphPaths (c : Clauses) : List (List String) :=
  (match c.index with
    | some (.field name) => [fieldPath name]
    | _ => []) ++
    (c.fields.filter fun field => !isExclusion field).map fieldPath ++
    c.relations.map (·.bridges)

/-- The dotted parts of everything that the clauses refer to: what becomes objects, and the
references of the expressions. -/
def referencedPaths (c : Clauses) : List (List String) :=
  c.graphPaths ++ c.expressionTexts.flatMap references

/-- The bridge paths that the clauses refer to, each once. -/
def joinPaths (s : Schema) (base : Entity) (c : Clauses) : List (List String) :=
  Keyed.distinct (c.referencedPaths.flatMap (s.bridgePaths base))

end Clauses

/-! ## Needs of single clauses -/

def stepPaths (needs : List Need) : List (List String) :=
  (needs.filterMap Need.step?).map (·.path.bridges)

theorem stepPaths_append (needs more : List Need) :
    stepPaths (needs ++ more) = stepPaths needs ++ stepPaths more := by
  simp [stepPaths]

theorem stepPaths_flatMap {α : Type} (f : α → List Need) (items : List α) :
    stepPaths (items.flatMap f) = items.flatMap fun item => stepPaths (f item) := by
  induction items with
  | nil => rfl
  | cons item rest ih => rw [List.flatMap_cons, stepPaths_append, ih, List.flatMap_cons]

theorem stepPaths_joins (steps : List Step) (shown : Bool) :
    stepPaths (steps.map (Need.join · shown)) = steps.map (·.path.bridges) := by
  induction steps with
  | nil => rfl
  | cons step rest ih => simpa [stepPaths, Need.step?] using ih

theorem stepPaths_needs (i : Item) (shown : Bool) : stepPaths (i.needs shown) =
    if i.excluded then [] else i.walk.steps.map (·.path.bridges) := by
  unfold Item.needs
  split
  · rfl
  · dsimp only
    split
    · exact stepPaths_joins ..
    · rw [stepPaths_append, stepPaths_joins]
      simp [stepPaths, Need.step?]

theorem stepPaths_pathNeeds (steps : List Step) :
    stepPaths (pathNeeds steps) = steps.map (·.path.bridges) := by
  rw [pathNeeds, stepPaths_append, stepPaths_joins]
  simp [stepPaths, Need.step?]

theorem flatMap_eq_of_forall₂ {α β γ : Type} {R : α → β → Prop} {f : α → List γ} {g : β → List γ}
    {as : List α} {bs : List β} (h : List.Forall₂ R as bs)
    (heq : ∀ a ∈ as, ∀ b, R a b → g b = f a) : bs.flatMap g = as.flatMap f := by
  induction h with
  | nil => rfl
  | cons hr _ ih =>
      rw [List.forall_mem_cons] at heq
      rw [List.flatMap_cons, List.flatMap_cons, heq.1 _ hr, ih heq.2]

theorem flatMap_filter_map {α β γ : Type} (p : α → Bool) (f : α → β) (g : β → List γ)
    (items : List α) : ((items.filter p).map f).flatMap g =
      items.flatMap fun item => if p item then g (f item) else [] := by
  induction items with
  | nil => rfl
  | cons item rest ih => by_cases h : p item <;> simp [h, ← ih, List.flatMap_map]

section

variable {s : Settings} {base : Entity} (named : s.schema.Named) (hb : base ∈ s.schema.entities)

include named hb

theorem Settings.Follows.routed {place : Place} {field : String} {i : Item}
    (h : s.Follows base place field i) (shown : Bool) :
    s.schema.Routed base [.root] (i.needs shown) := by
  obtain ⟨last, final, rest, chain, -, -⟩ := h.walk
  have joins := chain.routed named hb rfl (List.mem_singleton_self _) shown
  unfold Item.needs
  split
  · trivial
  · dsimp only
    split
    · exact joins
    · exact joins.append trivial

theorem Settings.Reaches.routed {path : Path} {steps : List Step} (h : s.Reaches base path steps) :
    s.schema.Routed base [.root] (pathNeeds steps) := by
  obtain ⟨last, final, chain, -⟩ := h
  exact (chain.routed named hb rfl (List.mem_singleton_self _) true).append trivial

theorem Settings.Fills.routed {expression : String} {t : Template} (h : s.Fills base expression t) :
    s.schema.Routed base [.root] (t.items.flatMap (·.needs false)) := by
  refine .flatMap fun i hi => ?_
  obtain ⟨part, hp, hitem⟩ := List.mem_filterMap.mp hi
  obtain ⟨segment, -, replaces⟩ := exists_of_forall₂ h hp
  cases replaces with
  | literal text => cases hitem
  | reference follows =>
      cases hitem
      exact follows.routed named hb false

end

section

variable {s : Settings} {base : Entity} (hs : s.schema.WellFormed)
  (hb : base ∈ s.schema.entities)

include hs hb

theorem Settings.Follows.stepPaths {place : Place} {field : String} {i : Item}
    (h : s.Follows base place field i) (shown : Bool) : stepPaths (i.needs shown) =
      if isExclusion field then [] else s.schema.bridgePaths base (fieldPath field) := by
  rw [stepPaths_needs, h.excluded]
  split
  · rfl
  · next hplain =>
    obtain ⟨last, final, rest, chain, hpath, ends⟩ := h.walk
    have hlast := Schema.entityAt?_mem hb chain.entityAt?
    rw [chain.paths_eq hs hb (ends.bridgePaths_eq hs hlast), ← hpath,
      itemPath_of_not (by simpa using hplain)]
    simp

theorem Settings.Reaches.stepPaths {path : Path} {steps : List Step} (h : s.Reaches base path steps)
    (hat : (s.schema.entityAt? base path.bridges).isSome) :
    stepPaths (pathNeeds steps) = s.schema.bridgePaths base path.bridges := by
  obtain ⟨last, final, chain, hpath⟩ := h
  rw [Schema.filter_of_entityAt? hs.named hb hat] at hpath
  have nothing : s.schema.bridgePaths last [] = [] := rfl
  rw [stepPaths_pathNeeds, chain.paths_eq hs hb nothing, List.append_nil, ← hpath]
  simp

theorem Settings.Fills.stepPaths {expression : String} {t : Template}
    (h : s.Fills base expression t) :
    stepPaths (t.items.flatMap (·.needs false)) =
      (references expression).flatMap (s.schema.bridgePaths base) := by
  unfold Settings.Fills at h
  rw [references]
  generalize segments expression = parts at h ⊢
  induction h with
  | nil => rfl
  | cons hr _ ih =>
      cases hr with
      | literal text => exact ih
      | reference follows =>
          have plain := follows.plain (by decide)
          have first := follows.stepPaths hs hb false
          rw [if_neg (by simp [plain])] at first
          rw [List.filterMap_cons, List.flatMap_cons, ← ih, ← first, ← stepPaths_append]
          rfl

end

/-! ## Needs of all clauses -/

theorem forall₂_toList {α β : Type} {R : α → β → Prop} {a : Option α} {b : Option β}
    (h : Option.Rel R a b) : List.Forall₂ R a.toList b.toList := by
  cases h with
  | some h => exact .cons h .nil
  | none => exact .nil

theorem Settings.Resolved.templates {s : Settings} {base : Entity} {c : Clauses}
    {bindings : List Binding} {r : Resolution} (h : s.Resolved base c bindings r) :
    List.Forall₂ (s.Fills base) c.expressionTexts r.templates := by
  have filter : List.Forall₂ (s.Fills base) c.filter.toList (r.filter.map (·.template)).toList := by
    have hf := h.filter
    generalize c.filter = expression at hf
    generalize r.filter = found at hf ⊢
    cases hf with
    | some hf => exact .cons hf.fills .nil
    | none => exact .nil
  exact List.rel_append (List.rel_append (List.rel_append (List.rel_append h.expressions filter)
    (forall₂_toList h.group)) (forall₂_toList h.having)) (forall₂_toList h.order)

section

variable {s : Settings} {base : Entity} {c : Clauses} {bindings : List Binding} {r : Resolution}
  (named : s.schema.Named) (hb : base ∈ s.schema.entities)
  (resolved : s.Resolved base c bindings r)

include named hb resolved

theorem Settings.Resolved.routed_shown : s.schema.Routed base [.root] r.shownNeeds := by
  have fields : ∀ {texts items}, List.Forall₂ (s.Follows base .select) texts items →
      s.schema.Routed base [.root] (items.flatMap (Item.needs true)) := fun h =>
    .flatMap fun i hi =>
      let ⟨_, _, follows⟩ := exists_of_forall₂ h hi
      follows.routed named hb true
  have index : s.schema.Routed base [.root] (r.index.toList.flatMap (Item.needs true)) := by
    have hi := resolved.index
    generalize c.index = index at hi
    generalize r.index = item at hi ⊢
    cases hi with
    | field follows => simpa using follows.routed named hb true
    | computed => trivial
    | none => trivial
  have relations : s.schema.Routed base [.root] (r.relations.flatMap pathNeeds) :=
    .flatMap fun steps hm =>
      let ⟨_, _, reaches⟩ := exists_of_forall₂ resolved.relations hm
      reaches.routed named hb
  exact (((fields resolved.forced).append index).append (fields resolved.fields)).append relations

theorem Settings.Resolved.routed_other : s.schema.Routed base [.root] r.otherNeeds :=
  .flatMap fun _ ht =>
    let ⟨_, _, fills⟩ := exists_of_forall₂ resolved.templates ht
    fills.routed named hb

theorem Settings.Resolved.joined :
    s.schema.Joined base (r.scopes base).whole.tables (r.scopes base).whole.joins := by
  have joined := Scope.joined_base s.schema base
  have shown := Scope.joined_addAll joined (resolved.routed_shown named hb)
  have kept : [Path.root] ⊆ ((Scope.base base).addAll r.shownNeeds).tables.map Prod.fst := by
    intro path hp
    rw [Scope.paths_addAll (by simp [Scope.base]), Keyed.mem_distinct]
    exact List.mem_append_left _ hp
  exact Scope.joined_addAll shown ((resolved.routed_other named hb).mono kept)

end

section

variable {s : Settings} {base : Entity} {c : Clauses} {bindings : List Binding} {r : Resolution}
  (hs : s.schema.WellFormed) (hb : base ∈ s.schema.entities)
  (resolved : s.Resolved base c bindings r)

include hs hb resolved

theorem Settings.Resolved.stepPaths_shown (forced : ∀ name ∈ c.forced, base.hasColumn name)
    (relations : ∀ path ∈ c.relations, (s.schema.entityAt? base path.bridges).isSome) :
    stepPaths r.shownNeeds = c.graphPaths.flatMap (s.schema.bridgePaths base) := by
  have fields : ∀ {texts items}, List.Forall₂ (s.Follows base .select) texts items →
      stepPaths (items.flatMap (Item.needs true)) =
        ((texts.filter fun field => !isExclusion field).map fieldPath).flatMap
          (s.schema.bridgePaths base) := by
    intro texts items h
    rw [stepPaths_flatMap, flatMap_eq_of_forall₂ h fun _ _ _ follows => follows.stepPaths hs hb true,
      flatMap_filter_map]
    refine List.flatMap_congr fun field _ => ?_
    cases isExclusion field <;> rfl
  have hforced : stepPaths (r.forced.flatMap (Item.needs true)) = [] := by
    rw [fields resolved.forced, List.flatMap_eq_nil_iff]
    intro path hp
    obtain ⟨name, hn, rfl⟩ := List.mem_map.mp hp
    have hcol := Entity.hasColumn_iff.mp (forced name (List.mem_of_mem_filter hn))
    rw [(hs.plainName hb hcol).fieldPath_eq, Schema.bridgePaths_cons_of_not (by simp [hcol])]
  have hindex : stepPaths (r.index.toList.flatMap (Item.needs true)) =
      (match c.index with
        | some (.field name) => [fieldPath name]
        | _ => []).flatMap (s.schema.bridgePaths base) := by
    have hi := resolved.index
    generalize c.index = index at hi ⊢
    generalize r.index = item at hi ⊢
    cases hi with
    | field follows =>
        have first := follows.stepPaths hs hb true
        rw [if_neg (by simp [follows.plain (by decide)])] at first
        simpa using first
    | computed => rfl
    | none => rfl
  have hrelations : stepPaths (r.relations.flatMap pathNeeds) =
      (c.relations.map (·.bridges)).flatMap (s.schema.bridgePaths base) := by
    rw [stepPaths_flatMap, flatMap_eq_of_forall₂ resolved.relations fun path hp _ reaches =>
      reaches.stepPaths hs hb (relations path hp), List.flatMap_map]
  rw [Resolution.shownNeeds, stepPaths_append, stepPaths_append, stepPaths_append, hforced, hindex,
    fields resolved.fields, hrelations, List.nil_append, Clauses.graphPaths, List.flatMap_append,
    List.flatMap_append]

theorem Settings.Resolved.stepPaths_eq (forced : ∀ name ∈ c.forced, base.hasColumn name)
    (relations : ∀ path ∈ c.relations, (s.schema.entityAt? base path.bridges).isSome) :
    stepPaths (r.shownNeeds ++ r.otherNeeds) =
      c.referencedPaths.flatMap (s.schema.bridgePaths base) := by
  have hother : stepPaths r.otherNeeds =
      (c.expressionTexts.flatMap references).flatMap (s.schema.bridgePaths base) := by
    rw [Resolution.otherNeeds, stepPaths_flatMap,
      flatMap_eq_of_forall₂ resolved.templates fun _ _ _ fills => fills.stepPaths hs hb,
      List.flatMap_assoc]
  rw [stepPaths_append, resolved.stepPaths_shown hs hb forced relations, hother,
    Clauses.referencedPaths, List.flatMap_append]

/-- The tables of the statement: the base table, and one for each path, in order of first use. -/
theorem Settings.Resolved.tables_whole (forced : ∀ name ∈ c.forced, base.hasColumn name)
    (relations : ∀ path ∈ c.relations, (s.schema.entityAt? base path.bridges).isSome) :
    (r.scopes base).whole.tables.map (·.1.bridges) = [] :: c.joinPaths s.schema base := by
  have whole : (r.scopes base).whole = (Scope.base base).addAll (r.shownNeeds ++ r.otherNeeds) := by
    simp [Resolution.scopes, Scope.addAll]
  have bridges : Function.Injective Path.bridges := fun _ _ h => Path.ext h
  have paths := Scope.paths_addAll
    (show ((Scope.base base).tables.map Prod.fst).Nodup by simp [Scope.base]) (r.shownNeeds ++ r.otherNeeds)
  rw [← whole] at paths
  have fold : (r.scopes base).whole.tables.map (·.1.bridges) =
      ((r.scopes base).whole.tables.map Prod.fst).map Path.bridges := by simp
  have all : ((Scope.base base).tables.map Prod.fst ++
      ((r.shownNeeds ++ r.otherNeeds).filterMap Need.step?).map Step.path).map Path.bridges =
      [] :: stepPaths (r.shownNeeds ++ r.otherNeeds) := by
    simp [Scope.base, stepPaths, Function.comp_def]
  rw [fold, paths, ← Keyed.distinct_map bridges, all, resolved.stepPaths_eq hs hb forced relations]
  have new : [] ∉ c.referencedPaths.flatMap (s.schema.bridgePaths base) := by
    intro hm
    obtain ⟨path, -, hp⟩ := List.mem_flatMap.mp hm
    exact (Schema.mem_bridgePaths.mp hp).1 rfl
  rw [Keyed.distinct_cons_of_not_mem new, Clauses.joinPaths]

end

end RowGraph
