import Mathlib.Data.List.Infix
import RowGraph.Proofs.Keyed
import RowGraph.Schema.Declaration
import RowGraph.Text.Blank
import RowGraph.Text.Split

/-!
# Schemas of plain names

A schema that comes from declarations with plain property names is well-formed
(`wellFormed_ofDeclarations`): names lead to one property each, keys are columns, and the target
of every relation is there. `Schema.entityAt?` follows bridges from an entity, and
`Schema.bridgePaths` lists the paths of bridges that a dotted field begins with.
-/

namespace RowGraph

/-! ## Plain names -/

/-- A name without blanks around it and without the characters that mean something in a field. -/
def PlainName (name : String) : Prop :=
  name ≠ "" ∧ (∀ c ∈ name.toList, c ∉ ['.', ',', '\x7b', '\x7d', '!', '*']) ∧ Text.trim name = name

-- the characters of the name are gone through, not all characters
instance (name : String) : Decidable (PlainName name) :=
  @instDecidableAnd _ _ inferInstance
    (@instDecidableAnd _ _ (List.decidableBAll _ _) inferInstance)

def Part.property? : Part → Option String
  | .column name => some name
  | .bridge name _ _ => some name
  | .toMany name _ _ => some name
  | _ => none

def Declaration.Plain (d : Declaration) : Prop :=
  ∀ part ∈ d.parts, ∀ name ∈ part.property?, PlainName name

def Declaration.Named (d : Declaration) : Prop :=
  ∀ part ∈ d.parts, ∀ name ∈ part.property?, name ≠ ""

theorem Declaration.Plain.named {d : Declaration} (h : d.Plain) : d.Named :=
  fun part held name is => (h part held name is).1

theorem PlainName.ne_star {name : String} (h : PlainName name) : name ≠ "*" := by
  rintro rfl
  exact h.2.1 '*' (by decide) (by simp)

def fieldPath (field : String) : List String := (Text.split '.' (Text.trim field)).map Text.trim

theorem Text.pieces_of_not_mem {separator : Char} {cs : List Char} (h : separator ∉ cs) :
    Text.pieces separator cs = [cs] := by
  induction cs with
  | nil => rfl
  | cons c cs ih =>
      rw [List.mem_cons, not_or] at h
      rw [Text.pieces, if_neg (Ne.symm h.1), ih h.2]

theorem PlainName.fieldPath_eq {name : String} (h : PlainName name) : fieldPath name = [name] := by
  have hd : '.' ∉ name.toList := fun hm => h.2.1 '.' hm (by simp)
  rw [fieldPath, h.2.2, Text.split, Text.pieces_of_not_mem hd]
  simp [h.2.2]

/-! ## Well-formed schemas -/

structure Schema.WellFormed (s : Schema) : Prop where
  keys : ∀ e ∈ s.entities, (e.properties.map Prod.fst).Nodup
  plain : ∀ e ∈ s.entities, ∀ p ∈ e.properties, PlainName p.1
  primaryKey : ∀ e ∈ s.entities, e.hasColumn e.primaryKey
  bridge : ∀ e ∈ s.entities, ∀ name boundKey target,
    e.property? name = some (.bridge boundKey target) →
      e.hasColumn boundKey ∧ ∃ next, s.entity? target = some next
  toMany : ∀ e ∈ s.entities, ∀ name target foreignKey,
    e.property? name = some (.toMany target foreignKey) →
      ∃ next, s.entity? target = some next ∧ next.hasColumn foreignKey
  discriminator : ∀ e ∈ s.entities, ∀ d ∈ e.discriminator, e.hasColumn d.column

structure Schema.Named (s : Schema) : Prop where
  keys : ∀ e ∈ s.entities, (e.properties.map Prod.fst).Nodup
  named : ∀ e ∈ s.entities, ∀ p ∈ e.properties, p.1 ≠ ""
  primaryKey : ∀ e ∈ s.entities, e.hasColumn e.primaryKey
  toMany : ∀ e ∈ s.entities, ∀ name target foreignKey,
    e.property? name = some (.toMany target foreignKey) →
      ∃ next, s.entity? target = some next ∧ next.hasColumn foreignKey

theorem Schema.WellFormed.named {s : Schema} (h : s.WellFormed) : s.Named :=
  ⟨h.keys, fun e he p hp => (h.plain e he p hp).1, h.primaryKey, h.toMany⟩

theorem Schema.mem_of_entity? {s : Schema} {name : String} {e : Entity}
    (h : s.entity? name = some e) : e ∈ s.entities :=
  List.mem_of_find?_eq_some h

theorem Entity.mem_of_property? {e : Entity} {name : String} {p : Property}
    (h : e.property? name = some p) : (name, p) ∈ e.properties :=
  Keyed.mem_of_lookup h

theorem Entity.hasColumn_iff {e : Entity} {name : String} :
    e.hasColumn name ↔ e.property? name = some .column := by
  simp [Entity.hasColumn]

theorem Entity.mem_columns_of_property? {e : Entity} {name : String}
    (h : e.property? name = some .column) : name ∈ e.columns :=
  List.mem_filterMap.mpr ⟨(name, .column), Entity.mem_of_property? h, by simp⟩

theorem Entity.mem_columns {e : Entity} (keys : (e.properties.map Prod.fst).Nodup) {name : String} :
    name ∈ e.columns ↔ e.hasColumn name := by
  rw [Entity.hasColumn_iff]
  refine ⟨fun listed => ?_, Entity.mem_columns_of_property?⟩
  obtain ⟨⟨n, p⟩, hm, hp⟩ := List.mem_filterMap.mp listed
  by_cases hc : p = .column
  · simp only [hc, if_true, Option.some.injEq] at hp
    exact Keyed.lookup_of_mem keys (by rwa [hp, hc] at hm)
  · simp [hc] at hp

theorem Schema.Named.ne_empty {s : Schema} (h : s.Named) {e : Entity} (he : e ∈ s.entities)
    {name : String} {p : Property} (hp : e.property? name = some p) : name ≠ "" :=
  h.named e he _ (Entity.mem_of_property? hp)

namespace Schema.WellFormed

variable {s : Schema} {e : Entity} {name : String}

theorem plainName (h : s.WellFormed) (he : e ∈ s.entities) {p : Property}
    (hp : e.property? name = some p) : PlainName name :=
  h.plain e he _ (Entity.mem_of_property? hp)

theorem not_star (h : s.WellFormed) (he : e ∈ s.entities) : e.property? "*" = none := by
  cases hp : e.property? "*" with
  | none => rfl
  | some p => exact absurd rfl (h.plainName he hp).ne_star

theorem mem_columns (h : s.WellFormed) (he : e ∈ s.entities) :
    name ∈ e.columns ↔ e.hasColumn name :=
  Entity.mem_columns (h.keys e he)

end Schema.WellFormed

/-! ## Schemas of declarations -/

theorem forM_ok_iff {α ε : Type} {f : α → Except ε Unit} {items : List α} :
    items.forM f = .ok () ↔ ∀ item ∈ items, f item = .ok () := by
  induction items with
  | nil => simp [List.forM_eq_forM, pure, Except.pure]
  | cons item rest ih =>
      rw [List.forM_eq_forM] at ih ⊢
      rw [List.forM_cons, List.forall_mem_cons, ← ih]
      cases hf : f item with
      | error failure => simp [bind, Except.bind]
      | ok u => simp [bind, Except.bind]

structure Draft.Names (p : String → Prop) (d : Draft) : Prop where
  keys : (d.entity.properties.map Prod.fst).Nodup
  all : ∀ entry ∈ d.entity.properties, p entry.1

section

variable {p : String → Prop}

theorem Draft.Names.addProperty {d : Draft} (h : d.Names p) {name : String} (hn : p name)
    (property : Property) (taken : Fault) : (d.addProperty name property taken).Names p := by
  unfold Draft.addProperty
  split
  · exact ⟨h.keys, h.all⟩
  · next hs =>
    have hm : name ∉ d.entity.properties.map Prod.fst := fun hm =>
      hs (Keyed.lookup_isSome_iff_mem.mpr hm)
    constructor
    · rw [List.map_append, List.nodup_append]
      refine ⟨h.keys, by simp, ?_⟩
      intro a ha b hb
      simp only [List.map_cons, List.map_nil, List.mem_singleton] at hb
      subst hb
      rintro rfl
      exact hm ha
    · intro entry he
      rcases List.mem_append.mp he with he | he
      · exact h.all entry he
      · rw [List.mem_singleton] at he
        rw [he]
        exact hn

theorem Draft.Names.add {d : Draft} (h : d.Names p) {part : Part}
    (hp : ∀ name ∈ part.property?, p name) : (d.add part).Names p := by
  cases part with
  | table name => exact ⟨h.keys, h.all⟩
  | primaryKey name => exact ⟨h.keys, h.all⟩
  | column name => exact h.addProperty (hp name rfl) _ _
  | bridge name boundKey target => exact h.addProperty (hp name rfl) _ _
  | toMany name target foreignKey => exact h.addProperty (hp name rfl) _ _
  | discriminator column value => exact ⟨h.keys, h.all⟩

theorem Declaration.names_draft {d : Declaration}
    (h : ∀ part ∈ d.parts, ∀ name ∈ part.property?, p name) : d.draft.Names p := by
  have fold : ∀ (parts : List Part) (draft : Draft), draft.Names p →
      (∀ part ∈ parts, ∀ name ∈ part.property?, p name) →
      (parts.foldl Draft.add draft).Names p := by
    intro parts
    induction parts with
    | nil => intro draft hd _; exact hd
    | cons part rest ih =>
        intro draft hd hp
        rw [List.forall_mem_cons] at hp
        exact ih _ (hd.add hp.1) hp.2
  exact fold _ _ ⟨by simp, by simp⟩ h

end

namespace Schema

theorem declare_ok {s next : Schema} {d : Declaration} (h : s.declare d = .ok next) :
    next.entities = s.entities ++ [d.draft.entity] := by
  unfold declare at h
  split at h
  · cases h
  · split at h
    · cases h
    · cases h
      rfl

theorem foldlM_declare_ok {declarations : List Declaration} {s next : Schema}
    (h : declarations.foldlM declare s = .ok next) :
    next.entities = s.entities ++ declarations.map fun d => d.draft.entity := by
  induction declarations generalizing s with
  | nil =>
      cases h
      simp
  | cons d rest ih =>
      rw [List.foldlM_cons] at h
      cases hd : s.declare d with
      | error fault => rw [hd] at h; cases h
      | ok middle =>
          rw [hd] at h
          rw [ih h, declare_ok hd]
          simp

theorem checkProperty_bridge {s : Schema} {e : Entity} {boundKey target : String}
    (h : s.checkProperty e (.bridge boundKey target) = .ok ()) :
    e.hasColumn boundKey ∧ ∃ next, s.entity? target = some next := by
  simp only [checkProperty] at h
  split at h
  · cases h
  · next hk =>
    split at h
    · cases h
    · next ht =>
      rw [Option.isNone_iff_eq_none] at ht
      exact ⟨by simpa using hk, Option.ne_none_iff_exists'.mp ht⟩

theorem checkProperty_toMany {s : Schema} {e : Entity} {target foreignKey : String}
    (h : s.checkProperty e (.toMany target foreignKey) = .ok ()) :
    ∃ next, s.entity? target = some next ∧ next.hasColumn foreignKey := by
  simp only [checkProperty] at h
  split at h
  · cases h
  · next found hf =>
    split at h
    · next hk => exact ⟨found, hf, hk⟩
    · cases h

theorem checkEntity_ok {s : Schema} {e : Entity} (h : s.checkEntity e = .ok ()) :
    e.hasColumn e.primaryKey ∧ (∀ d ∈ e.discriminator, e.hasColumn d.column) ∧
      ∀ p ∈ e.properties, s.checkProperty e p.2 = .ok () := by
  unfold checkEntity at h
  by_cases hk : e.hasColumn e.primaryKey
  · cases hd : e.discriminator with
    | none =>
        simp only [hk, hd, Bool.not_true, Bool.false_eq_true, if_false] at h
        exact ⟨hk, by simp, forM_ok_iff.mp h⟩
    | some d =>
        by_cases hc : e.hasColumn d.column
        · simp only [hk, hd, hc, Bool.not_true, Bool.false_eq_true, if_false] at h
          exact ⟨hk, by simpa using hc, forM_ok_iff.mp h⟩
        · simp [hk, hd, hc, throw, throwThe, MonadExceptOf.throw, bind, Except.bind] at h
  · simp [hk, throw, throwThe, MonadExceptOf.throw, bind, Except.bind] at h

theorem ofDeclarations_ok {declarations : List Declaration} {s : Schema}
    (h : ofDeclarations declarations = .ok s) : ∀ e ∈ s.entities,
      s.checkEntity e = .ok () ∧ ∃ d ∈ declarations, d.draft.entity = e := by
  unfold ofDeclarations at h
  cases hf : declarations.foldlM declare { entities := [] } with
  | error fault => rw [hf] at h; cases h
  | ok found =>
      rw [hf] at h
      cases hc : found.entities.forM found.checkEntity with
      | error fault => simp [bind, Except.bind, hc] at h
      | ok u =>
          simp only [bind, Except.bind, hc, pure, Except.pure, Except.ok.injEq] at h
          subst h
          refine fun e he => ⟨forM_ok_iff.mp hc e he, ?_⟩
          rw [foldlM_declare_ok hf] at he
          simpa using he

theorem wellFormed_ofDeclarations {declarations : List Declaration} {s : Schema}
    (h : ofDeclarations declarations = .ok s) (hp : ∀ d ∈ declarations, d.Plain) :
    s.WellFormed := by
  have drafts : ∀ e ∈ s.entities, ∃ draft : Draft, draft.entity = e ∧ draft.Names PlainName := by
    intro e he
    obtain ⟨-, d, hd, rfl⟩ := ofDeclarations_ok h e he
    exact ⟨d.draft, rfl, Declaration.names_draft (hp d hd)⟩
  have checks := fun e he => checkEntity_ok (ofDeclarations_ok h e he).1
  refine ⟨?_, ?_, ?_, ?_, ?_, ?_⟩
  · intro e he
    obtain ⟨draft, rfl, names⟩ := drafts e he
    exact names.keys
  · intro e he
    obtain ⟨draft, rfl, names⟩ := drafts e he
    exact names.all
  · exact fun e he => (checks e he).1
  · intro e he name boundKey target hb
    exact checkProperty_bridge ((checks e he).2.2 _ (Entity.mem_of_property? hb))
  · intro e he name target foreignKey ht
    exact checkProperty_toMany ((checks e he).2.2 _ (Entity.mem_of_property? ht))
  · exact fun e he => (checks e he).2.1

theorem named_ofDeclarations {declarations : List Declaration} {s : Schema}
    (h : ofDeclarations declarations = .ok s) (hp : ∀ d ∈ declarations, d.Named) : s.Named := by
  have names : ∀ e ∈ s.entities, ∃ draft : Draft, draft.entity = e ∧ draft.Names (· ≠ "") := by
    intro e he
    obtain ⟨-, d, hd, rfl⟩ := ofDeclarations_ok h e he
    exact ⟨d.draft, rfl, Declaration.names_draft (hp d hd)⟩
  have checks := fun e he => checkEntity_ok (ofDeclarations_ok h e he).1
  refine ⟨fun e he => ?_, fun e he => ?_, fun e he => (checks e he).1, ?_⟩
  · obtain ⟨draft, rfl, names⟩ := names e he
    exact names.keys
  · obtain ⟨draft, rfl, names⟩ := names e he
    exact names.all
  · intro e he name target foreignKey ht
    exact checkProperty_toMany ((checks e he).2.2 _ (Entity.mem_of_property? ht))

end Schema

namespace Sample

def declarations : List Declaration :=
  [{ name := "Order"
     parts := [.column "id", .column "total", .column "customerId",
       .bridge "customer" "customerId" "Customer"] },
   { name := "Customer"
     parts := [.column "id", .column "name", .toMany "orders" "Order" "customerId"] }]

def schema : Schema :=
  match Schema.ofDeclarations declarations with
  | .ok s => s
  | .error _ => { entities := [] }

theorem declared : Schema.ofDeclarations declarations = .ok schema := rfl

theorem plain : ∀ d ∈ declarations, d.Plain := by
  unfold Declaration.Plain
  decide

end Sample

namespace Schema

/-! ## Following bridges -/

def entityAt? (s : Schema) (e : Entity) : List String → Option Entity
  | [] => some e
  | bridge :: rest => match e.property? bridge with
    | some (.bridge _ target) => (s.entity? target).bind (s.entityAt? · rest)
    | _ => none

def IsBridge (s : Schema) (e : Entity) (bridge boundKey : String) (next : Entity) : Prop :=
  ∃ target, e.property? bridge = some (.bridge boundKey target) ∧ s.entity? target = some next

/-- The paths of bridges that a dotted field begins with, the empty one aside. -/
def bridgePaths (s : Schema) (e : Entity) (path : List String) : List (List String) :=
  path.inits.tail.filter fun front => (s.entityAt? e front).isSome

variable {s : Schema} {e next : Entity}

theorem entityAt?_cons_of_isBridge {bridge boundKey : String} (h : s.IsBridge e bridge boundKey next)
    (rest : List String) : s.entityAt? e (bridge :: rest) = s.entityAt? next rest := by
  obtain ⟨target, hp, ht⟩ := h
  simp [entityAt?, hp, ht]

theorem exists_of_entityAt?_cons {bridge : String} {rest : List String} {last : Entity}
    (h : s.entityAt? e (bridge :: rest) = some last) :
    ∃ boundKey next, s.IsBridge e bridge boundKey next ∧ s.entityAt? next rest = some last := by
  unfold entityAt? at h
  split at h
  · next boundKey target hp =>
    obtain ⟨next, ht, hr⟩ := Option.bind_eq_some_iff.mp h
    exact ⟨boundKey, next, ⟨target, hp, ht⟩, hr⟩
  · cases h

theorem entityAt?_append (front back : List String) :
    s.entityAt? e (front ++ back) = (s.entityAt? e front).bind (s.entityAt? · back) := by
  induction front generalizing e with
  | nil => rfl
  | cons bridge rest ih =>
      simp only [List.cons_append, entityAt?]
      split
      · next target _ =>
        cases s.entity? target with
        | none => rfl
        | some next => exact ih
      · rfl

theorem entityAt?_concat_eq_some_iff {path : List String} {bridge : String} :
    s.entityAt? e (path ++ [bridge]) = some next ↔
      ∃ owner boundKey, s.entityAt? e path = some owner ∧ s.IsBridge owner bridge boundKey next := by
  rw [entityAt?_append, Option.bind_eq_some_iff]
  constructor
  · rintro ⟨owner, ho, hb⟩
    obtain ⟨boundKey, found, hi, hf⟩ := exists_of_entityAt?_cons hb
    cases hf
    exact ⟨owner, boundKey, ho, hi⟩
  · rintro ⟨owner, boundKey, ho, hi⟩
    exact ⟨owner, ho, entityAt?_cons_of_isBridge hi []⟩

theorem entityAt?_mem (he : e ∈ s.entities) {path : List String}
    (h : s.entityAt? e path = some next) : next ∈ s.entities := by
  induction path generalizing e with
  | nil =>
      cases h
      exact he
  | cons bridge rest ih =>
      obtain ⟨_, middle, ⟨target, -, ht⟩, hr⟩ := exists_of_entityAt?_cons h
      exact ih (mem_of_entity? ht) hr

theorem filter_of_entityAt? (hs : s.Named) (he : e ∈ s.entities) {path : List String}
    (h : (s.entityAt? e path).isSome) : path.filter (!·.isEmpty) = path := by
  induction path generalizing e with
  | nil => rfl
  | cons bridge rest ih =>
      obtain ⟨last, hl⟩ := Option.isSome_iff_exists.mp h
      obtain ⟨_, middle, ⟨target, hp, ht⟩, hr⟩ := exists_of_entityAt?_cons hl
      have filled : (!bridge.isEmpty) = true := by simpa using hs.ne_empty he hp
      rw [List.filter_cons, if_pos filled, ih (mem_of_entity? ht) (by rw [hr]; rfl)]

theorem entityAt?_isSome_of_prefix {front path : List String} (hf : front <+: path)
    (h : (s.entityAt? e path).isSome) : (s.entityAt? e front).isSome := by
  obtain ⟨back, rfl⟩ := hf
  rw [entityAt?_append] at h
  cases hm : s.entityAt? e front with
  | none => simp [hm] at h
  | some middle => rfl

theorem mem_bridgePaths {front path : List String} :
    front ∈ s.bridgePaths e path ↔
      front ≠ [] ∧ front <+: path ∧ (s.entityAt? e front).isSome := by
  have hm : front ∈ path.inits.tail ↔ front ≠ [] ∧ front <+: path := by
    cases path with
    | nil => simp
    | cons part rest =>
        rw [List.inits_cons, List.tail_cons, List.mem_map]
        constructor
        · rintro ⟨back, hb, rfl⟩
          exact ⟨by simp, List.cons_prefix_cons.mpr ⟨rfl, (List.mem_inits _ _).mp hb⟩⟩
        · rintro ⟨hne, hpre⟩
          obtain ⟨part', back, rfl⟩ := List.exists_cons_of_ne_nil hne
          obtain ⟨rfl, hb⟩ := List.cons_prefix_cons.mp hpre
          exact ⟨back, (List.mem_inits _ _).mpr hb, rfl⟩
  rw [bridgePaths, List.mem_filter, hm, and_assoc]

theorem bridgePaths_cons_of_isBridge {bridge boundKey : String}
    (h : s.IsBridge e bridge boundKey next) (rest : List String) :
    s.bridgePaths e (bridge :: rest) =
      [bridge] :: (s.bridgePaths next rest).map (bridge :: ·) := by
  have step : ∀ front, s.entityAt? e (bridge :: front) = s.entityAt? next front :=
    entityAt?_cons_of_isBridge h
  have split : rest.inits = [] :: rest.inits.tail := by cases rest <;> simp
  have first : (s.entityAt? e [bridge]).isSome := by rw [step]; rfl
  rw [bridgePaths, List.inits_cons, List.tail_cons, split, List.map_cons,
    List.filter_cons, if_pos first, List.filter_map]
  simp only [Function.comp_def, step, bridgePaths]

theorem bridgePaths_cons_of_not {part : String}
    (h : ∀ boundKey target, e.property? part ≠ some (.bridge boundKey target))
    (rest : List String) : s.bridgePaths e (part :: rest) = [] := by
  rw [bridgePaths, List.inits_cons, List.tail_cons, List.filter_eq_nil_iff]
  intro front hf
  obtain ⟨back, -, rfl⟩ := List.mem_map.mp hf
  cases hb : s.entityAt? e (part :: back) with
  | none => simp
  | some last =>
      obtain ⟨boundKey, _, ⟨target, hp, -⟩, -⟩ := exists_of_entityAt?_cons hb
      exact absurd hp (h boundKey target)

end Schema

end RowGraph
