import RowGraph.Proofs.Schema

/-!
# Schemas that are accepted

A list of declarations makes a schema exactly if it is well declared: names are different, keys and
discriminators are columns, and relations lead to columns of entities that are declared, wherever
in the list or among the parts these stand (`Schema.accepts_iff`). The entities are those declared,
each with its properties in order (`Declaration.draft_of_nodup`), so that another order of the
declarations gives a schema with the same look-ups (`Schema.declarations_accepted`).
-/

namespace RowGraph

/-! ## What a declaration says -/

def Part.declared? : Part → Option (String × Property)
  | .column name => some (name, .column)
  | .bridge name boundKey target => some (name, .bridge boundKey target)
  | .toMany name target foreignKey => some (name, .toMany target foreignKey)
  | _ => none

def Part.table? : Part → Option String
  | .table name => some name
  | _ => none

def Part.primaryKey? : Part → Option String
  | .primaryKey name => some name
  | _ => none

def Part.discriminator? : Part → Option Discriminator
  | .discriminator name value => some { column := name, value }
  | _ => none

namespace Declaration

/-- The properties declared, in order, also those whose names are taken. -/
def properties (d : Declaration) : List (String × Property) := d.parts.filterMap Part.declared?

/-- The entity declared: the last table, key and discriminator given count. -/
def entity (d : Declaration) : Entity where
  name := d.name
  table := (d.parts.filterMap Part.table?).getLast?.getD d.name
  primaryKey := (d.parts.filterMap Part.primaryKey?).getLast?.getD "id"
  properties := d.properties
  discriminator := (d.parts.filterMap Part.discriminator?).getLast?

@[simp] theorem name_entity (d : Declaration) : d.entity.name = d.name := rfl

def HasColumn (d : Declaration) (name : String) : Prop := (name, .column) ∈ d.properties

theorem hasColumn_entity_iff {d : Declaration} (keys : (d.properties.map Prod.fst).Nodup)
    {name : String} : d.entity.hasColumn name ↔ d.HasColumn name := by
  rw [Entity.hasColumn_iff]
  exact ⟨Entity.mem_of_property?, Keyed.lookup_of_mem keys⟩

theorem draft_concat (name : String) (parts : List Part) (part : Part) :
    (Declaration.mk name (parts ++ [part])).draft = (Declaration.mk name parts).draft.add part := by
  simp [draft]

theorem properties_concat (name : String) (parts : List Part) (part : Part) :
    (Declaration.mk name (parts ++ [part])).properties =
      (Declaration.mk name parts).properties ++ part.declared?.toList := by
  simp only [properties, List.filterMap_append]
  cases part <;> rfl

end Declaration

namespace Draft

variable {d : Draft}

theorem faults_prefix_add (d : Draft) (part : Part) : d.faults <+: (d.add part).faults := by
  cases part with
  | table | primaryKey | discriminator => exact List.prefix_refl _
  | column | bridge | toMany =>
      simp only [add, addProperty]
      split
      · exact List.prefix_append ..
      · exact List.prefix_refl _

theorem faults_addProperty {name : String} {property : Property} {taken : Fault}
    (faultless : d.faults = []) : (d.addProperty name property taken).faults = [] ↔
      name ∉ d.entity.properties.map Prod.fst := by
  rw [← Keyed.lookup_isSome_iff_mem, addProperty, Entity.property?]
  split <;> simp [*]

theorem addProperty_of_not_mem {name : String} (property : Property) (taken : Fault)
    (new : name ∉ d.entity.properties.map Prod.fst) : d.addProperty name property taken =
      { d with entity.properties := d.entity.properties ++ [(name, property)] } := by
  rw [← Keyed.lookup_isSome_iff_mem] at new
  rw [addProperty, Entity.property?, if_neg new]

end Draft

namespace Declaration

variable {d : Declaration}

theorem draft_of_nodup (keys : (d.properties.map Prod.fst).Nodup) :
    d.draft = { entity := d.entity } := by
  obtain ⟨name, parts⟩ := d
  induction parts using List.reverseRecOn with
  | nil => rfl
  | append_singleton parts part ih =>
      rw [properties_concat, List.map_append, List.nodup_append] at keys
      obtain ⟨before, -, apart⟩ := keys
      have fresh : ∀ entry ∈ part.declared?.toList,
          entry.1 ∉ (Declaration.mk name parts).entity.properties.map Prod.fst :=
        fun entry he taken => apart _ taken _ (List.mem_map_of_mem he) rfl
      rw [draft_concat, ih before]
      cases part with
      | table | primaryKey | discriminator =>
          simp [Draft.add, entity, properties, Part.table?, Part.primaryKey?, Part.discriminator?,
            Part.declared?]
      | column | bridge | toMany =>
          rw [Draft.add, Draft.addProperty_of_not_mem _ _ (fresh _ (List.mem_singleton_self _))]
          simp [entity, properties, Part.table?, Part.primaryKey?, Part.discriminator?,
            Part.declared?]

theorem nodup_of_faultless (faultless : d.draft.faults = []) :
    (d.properties.map Prod.fst).Nodup := by
  obtain ⟨name, parts⟩ := d
  induction parts using List.reverseRecOn with
  | nil => exact List.nodup_nil
  | append_singleton parts part ih =>
      rw [draft_concat] at faultless
      have before : (Declaration.mk name parts).draft.faults = [] :=
        List.prefix_nil.mp (faultless ▸ Draft.faults_prefix_add _ part)
      have keys := ih before
      rw [properties_concat, List.map_append, List.nodup_append]
      refine ⟨keys, ?_, ?_⟩
      · cases part <;> simp [Part.declared?]
      · rw [draft_of_nodup keys] at faultless before
        cases part with
        | table | primaryKey | discriminator => simp [Part.declared?]
        | column | bridge | toMany =>
            have new := (Draft.faults_addProperty before).mp faultless
            intro a ha b hb same
            rw [same, List.mem_singleton.mp hb] at ha
            exact new ha

theorem faultless_iff : d.draft.faults = [] ↔ (d.properties.map Prod.fst).Nodup := by
  constructor
  · exact nodup_of_faultless
  · intro keys
    rw [draft_of_nodup keys]

end Declaration

/-- Declarations whose names are different and whose keys, discriminators and relations refer to
what is declared. -/
structure WellDeclared (declarations : List Declaration) : Prop where
  names : (declarations.map Declaration.name).Nodup
  properties : ∀ d ∈ declarations, (d.properties.map Prod.fst).Nodup
  primaryKey : ∀ d ∈ declarations, d.HasColumn d.entity.primaryKey
  discriminator : ∀ d ∈ declarations, ∀ mark ∈ d.entity.discriminator, d.HasColumn mark.column
  bridge : ∀ d ∈ declarations, ∀ name boundKey target,
    (name, .bridge boundKey target) ∈ d.properties →
      d.HasColumn boundKey ∧ ∃ other ∈ declarations, other.name = target
  toMany : ∀ d ∈ declarations, ∀ name target foreignKey,
    (name, .toMany target foreignKey) ∈ d.properties →
      ∃ other ∈ declarations, other.name = target ∧ other.HasColumn foreignKey

theorem WellDeclared.perm {declarations others : List Declaration}
    (h : WellDeclared declarations) (perm : declarations.Perm others) : WellDeclared others := by
  have same {d : Declaration} : d ∈ others ↔ d ∈ declarations := perm.mem_iff.symm
  constructor
  · exact (perm.map _).nodup_iff.mp h.names
  all_goals simp only [same]
  · exact h.properties
  · exact h.primaryKey
  · exact h.discriminator
  · exact h.bridge
  · exact h.toMany

/-! ## Adding entities -/

namespace Schema

variable {s next : Schema} {declarations : List Declaration}

theorem entity?_concat_eq_none_iff {entities : List Entity} {e : Entity} {name : String} :
    (Schema.mk (entities ++ [e])).entity? name = none ↔
      (Schema.mk entities).entity? name = none ∧ e.name ≠ name := by
  simp only [entity?, List.find?_append, Option.or_eq_none_iff, List.find?_eq_none,
    List.mem_singleton, forall_eq, beq_iff_eq, ne_eq]

theorem declare_eq_ok_iff {d : Declaration} : s.declare d = .ok next ↔
    (d.properties.map Prod.fst).Nodup ∧ s.entity? d.name = none ∧
      next = { entities := s.entities ++ [d.entity] } := by
  rw [← Declaration.faultless_iff, declare]
  split
  · next faulty => simp [faulty]
  · next faultless =>
    have drafted := Declaration.draft_of_nodup (Declaration.faultless_iff.mp faultless)
    rw [drafted]
    cases s.entity? d.name with
    | none => simp [eq_comm]
    | some e => simp

theorem foldlM_declare_iff : declarations.foldlM declare s = .ok next ↔
    (∀ d ∈ declarations, (d.properties.map Prod.fst).Nodup) ∧
      (declarations.map Declaration.name).Nodup ∧
      (∀ d ∈ declarations, s.entity? d.name = none) ∧
      next = { entities := s.entities ++ declarations.map Declaration.entity } := by
  induction declarations generalizing s with
  | nil => simp [pure, Except.pure, eq_comm]
  | cons d rest ih =>
      rw [List.foldlM_cons]
      cases declared : s.declare d with
      | error fault =>
          have refused : ∀ next, s.declare d ≠ .ok next := by simp [declared]
          simp only [ne_eq, declare_eq_ok_iff] at refused
          simp only [bind, Except.bind, reduceCtorEq, List.forall_mem_cons, false_iff]
          rintro ⟨keys, -, fresh, -⟩
          exact refused _ ⟨keys.1, fresh.1, rfl⟩
      | ok middle =>
          obtain ⟨keys, fresh, rfl⟩ := declare_eq_ok_iff.mp declared
          change rest.foldlM declare _ = .ok next ↔ _
          simp only [ih, entity?_concat_eq_none_iff, List.forall_mem_cons, List.map_cons,
            List.nodup_cons, List.append_assoc, List.singleton_append, List.mem_map]
          constructor
          · rintro ⟨all, names, apart, rfl⟩
            refine ⟨⟨keys, all⟩, ⟨?_, names⟩, ⟨fresh, fun other ho => (apart other ho).1⟩, rfl⟩
            rintro ⟨other, ho, same⟩
            exact (apart other ho).2 same.symm
          · rintro ⟨⟨-, all⟩, ⟨new, names⟩, ⟨-, others⟩, rfl⟩
            refine ⟨all, names, fun other ho => ⟨others other ho, fun same => ?_⟩, rfl⟩
            exact new ⟨other, ho, same.symm⟩

theorem entity?_declared_iff (names : (declarations.map Declaration.name).Nodup) {name : String}
    {e : Entity} : (Schema.mk (declarations.map Declaration.entity)).entity? name = some e ↔
      ∃ d ∈ declarations, d.name = name ∧ d.entity = e := by
  induction declarations with
  | nil => simp [entity?]
  | cons d rest ih =>
      rw [List.map_cons, List.nodup_cons, List.mem_map] at names
      simp only [entity?, List.map_cons, List.find?_cons] at ih ⊢
      rw [Declaration.name_entity]
      cases same : d.name == name with
      | true =>
          have named : d.name = name := beq_iff_eq.mp same
          have new : ¬ ∃ other ∈ rest, other.name = name ∧ other.entity = e := by
            rintro ⟨other, ho, again, -⟩
            exact names.1 ⟨other, ho, again.trans named.symm⟩
          simp [named, new]
      | false =>
          have apart : d.name ≠ name := by simpa using same
          simpa [apart] using ih names.2

/-! ## Checking what is referred to -/

def Admits (s : Schema) (owner : Entity) : Property → Prop
  | .column => True
  | .bridge boundKey target => owner.hasColumn boundKey ∧ ∃ next, s.entity? target = some next
  | .toMany target foreignKey => ∃ next, s.entity? target = some next ∧ next.hasColumn foreignKey

theorem checkProperty_iff {owner : Entity} {property : Property} :
    s.checkProperty owner property = .ok () ↔ s.Admits owner property := by
  constructor
  · intro checked
    cases property with
    | column => trivial
    | bridge boundKey target => exact checkProperty_bridge checked
    | toMany target foreignKey => exact checkProperty_toMany checked
  · intro admitted
    cases property with
    | column => rfl
    | bridge boundKey target =>
        obtain ⟨isColumn, next, found⟩ := admitted
        simp [checkProperty, isColumn, found]
    | toMany target foreignKey =>
        obtain ⟨next, found, isColumn⟩ := admitted
        simp [checkProperty, isColumn, found]

theorem checkEntity_iff {e : Entity} : s.checkEntity e = .ok () ↔
    e.hasColumn e.primaryKey ∧ (∀ d ∈ e.discriminator, e.hasColumn d.column) ∧
      ∀ entry ∈ e.properties, s.Admits e entry.2 := by
  simp only [← checkProperty_iff]
  constructor
  · exact checkEntity_ok
  · rintro ⟨primaryKey, discriminator, properties⟩
    have relations : e.properties.forM (fun entry => s.checkProperty e entry.2) = .ok () :=
      forM_ok_iff.mpr properties
    unfold checkEntity
    cases mark : e.discriminator with
    | none => simpa [primaryKey] using relations
    | some d => simpa [primaryKey, discriminator d mark] using relations

theorem ofDeclarations_eq_ok_iff : ofDeclarations declarations = .ok s ↔
    declarations.foldlM declare { entities := [] } = .ok s ∧
      ∀ e ∈ s.entities, s.checkEntity e = .ok () := by
  rw [ofDeclarations, ← forM_ok_iff]
  cases declarations.foldlM declare { entities := [] } with
  | error fault => simp [bind, Except.bind]
  | ok found =>
      cases checked : found.entities.forM found.checkEntity with
      | error fault =>
          simp only [bind, Except.bind, checked, reduceCtorEq, false_iff, not_and]
          rintro ⟨rfl⟩
          simp [checked]
      | ok u =>
          simp only [bind, Except.bind, checked, pure, Except.pure, iff_self_and]
          rintro ⟨rfl⟩
          exact checked

theorem accepts_iff : ofDeclarations declarations = .ok s ↔
    WellDeclared declarations ∧ s = { entities := declarations.map Declaration.entity } := by
  rw [ofDeclarations_eq_ok_iff, foldlM_declare_iff]
  simp only [List.nil_append, checkEntity_iff]
  constructor
  · rintro ⟨⟨keys, names, -, rfl⟩, checks⟩
    simp only [List.forall_mem_map] at checks
    refine ⟨⟨names, keys, fun d hd => ?_, fun d hd mark hm => ?_, ?_, ?_⟩, rfl⟩
    · exact (Declaration.hasColumn_entity_iff (keys d hd)).mp (checks d hd).1
    · exact (Declaration.hasColumn_entity_iff (keys d hd)).mp ((checks d hd).2.1 mark hm)
    · intro d hd name boundKey target listed
      obtain ⟨isColumn, next, found⟩ := (checks d hd).2.2 _ listed
      obtain ⟨other, ho, named, -⟩ := (entity?_declared_iff names).mp found
      exact ⟨(Declaration.hasColumn_entity_iff (keys d hd)).mp isColumn, other, ho, named⟩
    · intro d hd name target foreignKey listed
      obtain ⟨next, found, isColumn⟩ := (checks d hd).2.2 _ listed
      obtain ⟨other, ho, named, rfl⟩ := (entity?_declared_iff names).mp found
      exact ⟨other, ho, named, (Declaration.hasColumn_entity_iff (keys other ho)).mp isColumn⟩
  · rintro ⟨well, rfl⟩
    refine ⟨⟨well.properties, well.names, by simp [entity?], rfl⟩, ?_⟩
    simp only [List.forall_mem_map]
    intro d hd
    have columns {other : Declaration} (ho : other ∈ declarations) (name : String) :
        other.entity.hasColumn name ↔ other.HasColumn name :=
      Declaration.hasColumn_entity_iff (well.properties other ho)
    refine ⟨(columns hd _).mpr (well.primaryKey d hd),
      fun mark hm => (columns hd _).mpr (well.discriminator d hd mark hm), ?_⟩
    rintro ⟨name, property⟩ listed
    cases property with
    | column => trivial
    | bridge boundKey target =>
        obtain ⟨isColumn, other, ho, named⟩ := well.bridge d hd _ _ _ listed
        have found := (entity?_declared_iff well.names).mpr ⟨other, ho, named, rfl⟩
        exact ⟨(columns hd _).mpr isColumn, other.entity, found⟩
    | toMany target foreignKey =>
        obtain ⟨other, ho, named, isColumn⟩ := well.toMany d hd _ _ _ listed
        have found := (entity?_declared_iff well.names).mpr ⟨other, ho, named, rfl⟩
        exact ⟨other.entity, found, (columns ho _).mpr isColumn⟩

/-- Declarations make a schema exactly if they are well declared, in whatever order they stand. The
schema has the entities declared, and another order changes no look-up. -/
theorem declarations_accepted (declarations : List Declaration) :
    ((∃ s, ofDeclarations declarations = .ok s) ↔ WellDeclared declarations) ∧
      (∀ s, ofDeclarations declarations = .ok s →
        s.entities = declarations.map Declaration.entity ∧
          ∀ d ∈ declarations, ∃ e, s.entity? d.name = some e ∧
            e.properties = d.parts.filterMap Part.declared?) ∧
      ∀ others, declarations.Perm others →
        ((∃ s, ofDeclarations declarations = .ok s) ↔ ∃ s, ofDeclarations others = .ok s) ∧
          ∀ s t, ofDeclarations declarations = .ok s → ofDeclarations others = .ok t →
            ∀ name, s.entity? name = t.entity? name := by
  have accepted (declarations : List Declaration) :
      (∃ s, ofDeclarations declarations = .ok s) ↔ WellDeclared declarations := by
    simp [accepts_iff]
  refine ⟨accepted declarations, fun s made => ?_, fun others perm => ⟨?_, ?_⟩⟩
  · obtain ⟨well, rfl⟩ := accepts_iff.mp made
    refine ⟨rfl, fun d hd => ⟨d.entity, ?_, rfl⟩⟩
    exact (entity?_declared_iff well.names).mpr ⟨d, hd, rfl, rfl⟩
  · rw [accepted, accepted]
    exact ⟨fun well => well.perm perm, fun well => well.perm perm.symm⟩
  · intro s t made other name
    obtain ⟨well, rfl⟩ := accepts_iff.mp made
    obtain ⟨wellToo, rfl⟩ := accepts_iff.mp other
    apply Option.ext
    intro e
    rw [entity?_declared_iff well.names, entity?_declared_iff wellToo.names]
    simp only [perm.mem_iff]

end Schema

namespace Sample

def family : List Declaration :=
  [{ name := "Person"
     parts := [.bridge "mother" "motherId" "Person", .toMany "pets" "Pet" "ownerId",
       .column "motherId", .column "id"] },
   { name := "Pet"
     parts := [.bridge "owner" "ownerId" "Person", .column "tag", .column "ownerId",
       .primaryKey "tag"] }]

end Sample

theorem Schema.declarations_accepted_family :
    WellDeclared Sample.family ∧ Sample.family.Perm Sample.family.reverse ∧
      ∃ s t, ofDeclarations Sample.family = .ok s ∧
        ofDeclarations Sample.family.reverse = .ok t ∧ ∀ name, s.entity? name = t.entity? name := by
  have perm := Sample.family.reverse_perm.symm
  obtain ⟨accepted, -, reordered⟩ := declarations_accepted Sample.family
  exact ⟨accepted.mp ⟨_, rfl⟩, perm, _, _, rfl, rfl, (reordered _ perm).2 _ _ rfl rfl⟩

end RowGraph
