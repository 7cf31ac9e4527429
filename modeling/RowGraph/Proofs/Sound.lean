import RowGraph.Proofs.Compiled
import RowGraph.Proofs.Resolution
import RowGraph.Query.ToMany

/-!
# Sound queries

A query is sound if the compiled form that it keeps is the one its clauses have, and if every
child stands under a toMany property of the schema, selects its foreign key and is asked for by a
clause of its owner (`Query.Sound`). Changing clauses, opening children and building keep a query
sound.
-/

namespace RowGraph

/-! ## Mounts -/

def Schema.Mounts (s : Schema) (base : Entity) (mount : Mount) (target foreignKey : String) : Prop :=
  ∃ owner, s.entityAt? base mount.owner.bridges = some owner ∧
    owner.property? mount.property = some (.toMany target foreignKey)

theorem Schema.Mounts.target_eq {s : Schema} {base : Entity} {mount : Mount}
    {target foreignKey other otherKey : String} (h : s.Mounts base mount target foreignKey)
    (ho : s.Mounts base mount other otherKey) : target = other ∧ foreignKey = otherKey := by
  obtain ⟨owner, hat, hp⟩ := h
  obtain ⟨owner', hat', hp'⟩ := ho
  rw [hat, Option.some.injEq] at hat'
  subst hat'
  simpa [hp] using hp'

theorem Schema.Mounts.hasColumn {s : Schema} (hs : s.Named) {base : Entity}
    (hb : base ∈ s.entities) {mount : Mount} {target foreignKey : String}
    (h : s.Mounts base mount target foreignKey) :
    ∃ next, s.entity? target = some next ∧ next.hasColumn foreignKey := by
  obtain ⟨owner, hat, hp⟩ := h
  exact hs.toMany owner (Schema.entityAt?_mem hb hat) _ _ _ hp

theorem Settings.Follows.mounts {s : Settings} {base : Entity} {field : String}
    {i : Item} {hop : Hop} (hs : s.schema.Named) (hb : base ∈ s.schema.entities)
    (h : s.Follows base .select field i) (hi : i.hop? = some hop) :
    s.schema.Mounts base hop.mount hop.target hop.foreignKey ∧ ∃ rest, rest ≠ [] ∧
      itemPath field = hop.mount.owner.bridges ++ hop.mount.property :: rest := by
  obtain ⟨last, final, rest, chain, hpath, ends⟩ := h.walk
  have hat := chain.entityAt?
  have hfinal := chain.bridges_final hs hb
  rw [Path.bridges_root, List.nil_append] at hfinal
  cases hg : i.walk.goal with
  | columns references => simp [Item.hop?, hg] at hi
  | toMany found =>
      simp only [Item.hop?, hg, Option.some.injEq] at hi
      subst hi
      rw [hg] at ends
      cases ends with
      | toMany _ isToMany goesOn =>
          refine ⟨⟨last, by rw [hfinal]; exact hat, isToMany⟩, _, goesOn, ?_⟩
          rw [hpath, hfinal]

def Schema.Leads (s : Schema) : Entity → List Level → Prop
  | _, [] => True
  | base, level :: rest => s.Mounts base level.mount level.target level.foreignKey ∧
      (s.entityAt? base level.mount.owner.bridges).isSome ∧
      ∀ next, s.entity? level.target = some next → s.Leads next rest

def Clauses.listed (c : Clauses) : List String :=
  c.selects.flatMap splitFields ++
    c.selectsWith.flatMap fun (path, list) => (splitFields list).map (relativeField path)

theorem Clauses.listed_subset_fields (c : Clauses) : c.listed ⊆ c.fields := by
  intro field hf
  rw [Clauses.fields]
  have hne : c.listed.isEmpty = false := by
    cases hl : c.listed with
    | nil => rw [hl] at hf; cases hf
    | cons => rfl
  rw [Clauses.listed] at hne hf
  simp only [hne, Bool.false_and, Bool.false_eq_true, if_false]
  exact hf

theorem Clauses.mem_fields {c : Clauses} {field : String} (h : field ∈ c.fields) :
    field ∈ c.listed ∨ field = "*" := by
  rw [Clauses.fields] at h
  split at h
  · exact .inr (List.mem_singleton.mp h)
  · exact .inl h

def GoesThrough (field : String) (mount : Mount) : Prop :=
  isExclusion field = false ∧
    ∃ rest, rest ≠ [] ∧ fieldPath field = mount.owner.bridges ++ mount.property :: rest

theorem not_goesThrough_of_fieldPath {field part : String} (single : fieldPath field = [part])
    (mount : Mount) : ¬GoesThrough field mount := by
  rintro ⟨-, rest, hne, path⟩
  rw [single] at path
  have length := congrArg List.length path
  have pos := List.length_pos_iff.mpr hne
  simp only [List.length_append, List.length_cons, List.length_nil] at length
  omega

theorem Settings.Follows.hop?_of_hasColumn {s : Settings} {base : Entity} (hs : s.schema.WellFormed)
    (hb : base ∈ s.schema.entities) {name : String} {i : Item}
    (h : s.Follows base .select name i) (hc : base.hasColumn name) : i.hop? = none := by
  have plain := hs.plainName hb (Entity.hasColumn_iff.mp hc)
  rw [Option.eq_none_iff_forall_ne_some]
  intro hop hhop
  obtain ⟨-, rest, hne, hpath⟩ := h.mounts hs.named hb hhop
  rw [itemPath_of_not plain.isExclusion] at hpath
  exact not_goesThrough_of_fieldPath plain.fieldPath_eq hop.mount
    ⟨plain.isExclusion, rest, hne, hpath⟩

/-- A clause that asks for the child at a mount: a toMany path, or a field that is selected. -/
def Clauses.Asks (c : Clauses) (mount : Mount) : Prop :=
  mount.owner ∈ c.relations ∨ ∃ field ∈ c.forced ++ c.listed, GoesThrough field mount

theorem Clauses.Asks.mono {c d : Clauses} {mount : Mount} (h : c.Asks mount)
    (relations : c.relations ⊆ d.relations) (forced : d.forced = c.forced)
    (listed : c.listed ⊆ d.listed) : d.Asks mount := by
  rcases h with h | ⟨field, hf, goes⟩
  · exact .inl (relations h)
  · refine .inr ⟨field, ?_, goes⟩
    rw [List.mem_append] at hf ⊢
    exact hf.imp (forced ▸ id) (listed ·)

/-- In a well-formed schema no column that is selected in any case goes on to a child. -/
theorem Clauses.Asks.cases_listed {s : Schema} {base : Entity} {c : Clauses} {mount : Mount}
    (hs : s.WellFormed) (hb : base ∈ s.entities) (columns : ∀ name ∈ c.forced, base.hasColumn name)
    (h : c.Asks mount) : mount.owner ∈ c.relations ∨ ∃ field ∈ c.listed, GoesThrough field mount := by
  refine h.imp id fun ⟨field, hf, goes⟩ => ?_
  rcases List.mem_append.mp hf with forced | listed
  · have plain := hs.plainName hb (Entity.hasColumn_iff.mp (columns field forced))
    exact absurd goes (not_goesThrough_of_fieldPath plain.fieldPath_eq mount)
  · exact ⟨field, listed, goes⟩

namespace Query

/-! ## Ties to children -/

structure Serves (child : Query) (target foreignKey : String) : Prop where
  source : child.clauses.source = some target
  forced : child.clauses.forced = [foreignKey]
  link : child.link.map (·.foreignKey) = some foreignKey

/-- The children of a query stand where its schema and its clauses put them. -/
structure Tied (s : Schema) (q : Query) : Prop where
  mounts : (q.children.map Prod.fst).Nodup
  forced : ∀ field ∈ q.clauses.forced, ∃ base, q.base? s = some base ∧ base.hasColumn field
  relations : ∀ path ∈ q.clauses.relations, ∃ base, q.base? s = some base ∧
    (s.entityAt? base path.bridges).isSome
  children : ∀ entry ∈ q.children, ∃ base target foreignKey, q.base? s = some base ∧
    s.Mounts base entry.1 target foreignKey ∧ entry.2.Serves target foreignKey
  asked : ∀ mount ∈ q.children.map Prod.fst, q.clauses.Asks mount

structure Evolves (q next : Query) : Prop where
  source : ∀ entity, q.clauses.source = some entity → next.clauses.source = some entity
  forced : next.clauses.forced = q.clauses.forced
  link : next.link.map (·.foreignKey) = q.link.map (·.foreignKey)

/-- A query whose compiled form, children and subqueries are as calls leave them. -/
inductive Sound (s : Settings) : Query → Prop where
  | intro {q : Query}
      (memo : ∀ compiled, q.compiled = some compiled → q.Compiles s compiled)
      (tied : s.schema.Named → q.Tied s.schema)
      (children : ∀ entry ∈ q.children, Sound s entry.2)
      (subqueries : ∀ sub, Param.subquery sub ∈ q.params → Sound s sub) : Sound s q

variable {s : Settings} {q next : Query}

theorem Evolves.refl (q : Query) : q.Evolves q := ⟨fun _ h => h, rfl, rfl⟩

theorem Evolves.trans {middle : Query} (h : q.Evolves middle) (hn : middle.Evolves next) :
    q.Evolves next :=
  ⟨fun e he => hn.source e (h.source e he), hn.forced.trans h.forced, hn.link.trans h.link⟩

theorem Evolves.serves (h : q.Evolves next) {target foreignKey : String}
    (hs : q.Serves target foreignKey) : next.Serves target foreignKey :=
  ⟨h.source _ hs.source, h.forced.trans hs.forced, h.link.trans hs.link⟩

theorem Evolves.base? (h : q.Evolves next) {schema : Schema} {base : Entity}
    (hb : q.base? schema = some base) : next.base? schema = some base := by
  obtain ⟨entity, he, hf⟩ := Option.bind_eq_some_iff.mp hb
  rw [Query.base?, h.source entity he]
  exact hf

theorem Frames.evolves (h : q.Frames next) : q.Evolves next :=
  ⟨by simp [h.clauses], by rw [h.clauses], by rw [h.link]⟩

/-! ## Queries with a base entity -/

section base

variable {schema : Schema} {base : Entity} (tied : q.Tied schema) (hb : q.base? schema = some base)

include tied hb

theorem Tied.hasColumn : ∀ name ∈ q.clauses.forced, base.hasColumn name := by
  intro name hn
  obtain ⟨other, ho, hc⟩ := tied.forced name hn
  rw [hb, Option.some.injEq] at ho
  rwa [ho]

theorem Tied.entityAt? : ∀ path ∈ q.clauses.relations, (schema.entityAt? base path.bridges).isSome := by
  intro path hp
  obtain ⟨other, ho, hat⟩ := tied.relations path hp
  rw [hb, Option.some.injEq] at ho
  rwa [ho]

theorem Tied.child {mount : Mount} {child : Query} (hm : (mount, child) ∈ q.children) :
    ∃ target foreignKey, schema.Mounts base mount target foreignKey ∧
      child.Serves target foreignKey := by
  obtain ⟨other, target, foreignKey, ho, mounts, serves⟩ := tied.children _ hm
  rw [hb, Option.some.injEq] at ho
  exact ⟨target, foreignKey, ho ▸ mounts, serves⟩

theorem Tied.toMany : ∀ mount ∈ q.children.map Prod.fst,
    ∃ target foreignKey, schema.Mounts base mount target foreignKey := by
  intro mount hm
  obtain ⟨⟨mount, child⟩, he, rfl⟩ := List.mem_map.mp hm
  obtain ⟨target, foreignKey, mounts, -⟩ := tied.child hb he
  exact ⟨target, foreignKey, mounts⟩

end base

theorem Compiles.resolved {compiled : Compiled} (h : q.Compiles s compiled) :
    ∃ base r, q.base? s.schema = some base ∧ base ∈ s.schema.entities ∧
      s.Resolved base q.clauses (q.bindings s) r ∧ compiled = q.assemble s base r := by
  obtain ⟨base, r, ⟨hbase, hr⟩, -, hcompiled⟩ := h
  exact ⟨base, r, hbase, mem_of_base? hbase, Settings.check_ok hr, hcompiled⟩

theorem Serves.base? {child : Query} {schema : Schema} {target foreignKey : String}
    (h : child.Serves target foreignKey) : child.base? schema = schema.entity? target := by
  simp [Query.base?, h.source]

namespace Sound

theorem memo (h : Sound s q) {compiled : Compiled} (hc : q.compiled = some compiled) :
    q.Compiles s compiled := by
  cases h with
  | intro memo => exact memo compiled hc

theorem tied (h : Sound s q) (hs : s.schema.Named) : q.Tied s.schema := by
  cases h with
  | intro _ tied => exact tied hs

theorem child (h : Sound s q) {mount : Mount} {child : Query} (hm : (mount, child) ∈ q.children) :
    Sound s child := by
  cases h with
  | intro _ _ children => exact children _ hm

theorem subquery (h : Sound s q) {sub : Query} (hm : Param.subquery sub ∈ q.params) :
    Sound s sub := by
  cases h with
  | intro _ _ _ subqueries => exact subqueries sub hm

theorem change (h : Sound s q) (evolves : q.Evolves next)
    (relations : next.clauses.relations = q.clauses.relations)
    (listed : q.clauses.listed ⊆ next.clauses.listed) (children : next.children = q.children)
    (memo : ∀ compiled, next.compiled = some compiled → next.Compiles s compiled)
    (subqueries : ∀ sub, Param.subquery sub ∈ next.params → Sound s sub) : Sound s next := by
  refine .intro memo (fun hs => ?_) (by rw [children]; exact fun entry he => h.child he) subqueries
  have tied := h.tied hs
  refine ⟨by rw [children]; exact tied.mounts, ?_, ?_, ?_, ?_⟩
  · rw [evolves.forced]
    intro field hf
    obtain ⟨base, hb, hc⟩ := tied.forced field hf
    exact ⟨base, evolves.base? hb, hc⟩
  · rw [relations]
    intro path hp
    obtain ⟨base, hb, hat⟩ := tied.relations path hp
    exact ⟨base, evolves.base? hb, hat⟩
  · rw [children]
    intro entry he
    obtain ⟨base, target, foreignKey, hb, rest⟩ := tied.children entry he
    exact ⟨base, target, foreignKey, evolves.base? hb, rest⟩
  · rw [children]
    intro mount hm
    exact (tied.asked mount hm).mono (by rw [relations]; exact fun _ h => h) evolves.forced listed

theorem edit (h : Sound s q) {change : Clauses → Clauses}
    (source : ∀ entity, q.clauses.source = some entity →
      (change q.clauses).source = some entity)
    (forced : (change q.clauses).forced = q.clauses.forced)
    (relations : (change q.clauses).relations = q.clauses.relations)
    (listed : q.clauses.listed ⊆ (change q.clauses).listed) :
    Sound s (q.edit change) ∧ q.Evolves (q.edit change) := by
  have evolves : q.Evolves (q.edit change) := ⟨source, forced, rfl⟩
  exact ⟨h.change evolves relations listed rfl (by simp [Query.edit]) fun sub hm => h.subquery hm,
    evolves⟩

theorem modifyChild (h : Sound s q) {mount : Mount} {f : Query → Query}
    (hf : ∀ child, q.children.lookup mount = some child →
      Sound s child → Sound s (f child) ∧ child.Evolves (f child)) :
    Sound s (q.modifyChild mount f) := by
  have entries : ∀ entry ∈ (q.modifyChild mount f).children, ∃ child,
      (entry.1, child) ∈ q.children ∧ Sound s entry.2 ∧ child.Evolves entry.2 := by
    intro entry he
    rcases Keyed.mem_modify he with hm | ⟨child, hl, rfl⟩
    · exact ⟨entry.2, hm, h.child hm, .refl _⟩
    · have hm := Keyed.mem_of_lookup hl
      obtain ⟨hs, he⟩ := hf child hl (h.child hm)
      exact ⟨child, hm, hs, he⟩
  have keys : (q.modifyChild mount f).children.map Prod.fst = q.children.map Prod.fst :=
    Keyed.keys_modify ..
  refine .intro (fun compiled hc => (h.memo hc).congr rfl rfl rfl keys) (fun hs => ?_)
    (fun entry he => (entries entry he).choose_spec.2.1) fun sub hm => h.subquery hm
  have tied := h.tied hs
  refine ⟨by rw [keys]; exact tied.mounts, tied.forced, tied.relations, ?_, ?_⟩
  · intro entry he
    obtain ⟨child, hm, -, evolves⟩ := entries entry he
    obtain ⟨base, target, foreignKey, hb, mounts, serves⟩ := tied.children _ hm
    exact ⟨base, target, foreignKey, hb, mounts, evolves.serves serves⟩
  · rw [keys]
    exact tied.asked

/-! ## Opening children -/

theorem new (s : Settings) : Sound s {} :=
  .intro (by simp) (fun _ => ⟨by simp, by simp, by simp, by simp, by simp⟩) (by simp) (by simp)

theorem newChild {target foreignKey : String} (h : s.schema.Named →
    ∃ entity, s.schema.entity? target = some entity ∧ entity.hasColumn foreignKey) :
    Sound s (newChild s.schema target foreignKey) ∧
      (newChild s.schema target foreignKey).Serves target foreignKey := by
  refine ⟨.intro (by simp [Query.newChild, Query.edit]) (fun hs => ?_)
    (by simp [Query.newChild, Query.setSource, Query.edit])
    (by simp [Query.newChild, Query.setSource, Query.edit]), ?_⟩
  · obtain ⟨entity, he, hc⟩ := h hs
    refine ⟨?_, ?_, ?_, ?_, ?_⟩
    · simp [Query.newChild, Query.setSource, Query.edit]
    · intro field hf
      have : field = foreignKey := by
        simpa [Query.newChild, Query.setSource, Query.edit] using hf
      subst this
      exact ⟨entity, by simp [Query.base?, Query.newChild, Query.setSource, Query.edit, he], hc⟩
    · simp [Query.newChild, Query.setSource, Query.edit]
    · simp [Query.newChild, Query.setSource, Query.edit]
    · simp [Query.newChild, Query.setSource, Query.edit]
  · exact ⟨by simp [Query.newChild, Query.setSource, Query.edit],
      by simp [Query.newChild, Query.edit], by simp [Query.newChild, Query.edit]⟩

theorem openChild (h : Sound s q) {mount : Mount} {target foreignKey : String}
    (hm : s.schema.Named → ∃ base, q.base? s.schema = some base ∧
      s.schema.Mounts base mount target foreignKey ∧ q.clauses.Asks mount) :
    Sound s (q.openChild s.schema mount target foreignKey) := by
  have key : s.schema.Named →
      ∃ entity, s.schema.entity? target = some entity ∧ entity.hasColumn foreignKey := by
    intro hs
    obtain ⟨base, hb, mounts, -⟩ := hm hs
    exact mounts.hasColumn hs (mem_of_base? hb)
  obtain ⟨sound, serves⟩ := newChild key
  have entries : ∀ entry ∈ (q.openChild s.schema mount target foreignKey).children,
      entry ∈ q.children ∨ entry = (mount, Query.newChild s.schema target foreignKey) :=
    fun entry he => Keyed.mem_putNew he
  refine .intro (by simp [Query.openChild]) (fun hs => ?_) ?_ fun sub hsub => h.subquery hsub
  · have tied := h.tied hs
    obtain ⟨base, hb, mounts, asks⟩ := hm hs
    refine ⟨?_, tied.forced, tied.relations, ?_, ?_⟩
    · rw [mounts_openChild]
      split
      · exact tied.mounts
      · next hnew =>
        rw [← List.concat_eq_append, List.nodup_concat]
        exact ⟨hnew, tied.mounts⟩
    · intro entry he
      rcases entries entry he with hold | rfl
      · exact tied.children entry hold
      · exact ⟨base, target, foreignKey, hb, mounts, serves⟩
    · rw [mounts_openChild]
      intro other ho
      split at ho
      · exact tied.asked other ho
      · rcases List.mem_append.mp ho with hold | hnew
        · exact tied.asked other hold
        · rw [List.mem_singleton.mp hnew]
          exact asks
  · intro entry he
    rcases entries entry he with hold | rfl
    · exact h.child hold
    · exact sound

theorem select (h : Sound s q) (fields : String) :
    Sound s (q.select fields) ∧ q.Evolves (q.select fields) := by
  unfold Query.select
  split
  · exact ⟨h, .refl q⟩
  · refine h.edit (fun _ he => he) rfl rfl ?_
    intro field hf
    simp only [Clauses.listed, List.flatMap_append, List.mem_append] at hf ⊢
    rcases hf with old | relative
    · exact .inl (.inl old)
    · exact .inr relative

theorem addField (h : Sound s q) (field : String) :
    Sound s (q.addField field) ∧ q.Evolves (q.addField field) := by
  unfold Query.addField
  split
  · exact ⟨h, .refl q⟩
  · exact h.select field

theorem addRelation (h : Sound s q) {path : Path} (hp : s.schema.Named →
      ∃ base, q.base? s.schema = some base ∧ (s.schema.entityAt? base path.bridges).isSome) :
    Sound s (q.addRelation path) ∧ q.Evolves (q.addRelation path) := by
  unfold Query.addRelation
  split
  · exact ⟨h, .refl q⟩
  · have evolves : q.Evolves (q.edit fun c => { c with relations := c.relations ++ [path] }) :=
      ⟨fun _ he => he, rfl, rfl⟩
    refine ⟨.intro (by simp [Query.edit]) (fun hs => ?_) (fun entry he => h.child he)
      fun sub hm => h.subquery hm, evolves⟩
    have tied := h.tied hs
    refine ⟨tied.mounts, tied.forced, ?_, tied.children, ?_⟩
    · intro other ho
      rcases List.mem_append.mp ho with hold | hnew
      · exact tied.relations other hold
      · rw [List.mem_singleton.mp hnew]
        exact hp hs
    · intro mount hm
      exact (tied.asked mount hm).mono (List.subset_append_left _ _) rfl fun _ h => h

end Sound

/-! ## Forwarded fields -/

theorem Resolves.mounts {base : Entity} {r : Resolution} (hs : s.schema.Named)
    (h : q.Resolves s base r) {hop : Hop} (hh : hop ∈ r.hops false) :
    s.schema.Mounts base hop.mount hop.target hop.foreignKey ∧ q.clauses.Asks hop.mount := by
  have hb := mem_of_base? h.entity
  have resolved := Settings.check_ok h.resolution
  obtain ⟨i, hi, hhop⟩ := List.mem_filterMap.mp hh
  obtain ⟨hi, hplain⟩ := List.mem_filter.mp hi
  have excluded : i.excluded = false := by simpa using hplain
  have goes : ∀ {field : String}, s.Follows base .select field i →
      s.schema.Mounts base hop.mount hop.target hop.foreignKey ∧ GoesThrough field hop.mount := by
    intro field follows
    obtain ⟨mounts, rest, hne, hpath⟩ := follows.mounts hs hb hhop
    have hnot : isExclusion field = false := by rw [← follows.excluded, excluded]
    exact ⟨mounts, hnot, rest, hne, itemPath_of_not hnot ▸ hpath⟩
  rcases List.mem_append.mp hi with hf | hf
  · obtain ⟨field, hmem, follows⟩ := exists_of_forall₂ resolved.forced hf
    obtain ⟨mounts, through⟩ := goes follows
    exact ⟨mounts, .inr ⟨field, List.mem_append_left _ hmem, through⟩⟩
  · obtain ⟨field, hmem, follows⟩ := exists_of_forall₂ resolved.fields hf
    obtain ⟨mounts, through⟩ := goes follows
    rcases q.clauses.mem_fields hmem with hl | rfl
    · exact ⟨mounts, .inr ⟨field, List.mem_append_right _ hl, through⟩⟩
    · have star : fieldPath "*" = ["*"] := by decide
      exact absurd through (not_goesThrough_of_fieldPath star hop.mount)

namespace Sound

theorem forwardPlain (h : Sound s q) {hop : Hop} (hm : s.schema.Named →
      ∃ base, q.base? s.schema = some base ∧
        s.schema.Mounts base hop.mount hop.target hop.foreignKey ∧ q.clauses.Asks hop.mount) :
    Sound s (q.forwardPlain s.schema hop) :=
  (h.openChild hm).modifyChild fun _ _ hc => hc.addField hop.field

theorem forwardExcluded (h : Sound s q) (hop : Hop) : Sound s (q.forwardExcluded hop) :=
  h.modifyChild fun _ _ hc => hc.addField ("!" ++ hop.field)

theorem forward (h : Sound s q) {base : Entity} {r : Resolution} (hr : q.Resolves s base r) :
    Sound s (q.forward s.schema r) := by
  have plain : ∀ (hops : List Hop) (middle : Query), q.Frames middle → Sound s middle →
      (∀ hop ∈ hops, hop ∈ r.hops false) → Sound s (hops.foldl (Query.forwardPlain s.schema) middle) := by
    intro hops
    induction hops with
    | nil => exact fun _ _ hm _ => hm
    | cons hop rest ih =>
        intro middle frames hm hops
        rw [List.forall_mem_cons] at hops
        refine ih _ (frames.trans (frames_forwardPlain ..)) (hm.forwardPlain fun hs => ?_) hops.2
        obtain ⟨mounts, asks⟩ := hr.mounts hs hops.1
        exact ⟨base, by rw [Query.base?, frames.clauses]; exact hr.entity, mounts,
          by rw [frames.clauses]; exact asks⟩
  have excluded : ∀ (hops : List Hop) (middle : Query), Sound s middle →
      Sound s (hops.foldl Query.forwardExcluded middle) := by
    intro hops
    induction hops with
    | nil => exact fun _ hm => hm
    | cons hop rest ih => exact fun middle hm => ih _ (hm.forwardExcluded hop)
  exact excluded _ _ (plain _ _ (.refl q) h fun _ hm => hm)

theorem build (h : Sound s q) : Sound s (q.build s).2 ∧ q.Frames (q.build s).2 ∧
    ∀ compiled, (q.build s).1 = .ok compiled → (q.build s).2.Compiles s compiled := by
  unfold Query.build
  cases hc : q.compiled with
  | some found =>
      refine ⟨h, .refl q, ?_⟩
      intro compiled hok
      cases hok
      exact h.memo hc
  | none =>
      cases hb : q.compile s with
      | error faults => exact ⟨h, .refl q, by simp⟩
      | ok built =>
          obtain ⟨found, next⟩ := built
          obtain ⟨base, r, hbase, hr, hnext, -⟩ := compileWith_ok hb
          have sound : Sound s next := hnext ▸ h.forward ⟨hbase, hr⟩
          obtain ⟨frames, compiles⟩ := compile_ok hb
          have kept : ∀ compiled : Option Compiled,
              next.Frames { next with compiled } := fun _ => ⟨rfl, rfl, rfl, rfl, fun _ h => h⟩
          have same : ({ next with compiled := some found } : Query).Compiles s found :=
            compiles.congr rfl rfl rfl rfl
          refine ⟨?_, frames.trans (kept _), ?_⟩
          · refine sound.change (kept _).evolves rfl (fun _ h => h) rfl ?_
              fun sub hm => sound.subquery hm
            intro compiled hok
            cases hok
            exact same
          · intro compiled hok
            cases hok
            exact same

end Sound

/-! ## toMany paths -/

theorem levels_leads {base e : Entity} {owner : Path} (hs : s.schema.Named)
    (hb : base ∈ s.schema.entities) (hat : s.schema.entityAt? base owner.bridges = some e)
    (expression last : String) (parts : List String) :
    s.schema.Leads base (s.levels expression last e owner parts).1 := by
  induction parts generalizing base e owner with
  | nil => exact True.intro
  | cons part rest ih =>
      unfold Settings.levels
      split
      · exact True.intro
      · exact True.intro
      · next boundKey target hp =>
        split
        · exact True.intro
        · next next hnext =>
          refine ih hb ?_
          have he := Schema.entityAt?_mem hb hat
          rw [Path.bridges_enter (hs.ne_empty he hp), Schema.entityAt?_concat_eq_some_iff]
          exact ⟨e, boundKey, hat, target, hp, hnext⟩
      · next target foreignKey hp =>
        have mounts : s.schema.Mounts base ⟨owner, part⟩ target foreignKey := ⟨e, hat, hp⟩
        have isSome : (s.schema.entityAt? base owner.bridges).isSome := by rw [hat]; rfl
        dsimp only
        split
        · exact ⟨mounts, isSome, fun _ _ => trivial⟩
        · split
          · exact ⟨mounts, isSome, fun _ _ => trivial⟩
          · next next hnext =>
            refine ⟨mounts, isSome, fun found hf => ?_⟩
            rw [hnext, Option.some.injEq] at hf
            subst hf
            exact ih (Schema.mem_of_entity? hnext) rfl

theorem Sound.openLevels (h : Sound s q) {levels : List Level} (hl : s.schema.Named →
      levels = [] ∨ ∃ base, q.base? s.schema = some base ∧ s.schema.Leads base levels) :
    Sound s (q.openLevels s.schema levels) ∧ q.Evolves (q.openLevels s.schema levels) := by
  induction levels generalizing q with
  | nil => exact ⟨h, .refl q⟩
  | cons level rest ih =>
      have there : s.schema.Named →
          ∃ base, q.base? s.schema = some base ∧ s.schema.Leads base (level :: rest) :=
        fun hs => (hl hs).resolve_left (by simp)
      obtain ⟨related, evolves⟩ := h.addRelation fun hs =>
        (there hs).imp fun base hb => ⟨hb.1, hb.2.2.1⟩
      have asks : (q.addRelation level.mount.owner).clauses.Asks level.mount := by
        refine .inl ?_
        unfold Query.addRelation
        split
        · next hm => simpa using hm
        · simp [Query.edit]
      have opened := related.openChild fun hs =>
        (there hs).imp fun base hb => ⟨evolves.base? hb.1, hb.2.1, asks⟩
      refine ⟨opened.modifyChild fun child hc sound => ih sound fun hs => ?_,
        evolves.trans ((frames_openChild ..).trans (frames_modifyChild ..)).evolves⟩
      -- the child selects from the target of the level, whichever call opened it
      obtain ⟨base, hb, mounts, -, leads⟩ := there hs
      obtain ⟨base', target, foreignKey, hb', mounts', serves⟩ :=
        (opened.tied hs).children _ (Keyed.mem_of_lookup hc)
      have same := evolves.base? hb
      rw [show (q.addRelation level.mount.owner).base? s.schema = some base' from hb',
        Option.some.injEq] at same
      subst same
      obtain ⟨rfl, rfl⟩ := mounts.target_eq mounts'
      obtain ⟨next, hnext, -⟩ := mounts.hasColumn hs (mem_of_base? hb)
      exact .inr ⟨next, by rw [serves.base?, hnext], leads next hnext⟩

theorem Sound.toMany (h : Sound s q) (path : String) :
    Sound s (q.toMany s path).2 ∧ q.Evolves (q.toMany s path).2 := by
  have leads : s.schema.Named → (q.levels s path).1 = [] ∨
      ∃ base, q.base? s.schema = some base ∧ s.schema.Leads base (q.levels s path).1 := by
    intro hs
    unfold Query.levels
    cases hsource : q.clauses.source with
    | none => exact .inl rfl
    | some source =>
        cases hbase : s.schema.entity? source with
        | none => exact .inl (by simp [hbase])
        | some base =>
            refine .inr ⟨base, by simp [Query.base?, hsource, hbase], ?_⟩
            simp only [hbase]
            exact levels_leads hs (Schema.mem_of_entity? hbase) rfl path _ _
  have opened := h.openLevels leads
  unfold Query.toMany
  dsimp only
  split <;> exact opened

end Query
end RowGraph
