import RowGraph.Graph.Mapping
import RowGraph.Proofs.Alias
import RowGraph.Proofs.Keyed

/-!
# Mapped rows

The mapping of a row attaches each object to its parent when it is complete, from the last alias
to the first. In a plan whose aliases come after their parents (`Plan.Arranged`) every object then holds
its toMany properties, and elsewhere the cells of its alias and the values of the aliases attached
to it (`Plan.Composed`, `mapRow_composed`). If no toMany property is in the place of an attached
object (`Plan.Orderly`), it holds all of them (`Plan.Assembled`, `mapRow_assembled`).
-/

namespace RowGraph

/-! ## Fields of objects -/

namespace Object

variable {o : Object} {field : String}

theorem get?_put (o : Object) (field other : String) (value : Value) :
    (o.put field value).get? other = if other = field then some value else o.get? other := by
  by_cases h : other = field
  · subst h
    rw [if_pos rfl]
    exact Keyed.lookup_put_self other value o.fields
  · rw [if_neg h]
    exact Keyed.lookup_put_of_ne value o.fields (by simpa using h)

theorem get?_erase (hn : o.names.Nodup) (field other : String) :
    (o.erase field).get? other = if other = field then none else o.get? other := by
  by_cases h : other = field
  · subst h
    rw [if_pos rfl]
    exact Keyed.lookup_erase_self hn
  · rw [if_neg h]
    exact Keyed.lookup_erase_of_ne h o.fields

theorem mem_names_iff : field ∈ o.names ↔ ∃ value, o.get? field = some value := by
  rw [names, ← Keyed.lookup_isSome_iff_mem, Option.isSome_iff_exists]
  exact Iff.rfl

theorem nodup_put (hn : o.names.Nodup) (field : String) (value : Value) :
    (o.put field value).names.Nodup := by
  show ((Keyed.put field value o.fields).map Prod.fst).Nodup
  rw [Keyed.keys_put]
  split
  · exact hn
  · next h =>
    rw [← List.concat_eq_append, List.nodup_concat]
    refine ⟨fun hm => h ?_, hn⟩
    obtain ⟨entry, he, rfl⟩ := List.mem_map.mp hm
    exact List.any_eq_true.mpr ⟨entry, he, beq_self_eq_true _⟩

theorem nodup_erase (hn : o.names.Nodup) (field : String) : (o.erase field).names.Nodup :=
  hn.sublist (Keyed.keys_erase_sublist field o.fields)

section foldl

variable {α : Type} (f : α → String) (g : α → Value)

theorem entity_foldl_put (items : List α) (o : Object) :
    (items.foldl (fun o item => o.put (f item) (g item)) o).entity = o.entity := by
  induction items generalizing o with
  | nil => rfl
  | cons item rest ih =>
      rw [List.foldl_cons, ih]
      rfl

theorem nodup_foldl_put (items : List α) (hn : o.names.Nodup) :
    (items.foldl (fun o item => o.put (f item) (g item)) o).names.Nodup := by
  induction items generalizing o with
  | nil => exact hn
  | cons item rest ih => exact ih (nodup_put hn _ _)

theorem get?_foldl_put_of_not {items : List α} (h : ∀ item ∈ items, f item ≠ field) (o : Object) :
    (items.foldl (fun o item => o.put (f item) (g item)) o).get? field = o.get? field := by
  induction items generalizing o with
  | nil => rfl
  | cons item rest ih =>
      rw [List.forall_mem_cons] at h
      rw [List.foldl_cons, ih h.2, get?_put, if_neg (Ne.symm h.1)]

theorem get?_foldl_put_of_mem {items : List α} (hn : (items.map f).Nodup) {item : α}
    (h : item ∈ items) (o : Object) :
    (items.foldl (fun o item => o.put (f item) (g item)) o).get? (f item) = some (g item) := by
  induction items generalizing o with
  | nil => cases h
  | cons first rest ih =>
      rw [List.map_cons, List.nodup_cons] at hn
      rw [List.foldl_cons]
      rcases List.mem_cons.mp h with rfl | hr
      · rw [get?_foldl_put_of_not, get?_put, if_pos rfl]
        intro other ho heq
        exact hn.1 (heq ▸ List.mem_map_of_mem ho)
      · exact ih hn.2 hr _

end foldl
end Object

/-! ## Plans -/

namespace AliasPlan

def present (a : AliasPlan) (o : Object) : Bool := (o.get? a.primaryKey).any (!·.isNull)

def finish (a : AliasPlan) (o : Object) : Object :=
  if a.stripKey then o.erase a.primaryKey else o

def value (a : AliasPlan) (o : Object) : Value :=
  if a.present o then (a.finish o).value else .null

variable {a : AliasPlan} {o : Object}

theorem get?_finish (hn : o.names.Nodup) (field : String) : (a.finish o).get? field =
    if a.stripKey = true ∧ field = a.primaryKey then none else o.get? field := by
  unfold finish
  by_cases hstrip : a.stripKey
  · simp only [hstrip, if_true, true_and]
    exact Object.get?_erase hn _ _
  · simp [hstrip]

theorem entity_finish : (a.finish o).entity = o.entity := by
  unfold finish
  split <;> rfl

theorem nodup_finish (hn : o.names.Nodup) : (a.finish o).names.Nodup := by
  unfold finish
  split
  · exact Object.nodup_erase hn _
  · exact hn

theorem value_eq {key : Value} (h : o.get? a.primaryKey = some key) :
    a.value o = if key.isNull then .null else (a.finish o).value := by
  rw [value, present, h, Option.any_some]
  cases key.isNull <;> rfl

end AliasPlan

namespace Plan

/-- A plan whose aliases come after the aliases that they are attached to, and whose properties
are all different. -/
structure Orderly (p : Plan) : Prop where
  names : (p.aliases.map (·.name)).Nodup
  root : ∃ root rest, p.aliases = root :: rest ∧ root.attachment = none ∧
    ∀ a ∈ rest, a.attachment.isSome
  order : p.aliases.Pairwise fun a b => ∀ property, a.attachment ≠ some ⟨b.name, property⟩
  self : ∀ a ∈ p.aliases, ∀ property, a.attachment ≠ some ⟨a.name, property⟩
  attachments : ∀ a ∈ p.aliases, ∀ b ∈ p.aliases, ∀ place, a.attachment = some place →
    b.attachment = some place → a = b
  mounts : (p.mounts.map fun m => (m.owner, m.mount.property)).Nodup
  apart : ∀ m ∈ p.mounts, ∀ a ∈ p.aliases, a.attachment ≠ some ⟨m.owner, m.mount.property⟩

/-- A plan in order, but for a toMany property in the place of an attached object. -/
structure Arranged (p : Plan) : Prop where
  names : (p.aliases.map (·.name)).Nodup
  root : ∃ root rest, p.aliases = root :: rest ∧ root.attachment = none ∧
    ∀ a ∈ rest, a.attachment.isSome
  order : p.aliases.Pairwise fun a b => ∀ property, a.attachment ≠ some ⟨b.name, property⟩
  self : ∀ a ∈ p.aliases, ∀ property, a.attachment ≠ some ⟨a.name, property⟩
  attachments : ∀ a ∈ p.aliases, ∀ b ∈ p.aliases, ∀ place, a.attachment = some place →
    b.attachment = some place → a = b
  mounts : (p.mounts.map fun m => (m.owner, m.mount.property)).Nodup

structure Carries (p : Plan) (row : Row) : Prop where
  nodup : (row.map Prod.fst).Nodup
  labels : ∀ label ∈ row.map Prod.fst, ∃ name ∈ p.aliases.map (·.name), ∃ field,
    label = name.label field

inductive Assembled (p : Plan) (groups : Groups) (row : Row) : AliasPlan → Object → Prop where
  | intro {a : AliasPlan} {o : Object} (below : AliasPlan → Object)
      (entity : o.entity = a.entity) (nodup : o.names.Nodup)
      (members : ∀ m ∈ p.mounts, m.owner = a.name →
        o.get? m.mount.property = some (groups.of m.mount (row.cell m.keyLabel)))
      (attached : ∀ b ∈ p.aliases, ∀ property, b.attachment = some ⟨a.name, property⟩ →
        o.get? property = some (b.value (below b)))
      (cells : p.Carries row → ∀ field,
        (∀ m ∈ p.mounts, m.owner = a.name → m.mount.property ≠ field) →
        (∀ b ∈ p.aliases, b.attachment ≠ some ⟨a.name, field⟩) →
        o.get? field = row.lookup (a.name.label field))
      (assembled : ∀ b ∈ p.aliases, ∀ property, b.attachment = some ⟨a.name, property⟩ →
        p.Assembled groups row b (below b)) : p.Assembled groups row a o

/-- The object of an alias with its toMany properties, and where there are none with its cells and the
aliases attached to it. -/
inductive Composed (p : Plan) (groups : Groups) (row : Row) : AliasPlan → Object → Prop where
  | intro {a : AliasPlan} {o : Object} (below : AliasPlan → Object)
      (entity : o.entity = a.entity) (nodup : o.names.Nodup)
      (members : ∀ m ∈ p.mounts, m.owner = a.name →
        o.get? m.mount.property = some (groups.of m.mount (row.cell m.keyLabel)))
      (attached : ∀ b ∈ p.aliases, ∀ property, b.attachment = some ⟨a.name, property⟩ →
        (∀ m ∈ p.mounts, m.owner = a.name → m.mount.property ≠ property) →
        o.get? property = some (b.value (below b)))
      (cells : p.Carries row → ∀ field,
        (∀ m ∈ p.mounts, m.owner = a.name → m.mount.property ≠ field) →
        (∀ b ∈ p.aliases, b.attachment ≠ some ⟨a.name, field⟩) →
        o.get? field = row.lookup (a.name.label field))
      (composed : ∀ b ∈ p.aliases, ∀ property, b.attachment = some ⟨a.name, property⟩ →
        p.Composed groups row b (below b)) : p.Composed groups row a o

structure Grown (p : Plan) (groups : Groups) (row : Row) (done : List AliasPlan)
    (below : AliasPlan → Object) (a : AliasPlan) (o : Object) : Prop where
  entity : o.entity = a.entity
  nodup : o.names.Nodup
  attached : ∀ b ∈ done, ∀ property, b.attachment = some ⟨a.name, property⟩ →
    o.get? property = some (b.value (below b))
  cells : p.Carries row → ∀ field, (∀ b ∈ done, b.attachment ≠ some ⟨a.name, field⟩) →
    o.get? field = row.lookup (a.name.label field)

variable {p : Plan} {groups : Groups} {row : Row}

theorem Orderly.arranged (h : p.Orderly) : p.Arranged :=
  ⟨h.names, h.root, h.order, h.self, h.attachments, h.mounts⟩

namespace Arranged

variable {front back : List AliasPlan} {a b : AliasPlan}

theorem name_ne (h : p.Arranged) (hp : p.aliases = front ++ a :: back) (hb : b ∈ front) :
    b.name ≠ a.name := by
  have names := h.names
  rw [hp, List.map_append, List.nodup_append] at names
  exact names.2.2 _ (List.mem_map_of_mem hb) _ (List.mem_cons_self ..)

theorem not_attached (h : p.Arranged) (hp : p.aliases = front ++ a :: back)
    (hb : b ∈ front ∨ b = a) (property : String) : b.attachment ≠ some ⟨a.name, property⟩ := by
  rcases hb with hb | rfl
  · have order := h.order
    rw [hp, List.pairwise_append] at order
    exact order.2.2 b hb a (List.mem_cons_self ..) property
  · exact h.self b (by simp [hp]) property

theorem attached_later (h : p.Arranged) (hp : p.aliases = front ++ a :: back) (hb : b ∈ p.aliases)
    {property : String} (hat : b.attachment = some ⟨a.name, property⟩) : b ∈ back := by
  rw [hp, List.mem_append, List.mem_cons, ← or_assoc] at hb
  exact hb.resolve_left fun early => h.not_attached hp early property hat

theorem first_or_attached (h : p.Arranged) (hp : p.aliases = front ++ a :: back) :
    (front = [] ∧ a.attachment = none) ∨ (front ≠ [] ∧ ∃ place, a.attachment = some place) := by
  obtain ⟨root, rest, aliases, hroot, attached⟩ := h.root
  rw [hp] at aliases
  cases front with
  | nil =>
      rw [List.nil_append, List.cons.injEq] at aliases
      exact .inl ⟨rfl, aliases.1 ▸ hroot⟩
  | cons first front =>
      rw [List.cons_append, List.cons.injEq] at aliases
      refine .inr ⟨List.cons_ne_nil first front, Option.isSome_iff_exists.mp (attached a ?_)⟩
      rw [← aliases.2]
      exact List.mem_append_right _ (List.mem_cons_self ..)

end Arranged

theorem Composed.assembled (orderly : p.Orderly) {a : AliasPlan} {o : Object}
    (h : p.Composed groups row a o) : p.Assembled groups row a o := by
  induction h with
  | @intro a o below entity nodup members attached cells _ ih =>
      refine .intro below entity nodup members (fun b hb property hat => ?_) cells ih
      refine attached b hb property hat fun m hm owner same => ?_
      exact orderly.apart m hm b hb (by rw [hat, owner, same])

/-! ## Cells -/

theorem route_label {name : Alias} (h : name ∈ p.aliases.map (·.name)) (field : String) :
    p.route (name.label field) = (name, field) := by
  obtain ⟨a, ha, rfl⟩ := List.mem_map.mp h
  rw [route, Alias.splitOnce_label]
  cases hf : p.aliases.find? (·.name.token == a.name.token) with
  | none => simpa using List.find?_eq_none.mp hf a ha
  | some found =>
      have token : found.name.token = a.name.token := by simpa using List.find?_some hf
      simp only [hf, Alias.token_injective token]

theorem Carries.tail {label : String} {value : Value} (h : p.Carries ((label, value) :: row)) :
    p.Carries row :=
  ⟨(List.nodup_cons.mp h.nodup).2, (List.forall_mem_cons.mp h.labels).2⟩

theorem lookup_foldl_route (p : Plan) (row : Row) (objects : List (Alias × Object)) {name : Alias}
    {o : Object} (ho : objects.lookup name = some o) :
    ∃ filled, (row.foldl (fun objects (label, value) =>
        let (target, field) := p.route label
        Keyed.modify target (·.put field value) objects) objects).lookup name = some filled ∧
      filled.entity = o.entity ∧ (o.names.Nodup → filled.names.Nodup) ∧
      (p.Carries row → ∀ field,
        filled.get? field = (row.lookup (name.label field)).or (o.get? field)) := by
  induction row generalizing objects o with
  | nil => exact ⟨o, ho, rfl, id, fun _ _ => rfl⟩
  | cons entry rest ih =>
      obtain ⟨label, value⟩ := entry
      rw [List.foldl_cons]
      generalize hroute : p.route label = destination
      obtain ⟨target, own⟩ := destination
      simp only [hroute]
      have split : p.Carries ((label, value) :: rest) → label = target.label own := by
        intro carries
        obtain ⟨found, hm, field, rfl⟩ := carries.labels label (List.mem_cons_self ..)
        rw [route_label hm, Prod.mk.injEq] at hroute
        rw [hroute.1, hroute.2]
      have found := Keyed.lookup_modify target name (·.put own value) objects
      by_cases hname : name = target
      · subst hname
        rw [if_pos rfl, ho] at found
        obtain ⟨filled, hf, entity, names, get⟩ := ih _ found
        refine ⟨filled, hf, entity, fun hn => names (Object.nodup_put hn _ _), ?_⟩
        intro carries field
        rw [get carries.tail, Object.get?_put, List.lookup_cons, split carries]
        by_cases hfield : field = own
        · subst hfield
          have absent : rest.lookup (name.label field) = none := by
            rw [← Option.not_isSome_iff_eq_none, Keyed.lookup_isSome_iff_mem, ← split carries]
            exact (List.nodup_cons.mp carries.nodup).1
          simp [absent]
        · have other : (name.label field == name.label own) = false := by
            rw [beq_eq_false_iff_ne]
            exact fun h => hfield (Alias.label_injective h).2
          rw [other, if_neg hfield]
      · rw [if_neg hname, ho] at found
        obtain ⟨filled, hf, entity, names, get⟩ := ih _ found
        refine ⟨filled, hf, entity, names, fun carries field => ?_⟩
        have other : (name.label field == target.label own) = false := by
          rw [beq_eq_false_iff_ne]
          exact fun h => hname (Alias.label_injective h).1
        rw [get carries.tail, List.lookup_cons, split carries, other]

theorem lookup_objects (arranged : p.Arranged) {a : AliasPlan} (ha : a ∈ p.aliases)
    (below : AliasPlan → Object) :
    ∃ o, (p.objects row).lookup a.name = some o ∧ p.Grown groups row [] below a o := by
  have empty : (p.aliases.map fun a => (a.name, { entity := a.entity : Object })).lookup a.name =
      some { entity := a.entity } := by
    apply Keyed.lookup_of_mem
    · rw [List.map_map]
      exact arranged.names
    · exact List.mem_map_of_mem ha
  obtain ⟨o, ho, entity, nodup, get⟩ := p.lookup_foldl_route row _ empty
  refine ⟨o, ho, entity, nodup (by simp [Object.names]), by simp, fun carries field _ => ?_⟩
  rw [get carries]
  simp [Object.get?]

/-! ## Attaching -/

theorem Grown.composed (arranged : p.Arranged) {done : List AliasPlan} {below : AliasPlan → Object}
    {a : AliasPlan} {o : Object} (h : p.Grown groups row done below a o)
    (later : ∀ b ∈ p.aliases, ∀ property, b.attachment = some ⟨a.name, property⟩ → b ∈ done)
    (known : ∀ b ∈ done, b ∈ p.aliases ∧ p.Composed groups row b (below b)) :
    p.Composed groups row a (p.putMembers groups row a.name o) := by
  have own : ((p.mounts.filter (·.owner = a.name)).map (·.mount.property)).Nodup := by
    have nodup := (arranged.mounts.sublist
      ((List.filter_sublist (p := fun m : MountPlan => decide (m.owner = a.name))).map
        fun m => (m.owner, m.mount.property)))
    refine List.Nodup.of_map (fun property => (a.name, property)) ?_
    rw [List.map_map]
    refine Eq.mp (congrArg List.Nodup (List.map_congr_left fun m hm => ?_)) nodup
    have owner : m.owner = a.name := by simpa using (List.mem_filter.mp hm).2
    simp [owner]
  have others : ∀ field, (∀ m ∈ p.mounts, m.owner = a.name → m.mount.property ≠ field) →
      (p.putMembers groups row a.name o).get? field = o.get? field := by
    intro field hm
    apply Object.get?_foldl_put_of_not
    intro m hmem
    obtain ⟨hin, owner⟩ := List.mem_filter.mp hmem
    exact hm m hin (by simpa using owner)
  refine .intro below ?_ (Object.nodup_foldl_put _ _ _ h.nodup) ?_ ?_ ?_ ?_
  · rw [putMembers, Object.entity_foldl_put]
    exact h.entity
  · intro m hm owner
    exact Object.get?_foldl_put_of_mem (fun m : MountPlan => m.mount.property) _ own
      (List.mem_filter.mpr ⟨hm, by simpa using owner⟩) o
  · intro b hb property hat apart
    rw [others property apart]
    exact h.attached b (later b hb property hat) property hat
  · intro carries field hm hb
    rw [others field hm]
    exact h.cells carries field fun b hdone => hb b (known b hdone).1
  · intro b hb property hat
    exact (known b (later b hb property hat)).2

theorem Grown.attach (arranged : p.Arranged) {front back : List AliasPlan} {a b : AliasPlan}
    (hp : p.aliases = front ++ a :: back) {place : Attachment}
    (hat : a.attachment = some place) {below : AliasPlan → Object} {complete o : Object}
    (h : p.Grown groups row back below b o) :
    p.Grown groups row (a :: back) (Function.update below a complete) b
      (if b.name = place.parent then o.put place.property (a.value complete) else o) := by
  have member : ∀ c ∈ a :: back, c ∈ p.aliases := by
    intro c hc
    rw [hp]
    exact List.mem_append_right _ hc
  have new : a ∉ back := by
    intro hm
    have nodup := arranged.names
    rw [hp, List.map_append, List.map_cons] at nodup
    exact (List.nodup_cons.mp nodup.of_append_right).1 (List.mem_map_of_mem hm)
  have older : ∀ c ∈ back, Function.update below a complete c = below c := by
    intro c hc
    apply Function.update_of_ne
    rintro rfl
    exact new hc
  by_cases hname : b.name = place.parent
  · have here : a.attachment = some ⟨b.name, place.property⟩ := by rw [hat, hname]
    rw [if_pos hname]
    refine ⟨h.entity, Object.nodup_put h.nodup _ _, ?_, ?_⟩
    · intro c hc property hcat
      rw [Object.get?_put]
      by_cases hprop : property = place.property
      · subst hprop
        obtain rfl := arranged.attachments c (member c hc) a (member a (List.mem_cons_self ..)) _
          hcat here
        rw [if_pos rfl, Function.update_self]
      · rw [if_neg hprop]
        have old : c ∈ back := by
          rcases List.mem_cons.mp hc with rfl | hback
          · rw [here, Option.some.injEq, Attachment.mk.injEq] at hcat
            exact absurd hcat.2.symm hprop
          · exact hback
        rw [older c old]
        exact h.attached c old property hcat
    · intro carries field hc
      rw [List.forall_mem_cons] at hc
      rw [Object.get?_put, if_neg]
      · exact h.cells carries field hc.2
      · rintro rfl
        exact hc.1 here
  · rw [if_neg hname]
    refine ⟨h.entity, h.nodup, ?_, ?_⟩
    · intro c hc property hcat
      have old : c ∈ back := by
        rcases List.mem_cons.mp hc with rfl | hback
        · rw [hat, Option.some.injEq] at hcat
          exact absurd (by rw [hcat]) hname
        · exact hback
      rw [older c old]
      exact h.attached c old property hcat
    · intro carries field hc
      rw [List.forall_mem_cons] at hc
      exact h.cells carries field hc.2

theorem attach_root {a : AliasPlan} {rest : List AliasPlan} {objects : List (Alias × Object)}
    {o : Object} (found : objects.lookup a.name = some o) (root : a.attachment = none) :
    p.attach groups row (a :: rest) objects = a.finish (p.putMembers groups row a.name o) := by
  rw [attach, found]
  dsimp only
  rw [root]
  rfl

theorem attach_below {a : AliasPlan} {rest : List AliasPlan} {objects : List (Alias × Object)}
    {o : Object} (found : objects.lookup a.name = some o) {place : Attachment}
    (hat : a.attachment = some place) :
    p.attach groups row (a :: rest) objects = p.attach groups row rest
      (Keyed.modify place.parent
        (·.put place.property (a.value (p.putMembers groups row a.name o)))
        (Keyed.erase a.name objects)) := by
  rw [attach, found]
  dsimp only
  rw [hat]
  rfl

theorem attach_composed (arranged : p.Arranged) {front back : List AliasPlan}
    (hp : p.aliases = front ++ back) (hne : front ≠ []) {objects : List (Alias × Object)}
    (below : AliasPlan → Object)
    (grown : ∀ a ∈ front, ∃ o, objects.lookup a.name = some o ∧ p.Grown groups row back below a o)
    (known : ∀ b ∈ back, p.Composed groups row b (below b)) :
    ∃ root ∈ p.aliases.head?, ∃ o, p.Composed groups row root o ∧
      p.attach groups row front.reverse objects = root.finish o := by
  induction front using List.reverseRecOn generalizing back objects below with
  | nil => exact absurd rfl hne
  | append_singleton front a ih =>
      have hsplit : p.aliases = front ++ a :: back := by simpa using hp
      obtain ⟨o, ho, ongoing⟩ := grown a (by simp)
      have complete : p.Composed groups row a (p.putMembers groups row a.name o) :=
        ongoing.composed arranged (fun b hb property hat => arranged.attached_later hsplit hb hat)
          fun b hb => ⟨by rw [hsplit]; simp [hb], known b hb⟩
      rw [List.reverse_append, List.reverse_singleton, List.singleton_append]
      rcases arranged.first_or_attached hsplit with ⟨rfl, hroot⟩ | ⟨hne, place, hat⟩
      · exact ⟨a, by simp [hsplit], _, complete, attach_root ho hroot⟩
      · rw [attach_below ho hat]
        refine ih hsplit hne (Function.update below a (p.putMembers groups row a.name o)) ?_ ?_
        · intro b hb
          obtain ⟨held, hheld, ongoing⟩ := grown b (List.mem_append_left _ hb)
          have hname := arranged.name_ne hsplit hb
          refine ⟨_, ?_, ongoing.attach arranged hsplit hat⟩
          rw [Keyed.lookup_modify, Keyed.lookup_erase_of_ne hname]
          split
          · next hparent => rw [← hparent, Keyed.lookup_erase_of_ne hname, hheld]; rfl
          · exact hheld
        · intro b hb
          by_cases hba : b = a
          · rw [hba, Function.update_self]
            exact complete
          · rw [Function.update_of_ne hba]
            exact known b (List.mem_of_ne_of_mem hba hb)

theorem mapRow_composed (arranged : p.Arranged) (groups : Groups) (row : Row) :
    ∃ root ∈ p.aliases.head?, ∃ o, p.Composed groups row root o ∧
      (p.mapRow groups row).1 = root.finish o := by
  obtain ⟨root, rest, haliases, -⟩ := arranged.root
  apply attach_composed arranged (List.append_nil _).symm (by simp [haliases])
    fun _ => { entity := "" }
  · intro a ha
    exact lookup_objects arranged ha _
  · simp

theorem mapRow_assembled (orderly : p.Orderly) (groups : Groups) (row : Row) :
    ∃ root ∈ p.aliases.head?, ∃ o, p.Assembled groups row root o ∧
      (p.mapRow groups row).1 = root.finish o := by
  obtain ⟨root, hr, o, composed, mapped⟩ := mapRow_composed orderly.arranged groups row
  exact ⟨root, hr, o, composed.assembled orderly, mapped⟩

end Plan
end RowGraph
