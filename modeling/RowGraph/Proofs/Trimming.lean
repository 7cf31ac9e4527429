import RowGraph.Proofs.Grouping
import RowGraph.Proofs.Keeping
import RowGraph.Proofs.Mapping

/-!
# Objects without injected keys

A plan that keeps injected keys maps a row to an object from which that of the plan itself arises
by removing keys: `Plan.trim` goes through an object along the attachments of the plan and removes
at each alias the key that its plan marks. The objects of both plans grow in step, each as the
other one trimmed by what has been attached so far (`Plan.attach_trimmed`), so that the mapped rows
are related in the same way (`Plan.mapRow_trimmed`), and the groups made of them as well.
-/

namespace RowGraph

/-! ## Changing fields -/

namespace Object

def mapFields (o : Object) (change : String → Value → Value) : Object :=
  { o with fields := o.fields.map fun (field, value) => (field, change field value) }

variable {o : Object} {first second : String → Value → Value} {field : String}

theorem get?_mapFields (o : Object) (change : String → Value → Value) (field : String) :
    (o.mapFields change).get? field = (o.get? field).map (change field) := by
  simp only [get?, mapFields]
  induction o.fields with
  | nil => rfl
  | cons entry rest ih =>
      obtain ⟨name, value⟩ := entry
      by_cases h : field = name
      · subst h
        rw [List.map_cons, List.lookup_cons_self, List.lookup_cons_self, Option.map_some]
      · have apart : (field == name) = false := beq_eq_false_iff_ne.mpr h
        rw [List.map_cons, List.lookup_cons, List.lookup_cons, apart, ih]

theorem mapFields_congr (h : ∀ field, first field = second field) :
    o.mapFields first = o.mapFields second := by
  simp only [mapFields, h]

theorem put_mapFields (nodup : o.names.Nodup)
    (others : ∀ other, other ≠ field → second other = first other) (value : Value) :
    (o.mapFields first).put field (second field value) = (o.put field value).mapFields second := by
  obtain ⟨entity, fields⟩ := o
  simp only [names] at nodup
  simp only [mapFields, put, Object.mk.injEq, true_and]
  induction fields with
  | nil => rfl
  | cons entry rest ih =>
      obtain ⟨name, held⟩ := entry
      rw [List.map_cons, List.nodup_cons] at nodup
      by_cases h : field = name
      · subst h
        have rest_eq : ∀ entry ∈ rest, first entry.1 = second entry.1 := by
          intro entry he
          refine (others entry.1 fun same => nodup.1 ?_).symm
          exact List.mem_map.mpr ⟨entry, he, same⟩
        simp only [List.map_cons, Keyed.put, beq_self_eq_true, if_true, List.cons.injEq, true_and]
        refine List.map_congr_left fun entry he => ?_
        rw [rest_eq entry he]
      · have apart : (field == name) = false := beq_eq_false_iff_ne.mpr h
        simp only [List.map_cons, Keyed.put, apart, Bool.false_eq_true, if_false, List.cons.injEq,
          Prod.mk.injEq, true_and]
        exact ⟨by rw [others name (Ne.symm h)], ih nodup.2⟩

theorem foldl_put_mapFields {α : Type} {name : α → String} {value kept : α → Value}
    {items : List α} (nodup : o.names.Nodup)
    (given : ∀ item ∈ items, value item = second (name item) (kept item))
    (others : ∀ field, (∀ item ∈ items, name item ≠ field) → second field = first field) :
    items.foldl (fun o item => o.put (name item) (value item)) (o.mapFields first) =
      (items.foldl (fun o item => o.put (name item) (kept item)) o).mapFields second := by
  induction items generalizing o first with
  | nil => exact mapFields_congr fun field => (others field (List.forall_mem_nil _)).symm
  | cons item rest ih =>
      rw [List.forall_mem_cons] at given
      rw [List.foldl_cons, List.foldl_cons, given.1]
      let next := Function.update first (name item) (second (name item))
      have here : next (name item) = second (name item) := Function.update_self ..
      rw [← here, put_mapFields nodup fun other h => Function.update_of_ne h _ _]
      refine ih (nodup_put nodup _ _) given.2 fun field apart => ?_
      by_cases h : field = name item
      · rw [h, here]
      · rw [others field (List.forall_mem_cons.mpr ⟨Ne.symm h, apart⟩)]
        exact (Function.update_of_ne h _ _).symm

end Object

/-! ## Trimming -/

namespace Plan

variable (p : Plan) (inner : Mount → Value → Value)

def mount? (owner : Alias) (property : String) : Option MountPlan :=
  p.mounts.find? fun m => m.owner = owner ∧ m.mount.property = property

def attachedTo (aliases : List AliasPlan) (parent : Alias) (property : String) : Option AliasPlan :=
  aliases.find? (·.attachment = some ⟨parent, property⟩)

def withoutKey (name : Alias) (fields : List (String × Value)) : List (String × Value) :=
  match p.aliases.find? (·.name = name) with
  | some a => if a.stripKey then Keyed.erase a.primaryKey fields else fields
  | none => fields

mutual

/-- The value of an alias without injected keys: its own, and those of what is attached to it. The
collections are changed by `inner`. -/
def trim (name : Alias) : Value → Value
  | .object entity fields => .object entity (p.withoutKey name (trimFields name fields))
  | value => value

def trimFields (name : Alias) : List (String × Value) → List (String × Value)
  | [] => []
  | (field, value) :: rest =>
      let trimmed := match p.mount? name field with
        | some m => inner m.mount value
        | none => match attachedTo p.aliases name field with
          | some a => trim a.name value
          | none => value
      (field, trimmed) :: trimFields name rest

end

def trimObject (name : Alias) (o : Object) : Object :=
  { o with fields := p.withoutKey name (p.trimFields inner name o.fields) }

def trimAttached (done : List AliasPlan) (name : Alias) (field : String) (value : Value) : Value :=
  match attachedTo done name field with
  | some a => p.trim inner a.name value
  | none => value

def trimField (name : Alias) (field : String) (value : Value) : Value :=
  match p.mount? name field with
  | some m => inner m.mount value
  | none => p.trimAttached inner p.aliases name field value

variable {p : Plan} {inner : Mount → Value → Value}

theorem trimFields_eq (name : Alias) (fields : List (String × Value)) :
    p.trimFields inner name fields =
      fields.map fun (field, value) => (field, p.trimField inner name field value) := by
  induction fields with
  | nil => rfl
  | cons entry rest ih =>
      rw [trimFields, ih]
      rfl

theorem isNull_trim (name : Alias) (value : Value) :
    (p.trim inner name value).isNull = value.isNull := by
  cases value <;> rfl

theorem isNull_trimField (hinner : ∀ mount value, (inner mount value).isNull = value.isNull)
    (name : Alias) (field : String) (value : Value) :
    (p.trimField inner name field value).isNull = value.isNull := by
  unfold trimField trimAttached
  split
  · exact hinner ..
  · split
    · exact isNull_trim ..
    · rfl

/-! ## Attaching -/

theorem mount?_of_mem (arranged : p.Arranged) {m : MountPlan} (hm : m ∈ p.mounts) :
    p.mount? m.owner m.mount.property = some m := by
  cases found : p.mount? m.owner m.mount.property with
  | none => simpa using List.find?_eq_none.mp found m hm
  | some other =>
      have same : other.owner = m.owner ∧ other.mount.property = m.mount.property := by
        simpa using List.find?_some found
      rw [List.inj_on_of_nodup_map arranged.mounts (List.mem_of_find?_eq_some found) hm
        (Prod.ext same.1 same.2)]

theorem mount?_eq_none {owner : Alias} {property : String}
    (h : ∀ m ∈ p.mounts, m.owner = owner → m.mount.property ≠ property) :
    p.mount? owner property = none := by
  refine List.find?_eq_none.mpr fun m hm => ?_
  simpa using h m hm

theorem find?_name (arranged : p.Arranged) {a : AliasPlan} (ha : a ∈ p.aliases) :
    p.aliases.find? (·.name = a.name) = some a := by
  cases found : p.aliases.find? (·.name = a.name) with
  | none => simpa using List.find?_eq_none.mp found a ha
  | some other =>
      have same : other.name = a.name := by simpa using List.find?_some found
      rw [List.inj_on_of_nodup_map arranged.names (List.mem_of_find?_eq_some found) ha same]

theorem attachedTo_eq (arranged : p.Arranged) {front back : List AliasPlan} {a : AliasPlan}
    (hp : p.aliases = front ++ a :: back) (property : String) :
    attachedTo p.aliases a.name property = attachedTo back a.name property := by
  have before : front.find? (·.attachment = some ⟨a.name, property⟩) = none := by
    refine List.find?_eq_none.mpr fun b hb => ?_
    simpa using arranged.not_attached hp (.inl hb) property
  have self := arranged.not_attached hp (.inr rfl) property
  rw [attachedTo, hp, List.find?_append, before, Option.none_or, List.find?_cons_of_neg (by simpa)]
  rfl

theorem putMembers_trimmed (arranged : p.Arranged) {front back : List AliasPlan} {a : AliasPlan}
    (hp : p.aliases = front ++ a :: back) {groups kept : Groups} {row : Row}
    (members : ∀ m ∈ p.mounts, groups.of m.mount (row.cell m.keyLabel) =
      inner m.mount (kept.of m.mount (row.cell m.keyLabel)))
    {o : Object} (nodup : o.names.Nodup) :
    p.putMembers groups row a.name (o.mapFields (p.trimAttached inner back a.name)) =
      (p.putMembers kept row a.name o).mapFields (p.trimField inner a.name) := by
  refine Object.foldl_put_mapFields nodup (fun m hm => ?_) fun field apart => ?_
  · obtain ⟨hm, owner⟩ := List.mem_filter.mp hm
    have owner : m.owner = a.name := by simpa using owner
    rw [trimField, ← owner, mount?_of_mem arranged hm]
    exact members m hm
  · have none : p.mount? a.name field = none := by
      refine mount?_eq_none fun m hm owner => apart m (List.mem_filter.mpr ⟨hm, ?_⟩)
      simpa using owner
    unfold trimField trimAttached
    rw [none, attachedTo_eq arranged hp]

theorem value_trimmed (arranged : p.Arranged)
    (hinner : ∀ mount value, (inner mount value).isNull = value.isNull) {a : AliasPlan}
    (ha : a ∈ p.aliases) (o : Object) : a.finish (o.mapFields (p.trimField inner a.name)) =
        p.trimObject inner a.name o ∧
      a.value (o.mapFields (p.trimField inner a.name)) =
        p.trim inner a.name (a.keepingKey.value o) := by
  have finished : a.finish (o.mapFields (p.trimField inner a.name)) =
      p.trimObject inner a.name o := by
    rw [trimObject, withoutKey, find?_name arranged ha, trimFields_eq, AliasPlan.finish]
    dsimp only
    split <;> rfl
  refine ⟨finished, ?_⟩
  have present : a.present (o.mapFields (p.trimField inner a.name)) = a.keepingKey.present o := by
    rw [AliasPlan.present, AliasPlan.present, Object.get?_mapFields, Option.any_map]
    simp only [isNull_trimField hinner]
    rfl
  rw [AliasPlan.value, AliasPlan.value, present, finished]
  split <;> rfl

theorem trimAttached_self {done : List AliasPlan} {a : AliasPlan} {name : Alias} {property : String}
    (place : a.attachment = some ⟨name, property⟩) :
    p.trimAttached inner (a :: done) name property = p.trim inner a.name := by
  funext value
  rw [trimAttached, attachedTo, List.find?_cons_of_pos (by simpa using place)]

theorem trimAttached_of_ne {done : List AliasPlan} {a : AliasPlan} {name : Alias} {property : String}
    (apart : a.attachment ≠ some ⟨name, property⟩) :
    p.trimAttached inner (a :: done) name property = p.trimAttached inner done name property := by
  funext value
  rw [trimAttached, attachedTo, List.find?_cons_of_neg (by simpa using apart)]
  rfl

/-- What has been collected for an alias in two sessions, where the aliases of a suffix have been
attached. The object of the one is that of the other, trimmed by what is attached to it. -/
def InStep (p : Plan) (inner : Mount → Value → Value) (back : List AliasPlan)
    (objects whole : List (Alias × Object)) (name : Alias) : Prop :=
  ∃ o, o.names.Nodup ∧ whole.lookup name = some o ∧
    objects.lookup name = some (o.mapFields (p.trimAttached inner back name))

theorem InStep.attach {back : List AliasPlan} {objects whole : List (Alias × Object)} {name : Alias}
    (h : p.InStep inner back objects whole name) {a : AliasPlan} (apart : name ≠ a.name)
    {place : Attachment} (hat : a.attachment = some place) (value : Value) :
    p.InStep inner (a :: back)
      (Keyed.modify place.parent (·.put place.property (p.trim inner a.name value))
        (Keyed.erase a.name objects))
      (Keyed.modify place.parent (·.put place.property value) (Keyed.erase a.name whole)) name := by
  obtain ⟨o, nodup, there, here⟩ := h
  rw [← Keyed.lookup_erase_of_ne apart] at there here
  rw [InStep, Keyed.lookup_modify, Keyed.lookup_modify]
  by_cases hparent : name = place.parent
  · have hat : a.attachment = some ⟨name, place.property⟩ := by rw [hat, hparent]
    have others : ∀ other, other ≠ place.property →
        p.trimAttached inner (a :: back) name other = p.trimAttached inner back name other := by
      intro other apart
      refine trimAttached_of_ne fun same => apart ?_
      rw [hat, Option.some.injEq, Attachment.mk.injEq] at same
      exact same.2.symm
    rw [if_pos hparent, if_pos hparent, ← hparent, there, here, Option.map_some, Option.map_some]
    refine ⟨_, Object.nodup_put nodup _ _, rfl, ?_⟩
    rw [← Object.put_mapFields nodup others, trimAttached_self hat]
  · have others : p.trimAttached inner (a :: back) name = p.trimAttached inner back name := by
      funext field
      refine trimAttached_of_ne fun same => hparent ?_
      rw [hat, Option.some.injEq] at same
      rw [same]
    rw [if_neg hparent, if_neg hparent, there, here, others]
    exact ⟨o, nodup, rfl, rfl⟩

theorem attach_trimmed (arranged : p.Arranged)
    (hinner : ∀ mount value, (inner mount value).isNull = value.isNull)
    {groups kept : Groups} {row : Row}
    (members : ∀ m ∈ p.mounts, groups.of m.mount (row.cell m.keyLabel) =
      inner m.mount (kept.of m.mount (row.cell m.keyLabel)))
    {front back : List AliasPlan} (hp : p.aliases = front ++ back) (hne : front ≠ [])
    {objects whole : List (Alias × Object)}
    (grown : ∀ a ∈ front, p.InStep inner back objects whole a.name) :
    ∃ root ∈ p.aliases.head?, p.attach groups row front.reverse objects =
      p.trimObject inner root.name
        (p.keepingKeys.attach kept row (front.map AliasPlan.keepingKey).reverse whole) := by
  -- by induction on the aliases from the last to the first
  induction front using List.reverseRecOn generalizing back objects whole with
  | nil => exact absurd rfl hne
  | append_singleton front a ih =>
      have hsplit : p.aliases = front ++ a :: back := by simpa using hp
      obtain ⟨o, nodup, there, here⟩ := grown a (by simp)
      have complete := putMembers_trimmed arranged hsplit members nodup
      have ha : a ∈ p.aliases := by simp [hsplit]
      obtain ⟨finished, value⟩ := value_trimmed arranged hinner ha (p.putMembers kept row a.name o)
      rw [← complete] at finished value
      rw [List.map_append, List.map_singleton, List.reverse_append, List.reverse_append,
        List.reverse_singleton, List.reverse_singleton, List.singleton_append,
        List.singleton_append]
      rcases arranged.first_or_attached hsplit with ⟨rfl, hroot⟩ | ⟨hne, place, hat⟩
      · rw [attach_root here hroot, finished, attach_root (a := a.keepingKey) there hroot]
        exact ⟨a, by simp [hsplit], rfl⟩
      · rw [attach_below here hat, value, attach_below (a := a.keepingKey) there hat]
        refine ih hsplit hne fun b hb => ?_
        exact (grown b (List.mem_append_left _ hb)).attach (arranged.name_ne hsplit hb) hat _

/-! ## Rows -/

theorem route_keepingKeys (p : Plan) (label : String) : p.keepingKeys.route label = p.route label := by
  unfold route
  split
  · next token field _ =>
    rw [keepingKeys, List.find?_map]
    show (match Option.map AliasPlan.keepingKey (p.aliases.find? (·.name.token == token)) with
      | some a => (a.name, field)
      | none => (Alias.root, label)) = _
    cases p.aliases.find? (·.name.token == token) <;> rfl
  · rfl

theorem objects_keepingKeys (p : Plan) (row : Row) : p.keepingKeys.objects row = p.objects row := by
  have route : p.keepingKeys.route = p.route := funext (route_keepingKeys p)
  rw [objects, objects, route, keepingKeys, List.map_map]
  rfl

/-- A row mapped without injected keys is the row mapped with them, trimmed, under the same index. -/
theorem mapRow_trimmed (arranged : p.Arranged)
    (hinner : ∀ mount value, (inner mount value).isNull = value.isNull)
    {groups kept : Groups} (row : Row)
    (members : ∀ m ∈ p.mounts, groups.of m.mount (row.cell m.keyLabel) =
      inner m.mount (kept.of m.mount (row.cell m.keyLabel)))
    (uncomputed : ∀ key, p.index ≠ some (.computed key)) :
    ∃ root ∈ p.aliases.head?, p.mapRow groups row =
      (p.trimObject inner root.name (p.keepingKeys.mapRow kept row).1,
        (p.keepingKeys.mapRow kept row).2) := by
  have first : ∀ a ∈ p.aliases, p.InStep inner [] (p.objects row) (p.objects row) a.name := by
    intro a ha
    obtain ⟨o, ho, grown⟩ : ∃ o, (p.objects row).lookup a.name = some o ∧
        p.Grown groups row [] (fun _ => { entity := "" }) a o := lookup_objects arranged ha _
    refine ⟨o, grown.nodup, ho, ho.trans ?_⟩
    simp [Object.mapFields, trimAttached, attachedTo]
  obtain ⟨root, rest, haliases, -⟩ := arranged.root
  obtain ⟨root, hr, trimmed⟩ := attach_trimmed arranged hinner members (List.append_nil _).symm
    (by simp [haliases]) first
  refine ⟨root, hr, ?_⟩
  have index : p.keepingKeys.index = p.index := rfl
  rw [mapRow, mapRow, objects_keepingKeys, index]
  refine Prod.ext trimmed ?_
  cases target : p.index with
  | none => rfl
  | some index =>
      cases index with
      | label label => rfl
      | computed key => exact absurd target (uncomputed key)

end Plan

/-! ## Groups -/

def Value.mapMembers (change : Value → Value) : Value → Value
  | .list items => .list (items.map change)
  | .map entries => .map (entries.map fun entry => (entry.1, change entry.2))
  | value => value

namespace Group

def mapMembers (change : Value → Value) (g : Group) : Group :=
  { g with byKey := g.byKey.map fun entry => (entry.1, entry.2.mapMembers change) }

variable {change : Value → Value} {g : Group}

theorem of_mapMembers (change : Value → Value) (g : Group) (key : Value) :
    (g.mapMembers change).of key = (g.of key).mapMembers change := by
  rw [Group.of, Group.of, mapMembers, Keyed.lookup_map_snd (Value.mapMembers change)]
  cases g.byKey.lookup key with
  | none => cases g.indexed <;> rfl
  | some collection => rfl

theorem add_mapMembers (key : Value) {object kept : Object} (same : object.value = change kept.value)
    (index : Option Value) :
    (g.mapMembers change).add key object index = (g.add key kept index).mapMembers change := by
  have held := of_mapMembers change g key
  simp only [Group.of] at held
  simp only [Group.add, held, same]
  generalize (g.byKey.lookup key).getD (emptyCollection g.indexed) = collection
  rw [mapMembers, mapMembers, Group.mk.injEq]
  refine ⟨rfl, ?_⟩
  rw [← Keyed.put_map_snd (Value.mapMembers change)]
  congr 1
  cases collection with
  | list items => simp [Value.mapMembers]
  | map entries =>
      cases index with
      | none => rfl
      | some index => exact congrArg Value.map (Keyed.put_map_snd change index kept.value entries)
  | _ => rfl

theorem grouped_concat (p : Plan) (foreignKey : String) (rows : List Row) (row : Row)
    (groups : Groups) : Query.grouped p foreignKey (rows ++ [row]) groups =
      (Query.grouped p foreignKey rows groups).add (row.cell (Alias.root.label foreignKey))
        (p.mapRow groups row).1 (p.mapRow groups row).2 := by
  rw [Query.grouped, List.foldl_append]
  rfl

theorem grouped_mapMembers {p other : Plan} {groups others : Groups} {rows : List Row}
    (indexed : p.isIndexed = other.isIndexed)
    (same : ∀ row ∈ rows,
      (p.mapRow groups row).1.value = change (other.mapRow others row).1.value ∧
        (p.mapRow groups row).2 = (other.mapRow others row).2) (foreignKey : String) :
    Query.grouped p foreignKey rows groups =
      (Query.grouped other foreignKey rows others).mapMembers change := by
  induction rows using List.reverseRecOn with
  | nil => simp [Query.grouped, mapMembers, indexed]
  | append_singleton rows row ih =>
      rw [List.forall_mem_append] at same
      obtain ⟨object, index⟩ := same.2 row (List.mem_singleton_self row)
      rw [grouped_concat, grouped_concat, ih same.1, index]
      exact add_mapMembers _ object _

end Group
end RowGraph
