import RowGraph.Proofs.Arranged
import RowGraph.Proofs.Streaming

/-!
# Shapes of collections

The rows of a toMany query are collected into lists, or into maps if the query is indexed, and a
group keeps one shape for all owners, those without rows included (`Group.Uniform`). So every
object that a run maps holds under a toMany property a collection of the shape of its query
(`Query.Reached.exec_shaped`), with one exception: a query that is passed over because no owner has
a key leaves no group, and the property is an empty list even if the query is indexed.
-/

namespace RowGraph

/-! ## Groups -/

inductive Value.Collects (P : Value → Prop) : Bool → Value → Prop where
  | list {items : List Value} (members : ∀ item ∈ items, P item) : Collects P false (.list items)
  | map {entries : List (Value × Value)} (members : ∀ entry ∈ entries, P entry.2) :
      Collects P true (.map entries)

variable {P : Value → Prop}

theorem Value.Collects.ne_object {indexed : Bool} {value : Value} (h : value.Collects P indexed)
    (o : Object) : value ≠ o.value := by
  cases h <;> exact Value.noConfusion

theorem collects_empty (P : Value → Prop) (indexed : Bool) :
    (emptyCollection indexed).Collects P indexed := by
  cases indexed with
  | false => exact .list (by simp)
  | true => exact .map (by simp)

def Group.Uniform (P : Value → Prop) (g : Group) : Prop :=
  ∀ entry ∈ g.byKey, entry.2.Collects P g.indexed

namespace Group

variable {g : Group}

theorem Uniform.of (h : g.Uniform P) (key : Value) : (g.of key).Collects P g.indexed := by
  unfold Group.of
  cases found : g.byKey.lookup key with
  | none => exact collects_empty P g.indexed
  | some held => exact Keyed.of_lookup (P := (Value.Collects P g.indexed ·)) h found

theorem Uniform.add (h : g.Uniform P) (key : Value) {object : Object} (new : P object.value)
    (index : Option Value) : (g.add key object index).Uniform P := by
  have held := h.of key
  obtain ⟨indexed, byKey⟩ := g
  refine Keyed.forall_put (P := (Value.Collects P indexed ·)) h key ?_
  rw [Group.of] at held
  generalize (byKey.lookup key).getD (emptyCollection indexed) = collection at held ⊢
  cases held with
  | list members => exact .list (List.forall_mem_append.mpr ⟨members, by simpa using new⟩)
  | map members =>
      cases index with
      | none => exact .map members
      | some index => exact .map (Keyed.forall_put members index new)

theorem indexed_collect (indexed : Bool) (members : List Member) :
    (collect indexed members).indexed = indexed := by
  induction members using List.reverseRecOn with
  | nil => rfl
  | append_singleton members m ih =>
      rw [collect_concat]
      exact ih

theorem uniform_collect (indexed : Bool) {members : List Member}
    (h : ∀ m ∈ members, P m.object.value) : (collect indexed members).Uniform P := by
  induction members using List.reverseRecOn with
  | nil => exact List.forall_mem_nil _
  | append_singleton members m ih =>
      rw [List.forall_mem_append] at h
      rw [collect_concat]
      exact (ih h.1).add m.key (h.2 m (List.mem_singleton_self m)) m.index

end Group

/-! ## Owners -/

namespace Plan

inductive Holds (p : Plan) (root : Object) : Alias → Object → Prop where
  | root {a : AliasPlan} (ha : a ∈ p.aliases) (top : a.attachment = none) :
      Holds p root a.name root
  | attached {parent : Alias} {o below : Object} {b : AliasPlan} {property : String}
      (above : Holds p root parent o) (hb : b ∈ p.aliases)
      (place : b.attachment = some ⟨parent, property⟩)
      (found : o.get? property = some below.value) : Holds p root b.name below

variable {p : Plan} {groups : Groups} {row : Row}

theorem Composed.nodup {a : AliasPlan} {o : Object} (h : p.Composed groups row a o) :
    o.names.Nodup := by
  cases h with
  | intro _ _ nodup => exact nodup

theorem Composed.members {a : AliasPlan} {o : Object} (h : p.Composed groups row a o) :
    ∀ m ∈ p.mounts, m.owner = a.name →
      o.get? m.mount.property = some (groups.of m.mount (row.cell m.keyLabel)) := by
  cases h with
  | intro _ _ _ members => exact members

theorem Holds.composed (arranged : p.Arranged)
    (collections : ∀ m ∈ p.mounts, ∀ o : Object,
      groups.of m.mount (row.cell m.keyLabel) ≠ o.value)
    {name : Alias} {o : Object} (h : p.Holds (p.mapRow groups row).1 name o) :
    ∃ a ∈ p.aliases, a.name = name ∧ ∃ whole, p.Composed groups row a whole ∧
      o = a.finish whole := by
  induction h with
  | @root a ha top =>
      obtain ⟨root, hr, whole, composed, mapped⟩ := mapRow_composed arranged groups row
      obtain ⟨first, rest, aliases, -, attached⟩ := arranged.root
      rw [aliases] at ha hr
      cases hr
      rcases List.mem_cons.mp ha with rfl | later
      · exact ⟨a, by simp [aliases], rfl, whole, composed, mapped⟩
      · have below := attached a later
        rw [top] at below
        cases below
  | @attached parent o below b property _ hb place found ih =>
      obtain ⟨a, ha, rfl, whole, composed, rfl⟩ := ih
      rw [AliasPlan.get?_finish composed.nodup] at found
      split at found
      · cases found
      · have apart : ∀ m ∈ p.mounts, m.owner = a.name → m.mount.property ≠ property := by
          rintro m hm owner rfl
          rw [composed.members m hm owner, Option.some.injEq] at found
          exact collections m hm below found
        cases composed with
        | intro under entity nodup members attached cells composed =>
            rw [attached b hb property place apart, Option.some.injEq] at found
            refine ⟨b, hb, rfl, under b, composed b hb property place, ?_⟩
            unfold AliasPlan.value at found
            split at found
            · cases below
              cases found
              rfl
            · cases found

end Plan

theorem Query.Compiles.ownerKey {s : Settings} {q : Query} {compiled : Compiled}
    (h : q.Compiles s compiled) {m : MountPlan} (hm : m ∈ compiled.plan.mounts) {a : AliasPlan}
    (ha : a ∈ compiled.plan.aliases) (owner : m.owner = a.name) : m.ownerKey = a.primaryKey := by
  obtain ⟨base, r, resolves, -, rfl⟩ := h
  have rooted := (Settings.check_ok resolves.resolution).hung.2.rooted
  obtain ⟨mount, -, planned⟩ := List.mem_filterMap.mp hm
  obtain ⟨e, found, -, key⟩ := (Scope.mountPlan?_iff rooted.backed.paths).mp planned
  obtain ⟨shown, path, f, -, there, -, primaryKey, -⟩ := Scope.mem_aliasPlans.mp ha
  rw [owner, there] at found
  cases found
  rw [key, primaryKey]

/-! ## Collections -/

namespace Haul

variable {s : Settings} {h : Haul}

theorem FetchedAll.ran_of_keys {s : Settings} : ∀ {q : Query} {rows : List Row}
    {mounts : List MountPlan} {children : List (Mount × Haul)},
    FetchedAll s q rows mounts children → ∀ m ∈ mounts, ownerKeys m.keyLabel rows ≠ [] →
      m.mount ∈ children.map Prod.fst
  | _, _, _, _, .nil => by simp
  | _, _, _, _, .ownerless keys others => by
      rw [List.forall_mem_cons]
      exact ⟨fun owned => absurd keys owned, others.ran_of_keys⟩
  | _, _, _, _, .ran _ _ _ _ _ others => by
      rw [List.forall_mem_cons]
      refine ⟨fun _ => List.mem_cons_self .., fun m hm owned => ?_⟩
      exact List.mem_cons_of_mem _ (others.ran_of_keys m hm owned)

theorem group_collects (ready : h.Ready s) (key : Value) :
    (h.group.of key).Collects (fun member => ∃ row ∈ h.rows, member = (h.map row).1.value)
      h.query.clauses.index.isSome := by
  rw [← ready.compiles.isIndexed, group_eq]
  have uniform : (Group.collect h.compiled.plan.isIndexed (h.rows.map h.member)).Uniform
      fun member => ∃ row ∈ h.rows, member = (h.map row).1.value := by
    refine Group.uniform_collect _ fun m hm => ?_
    obtain ⟨row, hr, rfl⟩ := List.mem_map.mp hm
    exact ⟨row, hr, rfl⟩
  have collects := uniform.of key
  rwa [Group.indexed_collect] at collects

/-- The values that a haul has for a toMany property. They are collections of the shape of the
child, but for a child that was passed over, whatever its shape. -/
inductive Shapes (h : Haul) (m : MountPlan) : Value → Prop where
  | skipped (ownerless : ownerKeys m.keyLabel h.rows = []) : Shapes h m (.list [])
  | collected {child : Query} {haul : Haul} {value : Value}
      (found : h.query.children.lookup m.mount = some child) (ran : (m.mount, haul) ∈ h.children)
      (collects : value.Collects (fun member => ∃ row ∈ haul.rows, member = (haul.map row).1.value)
        child.clauses.index.isSome) : Shapes h m value

theorem Shapes.ne_object {m : MountPlan} {value : Value} (h : h.Shapes m value) (o : Object) :
    value ≠ o.value := by
  cases h with
  | skipped => exact Value.noConfusion
  | collected _ _ collects => exact collects.ne_object o

/-- At every level of a haul the toMany properties of all owners are collections of such shapes.
Only a property with the name of its owner's key can be missing. -/
inductive Shaped : Haul → Prop where
  | intro {h : Haul}
      (collections : ∀ m ∈ h.compiled.plan.mounts, ∀ row ∈ h.rows, ∀ o,
        h.compiled.plan.Holds (h.map row).1 m.owner o →
        (m.mount.property ≠ m.ownerKey → (o.get? m.mount.property).isSome) ∧
          ∀ value, o.get? m.mount.property = some value → h.Shapes m value)
      (below : ∀ entry ∈ h.children, Shaped entry.2) : Shaped h

theorem shapes_of (ready : h.Ready s)
    (all : FetchedAll s h.query h.rows h.compiled.plan.mounts h.children) {m : MountPlan}
    (hm : m ∈ h.compiled.plan.mounts) (key : Value) :
    h.Shapes m ((groupsOf h.children).of m.mount key) := by
  rw [Groups.of, groupsOf_eq, Keyed.lookup_map_snd]
  cases held : h.children.lookup m.mount with
  | none =>
      refine .skipped (Classical.byContradiction fun owned => ?_)
      have ran := all.ran_of_keys m hm owned
      rw [← Keyed.lookup_isSome_iff_mem, held] at ran
      cases ran
  | some haul =>
      have ran := Keyed.mem_of_lookup held
      obtain ⟨below, child, found, clauses⟩ := all.ready ready.orderly _ ran
      refine .collected found ran ?_
      rw [← clauses]
      exact group_collects below key

theorem Fetched.shaped (fetched : h.Fetched s) : h.Ready s → h.Shaped := by
  apply fetched.induction
  intro h all below ready
  have arranged := ready.compiles.arranged ready.orderly.mounts
  refine .intro (fun m hm row hr o holds => ?_) fun entry he =>
    below entry he (all.ready ready.orderly entry he).1
  have shapes := fun m hm => shapes_of (m := m) ready all hm (row.cell m.keyLabel)
  obtain ⟨a, ha, owner, whole, composed, rfl⟩ :=
    holds.composed arranged fun m hm o => (shapes m hm).ne_object o
  have member := composed.members m hm owner.symm
  have key := ready.compiles.ownerKey hm ha owner.symm
  rw [AliasPlan.get?_finish composed.nodup, member, key]
  constructor
  · intro apart
    rw [if_neg fun erased => apart erased.2]
    rfl
  · intro value found
    split at found
    · cases found
    · cases found
      exact shapes m hm

end Haul

namespace Query

variable {s : Settings} {q : Query}

/-- In the objects of a run that succeeds, whatever the database replies, the toMany properties of all
owners at every level have the shapes of their queries, but for queries that were passed over. -/
theorem Reached.exec_shaped (reached : q.Reached s) (silent : q.listeners.any = false)
    {c : Connection} {d : Database} {output : Output} (h : (q.exec s c d).result = .ok output) :
    ∃ haul : Haul, ∃ after, q.build s = (.ok haul.compiled, haul.query) ∧ haul.Fetched s ∧
      d.Answers c haul.conversation after ∧
      output.items? = some (haul.compiled.plan.mapRows (Haul.groupsOf haul.children) haul.rows) ∧
      haul.Shaped := by
  obtain ⟨haul, after, built, ready, fetched, answers, items⟩ := reached.exec_hauls silent h
  exact ⟨haul, after, built, fetched, answers, items, fetched.shaped ready⟩

end Query

namespace Sample

def ledgers : Query :=
  ((({} : Query).setSource schema "Customer").select "name" |>.toMany settings "orders").2.modifyChild
    ⟨.root, "orders"⟩ (·.index (.field "id"))

theorem ledgers_reached : ledgers.Reached settings := by
  let customers := ((({} : Query).setSource schema "Customer").select "name").toMany settings "orders"
  obtain ⟨child, found⟩ : ∃ child, customers.2.children.lookup ⟨.root, "orders"⟩ = some child :=
    ⟨_, rfl⟩
  have opened : customers.2.Reached settings :=
    .call (.call (.call .new (.setSource (s := settings) "Customer")) (.select _)) (.toMany _)
  rw [ledgers, Query.modifyChild_of_lookup found]
  exact .call opened (.child found (.index _))

def visitors : Database :=
  { replies := [
      .rows [
        [("#0.name", .text "Ada"), ("#0.id", .ofInt64 7)], [("#0.name", .text "Bob"), ("#0.id", .null)]],
      .rows [[("#0.id", .ofInt64 1), ("#0.customerId", .ofInt64 7)]]] }

def keyless : Database := { replies := [.rows [[("#0.name", .text "Bob"), ("#0.id", .null)]]] }

end Sample

theorem Query.Reached.exec_shaped_ledgers : ∃ ada bob, ∃ haul : Haul, ∃ after,
    Sample.ledgers.Reached Sample.settings ∧
      (Sample.ledgers.exec Sample.settings {} Sample.visitors).result = .ok (.items (.list [ada, bob])) ∧
      ((ada.get? "orders").bind Value.map?).map List.length = some 1 ∧
      ((bob.get? "orders").bind Value.map?).map List.length = some 0 ∧
      Sample.ledgers.build Sample.settings = (.ok haul.compiled, haul.query) ∧
      haul.Fetched Sample.settings ∧ Sample.visitors.Answers {} haul.conversation after ∧
      Items.list [ada, bob] = haul.compiled.plan.mapRows (Haul.groupsOf haul.children) haul.rows ∧
      haul.Shaped := by
  obtain ⟨ada, bob, result, first, second⟩ : ∃ ada bob,
      (Sample.ledgers.exec Sample.settings {} Sample.visitors).result =
        .ok (.items (.list [ada, bob])) ∧
      ((ada.get? "orders").bind Value.map?).map List.length = some 1 ∧
      ((bob.get? "orders").bind Value.map?).map List.length = some 0 := ⟨_, _, rfl, rfl, rfl⟩
  obtain ⟨haul, after, built, fetched, answers, items, shaped⟩ :=
    Reached.exec_shaped Sample.ledgers_reached rfl result
  exact ⟨ada, bob, haul, after, Sample.ledgers_reached, result, first, second, built, fetched,
    answers, Option.some.inj items, shaped⟩

/-- The orders are indexed, but when no customer has a key their collection is a list. -/
theorem Query.Reached.exec_unshaped : ∃ orders bob,
    Sample.ledgers.Reached Sample.settings ∧ Sample.ledgers.listeners.any = false ∧
      Sample.ledgers.children.lookup ⟨.root, "orders"⟩ = some orders ∧
      orders.clauses.index.isSome ∧
      (Sample.ledgers.exec Sample.settings {} Sample.keyless).result = .ok (.items (.list [bob])) ∧
      bob.get? "orders" = some (.list []) :=
  ⟨_, _, Sample.ledgers_reached, rfl, rfl, rfl, rfl, rfl⟩

end RowGraph
