import RowGraph.Proofs.Depiction
import RowGraph.Proofs.Fetching
import RowGraph.Proofs.Grouping

/-!
# Members of owners

At every level of a run, the toMany property of an owner holds the mapped rows of the child whose
foreign key equals the owner's key, in the order of the rows (`Haul.Gathers`). This holds whatever
rows the database returns (`Query.Reached.exec_gathers`).
-/

namespace RowGraph

def Object.follow : Object → List String → Option Object
  | o, [] => some o
  | o, field :: rest => ((o.get? field).bind Value.object?).bind fun next => next.follow rest

theorem Clauses.Shows.of_append {s : Schema} {base : Entity} {c : Clauses} {path more : List String}
    (h : c.Shows s base (path ++ more)) (hne : path ≠ []) : c.Shows s base path := by
  obtain ⟨-, there, whole, hm, before⟩ := h
  have front : path <+: path ++ more := List.prefix_append ..
  exact ⟨hne, Schema.entityAt?_isSome_of_prefix front there, whole, hm, front.trans before⟩

theorem Clauses.NeedsKey.shows {s : Schema} {base : Entity} {c : Clauses} {path : List String}
    (h : c.NeedsKey s base path) : path = [] ∨ c.Shows s base path := by
  rcases h with shown | ⟨hroot, -⟩
  · exact .inr shown
  · exact .inl hroot

/-! ## Owners in mapped rows -/

namespace Settings.Resolved

variable {s : Settings} {base : Entity} {c : Clauses} {bindings : List Binding} {r : Resolution}
  (hs : s.schema.WellFormed) (hb : base ∈ s.schema.entities)
  (resolved : s.Resolved base c bindings r) (forced : ∀ name ∈ c.forced, base.hasColumn name)
  (relations : ∀ path ∈ c.relations, (s.schema.entityAt? base path.bridges).isSome)
  {mounts : List Mount}
  (toMany : ∀ mount ∈ mounts, ∃ target foreignKey, s.schema.Mounts base mount target foreignKey)
  (index : Option Index)

include hs hb resolved forced relations toMany

theorem follow_assembled {groups : Groups} {row : Row} {a : AliasPlan} {o owner : Object}
    (h : (r.plan s (r.scopes base) index mounts).Assembled groups row a o)
    (ha : a ∈ r.aliases s base) {path : Path} {e : Entity}
    (ht : (r.scopes base).whole.table? a.name = some (path, e)) {rest : List String}
    (shown : rest = [] ∨ c.Shows s.schema base (path.bridges ++ rest))
    (hf : (a.finish o).follow rest = some owner) :
    ∃ b ∈ r.aliases s base, ∃ held next f, owner = b.finish held ∧
      (r.plan s (r.scopes base) index mounts).Assembled groups row b held ∧
      (r.scopes base).whole.table? b.name = some (next, f) ∧
      next.bridges = path.bridges ++ rest := by
  induction rest generalizing a o path e with
  | nil =>
      obtain rfl := Option.some.inj hf
      exact ⟨a, ha, o, path, e, rfl, h, ht, (List.append_nil _).symm⟩
  | cons bridge rest ih =>
      have whole := shown.resolve_left (List.cons_ne_nil bridge rest)
      rw [List.append_cons] at whole ⊢
      obtain ⟨b, hmem, next, f, hattached, htb, hbridges⟩ :=
        resolved.exists_attached hs hb forced relations ht (whole.of_append (by simp))
      rw [← hbridges] at whole ⊢
      cases h with
      | intro below entity names members attached cells assembled =>
          have value : (a.finish o).get? bridge = some (b.value (below b)) := by
            rw [resolved.get?_finish_of_apart hs hb forced relations toMany index names ha ht
              (.inr ⟨b, hmem, hattached⟩)]
            exact attached b hmem bridge hattached
          rw [Object.follow, value, Option.bind_some, AliasPlan.value] at hf
          -- a null under the bridge leads nowhere
          cases hp : b.present (below b) with
          | false =>
              rw [hp] at hf
              cases hf
          | true =>
              rw [hp] at hf
              exact ih (assembled b hmem bridge hattached) hmem htb (.inr whole) hf

end Settings.Resolved

namespace Query

variable {s : Settings} {q : Query} {compiled : Compiled}

theorem Compiles.members (hs : s.schema.WellFormed) (tied : q.Tied s.schema)
    (affix : s.config.affix = none) (h : q.Compiles s compiled) {base : Entity}
    (hbase : q.base? s.schema = some base) {mount : Mount}
    (hm : mount ∈ q.children.map Prod.fst) : ∃ owner label,
      s.schema.entityAt? base mount.owner.bridges = some owner ∧
      compiled.select.Labels (q.clauses.joinPaths s.schema base) mount.owner.bridges
        owner.primaryKey label ∧
      ∀ groups row o, (compiled.plan.mapRow groups row).1.follow mount.owner.bridges = some o →
        o.get? mount.property = some (groups.of mount (row.cell label)) := by
  obtain ⟨base', r, hbase', hb, resolved, rfl⟩ := h.resolved
  rw [hbase, Option.some.injEq] at hbase'
  subst hbase'
  have forced := tied.hasColumn hbase
  have relations := tied.entityAt? hbase
  have toMany := tied.toMany hbase
  have joined := resolved.joined hs.named hb
  obtain ⟨target, foreignKey, isMount⟩ := toMany mount hm
  have needed := (tied.asked mount hm).needsKey hs hb forced isMount
  have shown := needed.shows
  obtain ⟨a, ha, e, ht⟩ :=
    (resolved.mem_aliases_iff hs hb forced relations).mp (shown.imp_left Path.eq_root_iff.mpr)
  have there := Scope.entityAt?_of_table? joined ht
  have selected : Reference.plain mount.owner e.primaryKey ∈ r.columns (r.scopes base) :=
    (resolved.selects_iff affix hs hb forced relations).mpr (.inr ⟨needed, e, there, rfl⟩)
  refine ⟨e, a.name.label e.primaryKey, there, ?_, ?_⟩
  · exact (resolved.labels_iff hs hb forced relations affix ht rfl).mpr ⟨selected, rfl⟩
  · intro groups row o hf
    have orderly := resolved.orderly hs hb forced relations tied.mounts toMany q.clauses.index
    obtain ⟨root, hroot, object, assembled, hmapped⟩ := Plan.mapRow_assembled orderly groups row
    have top : (r.scopes base).whole.table? root.name = some (.root, base) := by
      rw [resolved.name_of_head? hs hb forced relations hroot]
      exact joined.root_mem
    have mapped : ((q.assemble s base r).plan.mapRow groups row).1 = root.finish object := hmapped
    rw [mapped] at hf
    obtain ⟨b, hmem, held, next, f, rfl, complete, htb, hbridges⟩ :=
      resolved.follow_assembled hs hb forced relations toMany q.clauses.index assembled
        (List.mem_of_head? hroot) top shown hf
    obtain rfl : next = mount.owner := Path.ext hbridges
    obtain ⟨hname, rfl⟩ := Scope.table?_inj joined htb ht
    rw [← hname]
    exact resolved.get?_members hs hb forced relations toMany q.clauses.index complete hmem hm htb

theorem Compiles.foreignKey (hs : s.schema.WellFormed) (tied : q.Tied s.schema)
    (affix : s.config.affix = none) (h : q.Compiles s compiled) {target foreignKey : String}
    (serves : q.Serves target foreignKey) :
    { source := baseColumn foreignKey, label := Alias.root.label foreignKey } ∈
      compiled.select.columns := by
  obtain ⟨base, r, hbase, hb, resolved, rfl⟩ := h.resolved
  have forced := tied.hasColumn hbase
  have relations := tied.entityAt? hbase
  have requests : q.clauses.Requests s base Path.root.bridges foreignKey foreignKey := by
    apply Clauses.Requests.forced
    rw [serves.forced]
    exact List.mem_singleton_self foreignKey
  have href : Reference.plain .root foreignKey ∈ r.columns (r.scopes base) :=
    (resolved.selects_iff affix hs hb forced relations).mpr (.inl ⟨_, requests⟩)
  obtain ⟨a, -, e, ht, hcolumn⟩ := resolved.label_of_column hs hb forced relations affix href
  have name : a.name = .root :=
    (Scope.table?_inj (resolved.joined hs.named hb) ht (resolved.joined hs.named hb).root_mem).1
  rw [name] at hcolumn
  exact List.mem_map.mpr ⟨_, href, hcolumn⟩

/-- What mapped rows are indexed by: nothing, the cell of the column that a field points to, or a
value computed from the object. -/
inductive Indexes (s : Settings) (base : Entity) (c : Clauses) (select : Sql.Select)
    (map : Row → Object × Option Value) : Prop where
  | none (h : c.index = none) (all : ∀ row, (map row).2 = none)
  | field {name column found label : String} {path : List String}
      (h : c.index = some (.field name))
      (points : s.Points base .index (fieldPath name) path column found)
      (labels : select.Labels (c.joinPaths s.schema base) path column label)
      (all : ∀ row, (map row).2 = some (row.cell label))
  | computed {key : Object → Value} (h : c.index = some (.computed key))
      (all : ∀ row, (map row).2 = some (key (map row).1))

theorem Compiles.indexes (hs : s.schema.WellFormed) (tied : q.Tied s.schema)
    (affix : s.config.affix = none) (h : q.Compiles s compiled) (groups : Groups) {base : Entity}
    (hbase : q.base? s.schema = some base) :
    Indexes s base q.clauses compiled.select (compiled.plan.mapRow groups) := by
  obtain ⟨base', r, hbase', hb, resolved, rfl⟩ := h.resolved
  rw [hbase, Option.some.injEq] at hbase'
  subst hbase'
  have target : (q.assemble s base r).plan.index =
      r.indexTarget? (r.scopes base).whole q.clauses.index := rfl
  cases hc : q.clauses.index with
  | none =>
      refine .none hc fun row => ?_
      rw [Plan.mapRow, target, hc]
      rfl
  | some index =>
      cases index with
      | computed key =>
          refine .computed hc fun row => ?_
          rw [Plan.mapRow, target, hc]
          rfl
      | field name =>
          have columns : (q.assemble s base r).select.columns =
              (r.columns (r.scopes base)).map (r.scopes base).whole.column := rfl
          obtain ⟨path, column, found, label, points, labels, htarget⟩ :=
            resolved.indexTarget?_of_field hs hb (tied.hasColumn hbase) (tied.entityAt? hbase) affix
              hc columns
          refine .field hc points labels fun row => ?_
          rw [Plan.mapRow, target, htarget]
          rfl

theorem Indexes.isSome {base : Entity} {c : Clauses} {select : Sql.Select}
    {map : Row → Object × Option Value} (h : Indexes s base c select map) (row : Row) :
    (map row).2.isSome = c.index.isSome := by
  cases h with
  | none h all => rw [h, all]; rfl
  | field h _ _ all => rw [h, all]; rfl
  | computed h all => rw [h, all]; rfl

end Query

/-! ## Members -/

namespace Haul

def map (h : Haul) (row : Row) : Object × Option Value :=
  h.compiled.plan.mapRow (groupsOf h.children) row

def member (h : Haul) (row : Row) : Member :=
  { key := row.cell (Alias.root.label h.query.foreignKey)
    object := (h.map row).1
    index := (h.map row).2 }

def membersOf (h : Haul) (key : Value) : Value :=
  collection h.query.clauses.index.isSome ((h.rows.map h.member).filter fun m => m.key == key)

theorem group_eq (h : Haul) :
    h.group = Group.collect h.compiled.plan.isIndexed (h.rows.map h.member) := by
  cases h with
  | mk query compiled rows children =>
      rw [Group.collect, List.foldl_map, Haul.group]
      rfl

theorem groupsOf_eq (children : List (Mount × Haul)) :
    groupsOf children = children.map fun entry => (entry.1, entry.2.group) := by
  induction children with
  | nil => rfl
  | cons entry rest ih => rw [groupsOf, ih, List.map_cons]

theorem of_groupsOf {children : List (Mount × Haul)} (nodup : (children.map Prod.fst).Nodup)
    {mount : Mount} {child : Haul} (h : (mount, child) ∈ children) (key : Value) :
    (groupsOf children).of mount key = child.group.of key := by
  rw [Groups.of, groupsOf_eq, Keyed.lookup_map_snd, Keyed.lookup_of_mem nodup h]
  rfl

theorem isIndexed_eq {s : Settings} {h : Haul} {base : Entity} {c : Clauses} {select : Sql.Select}
    (indexes : Query.Indexes s base c select h.map) :
    h.compiled.plan.isIndexed = c.index.isSome := by
  rw [← indexes.isSome []]
  exact (Option.isSome_map ..).symm

end Haul

/-- A row whose values hold no two equal keys in a map, as a keyed map never does. -/
def Row.Proper (row : Row) : Prop := ∀ cell ∈ row, cell.2.Proper

theorem Row.Proper.cell {row : Row} (h : row.Proper) (label : String) : (row.cell label).Proper := by
  rw [Row.cell]
  cases hl : row.lookup label with
  | none => exact .null
  | some value => exact h _ (Keyed.mem_of_lookup hl)

namespace Haul

variable {s : Settings} {h : Haul} {mount : Mount} {child : Haul}

theorem group_of (indexed : h.compiled.plan.isIndexed = h.query.clauses.index.isSome)
    (proper : ∀ row ∈ h.rows, row.Proper) {key : Value} (hkey : key.Proper) :
    h.group.of key = h.membersOf key := by
  rw [group_eq, membersOf, ← indexed]
  apply Group.of_collect _ _ hkey
  · intro m hm
    obtain ⟨row, -, rfl⟩ := List.mem_map.mp hm
    exact Option.isSome_map ..
  · intro m hm
    obtain ⟨row, hr, rfl⟩ := List.mem_map.mp hm
    exact (proper row hr).cell _

theorem membersOf_congr (proper : ∀ row ∈ h.rows, row.Proper) {key other : Value}
    (hkey : key.Proper) (hother : other.Proper) (same : (key == other) = true) :
    h.membersOf key = h.membersOf other := by
  rw [membersOf, membersOf]
  refine congrArg _ (List.filter_congr fun m hm => ?_)
  obtain ⟨row, hr, rfl⟩ := List.mem_map.mp hm
  have cell := (proper row hr).cell (Alias.root.label h.query.foreignKey)
  rw [Bool.eq_iff_iff]
  constructor
  · exact fun hk => cell.same_trans hkey hother hk same
  · exact fun hk => cell.same_trans hother hkey hk (by rwa [hother.same_symm hkey])

/-- The toMany property of the owners in a haul holds the rows of a child with their keys. -/
inductive Owns (s : Settings) (h : Haul) (mount : Mount) (child : Haul) : Prop where
  | intro {base owner next : Entity} {target label : String}
      (root : h.query.base? s.schema = some base)
      (there : s.schema.entityAt? base mount.owner.bridges = some owner)
      (toMany : owner.property? mount.property = some (.toMany target child.query.foreignKey))
      (source : child.query.clauses.source = some target)
      (found : s.schema.entity? target = some next)
      (key : h.compiled.select.Labels (h.query.clauses.joinPaths s.schema base)
        mount.owner.bridges owner.primaryKey label)
      (foreignKey : { source := baseColumn child.query.foreignKey,
                      label := Alias.root.label child.query.foreignKey } ∈
        child.compiled.select.columns)
      (indexes : Query.Indexes s next child.query.clauses child.compiled.select child.map)
      (members : ∀ row ∈ h.rows, ∀ o, (h.map row).1.follow mount.owner.bridges = some o →
        o.get? mount.property = some (child.membersOf (row.cell label)))
      (same : ∀ row ∈ h.rows, ∀ other ∈ h.rows, (row.cell label == other.cell label) = true →
        child.membersOf (row.cell label) = child.membersOf (other.cell label)) :
      Owns s h mount child

inductive Gathers (s : Settings) : Haul → Prop where
  | intro {h : Haul} (owns : ∀ entry ∈ h.children, h.Owns s entry.1 entry.2)
      (below : ∀ entry ∈ h.children, Gathers s entry.2) : Gathers s h

/-! ## Hauls of runs -/

theorem FetchedAll.mounts {s : Settings} : ∀ {q : Query} {rows : List Row}
    {mounts : List MountPlan} {children : List (Mount × Haul)},
    FetchedAll s q rows mounts children →
    (children.map Prod.fst).Sublist (mounts.map (·.mount))
  | _, _, _, _, .nil => .slnil
  | _, _, _, _, .ownerless _ others => others.mounts.cons _
  | _, _, _, _, .ran _ _ _ _ _ others => others.mounts.cons_cons _

theorem FetchedAll.built {s : Settings} : ∀ {q : Query} {rows : List Row}
    {mounts : List MountPlan} {children : List (Mount × Haul)},
    FetchedAll s q rows mounts children → ∀ entry ∈ children, ∃ child link keys,
      q.children.lookup entry.1 = some child ∧ child.link = some link ∧
      (child.setOwnerKeys link keys).build s = (.ok entry.2.compiled, entry.2.query)
  | _, _, _, _, .nil => by simp
  | _, _, _, _, .ownerless _ others => others.built
  | _, _, _, _, .ran found linked _ built _ others => by
      rw [List.forall_mem_cons]
      exact ⟨⟨_, _, _, found, linked, built⟩, others.built⟩

theorem conversation_subset {children : List (Mount × Haul)} {entry : Mount × Haul}
    (h : entry ∈ children) : entry.2.conversation ⊆ conversations children := by
  induction children with
  | nil => cases h
  | cons first rest ih =>
      obtain ⟨mount, haul⟩ := first
      rw [conversations]
      rcases List.mem_cons.mp h with rfl | hr
      · exact List.subset_append_left ..
      · exact List.Subset.trans (ih hr) (List.subset_append_right ..)

theorem owns (hs : s.schema.WellFormed) (affix : s.config.affix = none)
    (all : FetchedAll s h.query h.rows h.compiled.plan.mounts h.children)
    (sound : Query.Sound s h.query) (compiles : h.query.Compiles s h.compiled)
    (proper : ∀ row ∈ h.rows, row.Proper) (hm : (mount, child) ∈ h.children)
    (below : ∀ row ∈ child.rows, row.Proper) : h.Owns s mount child := by
  have tied := sound.tied hs.named
  obtain ⟨base, r, root, -⟩ := compiles.resolved
  obtain ⟨_, link, keys, found, linked, built⟩ := all.built _ hm
  have member := Keyed.mem_of_lookup found
  obtain ⟨childSound, childCompiles, evolves, -⟩ := (sound.child member).buildFor linked built
  obtain ⟨target, foreignKey, isMount, serves⟩ := tied.child root member
  replace serves := evolves.serves serves
  have childTied := childSound.tied hs.named
  have own : child.query.foreignKey = foreignKey := by
    rw [Query.foreignKey, serves.link]
    rfl
  obtain ⟨next, r, childRoot, -⟩ := childCompiles.resolved
  have indexes := childCompiles.indexes hs childTied affix (groupsOf child.children) childRoot
  have there : mount ∈ h.query.children.map Prod.fst :=
    List.mem_map_of_mem (f := Prod.fst) member
  obtain ⟨owner, label, hat, labels, members⟩ := compiles.members hs tied affix root there
  obtain ⟨owner', hat', toMany⟩ := isMount
  rw [hat, Option.some.injEq] at hat'
  subst hat'
  refine .intro root hat (own ▸ toMany) serves.source (serves.base? ▸ childRoot) labels
    (own ▸ childCompiles.foreignKey hs childTied affix serves) indexes ?_ ?_
  · intro row hr o hf
    have key := (proper row hr).cell label
    have nodup := (tied.mounts.sublist compiles.mounts).sublist all.mounts
    rw [members _ row o hf, of_groupsOf nodup hm, group_of (isIndexed_eq indexes) below key]
  · intro row hr other ho
    exact membersOf_congr below ((proper row hr).cell label) ((proper other ho).cell label)

theorem Fetched.gathers (hs : s.schema.WellFormed) (affix : s.config.affix = none) {h : Haul}
    (fetched : h.Fetched s) : Query.Sound s h.query → h.query.Compiles s h.compiled →
      (∀ entry ∈ h.conversation, ∀ row ∈ entry.2, Row.Proper row) → h.Gathers s := by
  apply fetched.induction
  intro h all below sound compiles proper
  obtain ⟨query, compiled, rows, children⟩ := h
  rw [conversation, List.forall_mem_cons] at proper
  have within {entry : Mount × Haul} (he : entry ∈ children) :
      ∀ exchange ∈ entry.2.conversation, ∀ row ∈ exchange.2, Row.Proper row :=
    fun exchange hx => proper.2 exchange (conversation_subset he hx)
  refine .intro ?_ fun entry he => ?_
  · rintro ⟨mount, ⟨query, compiled, rows, children⟩⟩ he
    exact owns hs affix all sound compiles proper.1 he (within he _ (List.mem_cons_self ..))
  · obtain ⟨child, link, keys, found, linked, built⟩ := all.built entry he
    obtain ⟨childSound, childCompiles, -⟩ :=
      (sound.child (Keyed.mem_of_lookup found)).buildFor linked built
    exact below entry he childSound childCompiles (within he)

end Haul

/-! ## Runs -/

def Database.Proper (d : Database) : Prop :=
  ∀ rows, .rows rows ∈ d.replies → ∀ row ∈ rows, Row.Proper row

namespace Query

variable {s : Settings} {q : Query}

/-- Whatever a database replies to a run that succeeds, the objects of the run hold under their
toMany properties exactly the rows with their keys, at every level. -/
theorem Reached.exec_gathers {declarations : List Declaration}
    (declared : Schema.ofDeclarations declarations = .ok s.schema)
    (plain : ∀ d ∈ declarations, d.Plain) (affix : s.config.affix = none) (reached : q.Reached s)
    (silent : q.listeners.any = false) {c : Connection} {d : Database} (proper : d.Proper)
    {output : Output} (h : (q.exec s c d).result = .ok output) :
    ∃ haul : Haul, ∃ after, q.build s = (.ok haul.compiled, haul.query) ∧ haul.Fetched s ∧
      d.Answers c haul.conversation after ∧
      output.items? = some (haul.compiled.plan.mapRows (Haul.groupsOf haul.children) haul.rows) ∧
      haul.Gathers s := by
  have hs := Schema.wellFormed_ofDeclarations declared plain
  obtain ⟨-, frames, -⟩ := reached.sound.build
  obtain ⟨compiled, next, rows, groups, built, hr, items⟩ := exec_ok silent frames.listeners h
  obtain ⟨sound, -, compiles⟩ := reached.build built
  obtain ⟨children, rfl, fetched, answers⟩ := fetch_hauls hs sound compiles hr
  refine ⟨.mk next compiled rows children, _, built, fetched, answers, items, ?_⟩
  apply fetched.gathers hs affix sound compiles
  intro entry he
  rcases answers.mem_replies entry he with hrows | hrows
  · rw [hrows]
    exact fun row hr => absurd hr List.not_mem_nil
  · exact proper _ hrows

end Query

namespace Sample

def replies : Database :=
  { replies := [
      .rows [
        [("#0.total", .ofInt64 150), ("#1.name", .text "Ada"), ("#1.id", .ofInt64 7)],
        [("#0.total", .ofInt64 20), ("#1.name", .text "Ada"), ("#1.id", .ofInt64 7)]],
      .rows [
        [("#0.id", .ofInt64 1), ("#0.total", .ofInt64 150), ("#0.customerId", .ofInt64 7)],
        [("#0.id", .ofInt64 2), ("#0.total", .ofInt64 90), ("#0.customerId", .ofInt64 8)],
        [("#0.id", .ofInt64 3), ("#0.total", .ofInt64 20), ("#0.customerId", .ofInt64 7)]]] }

theorem replies_proper : replies.Proper := by
  have number : ∀ n : Int64, (Value.ofInt64 n).Proper := fun n => .number _
  intro rows hr
  simp only [replies, List.mem_cons, Reply.rows.injEq, List.not_mem_nil, or_false] at hr
  rcases hr with rfl | rfl
  · simp only [Row.Proper, List.forall_mem_cons, number, Value.Proper.text]
    simp
  · simp only [Row.Proper, List.forall_mem_cons, number]
    simp

end Sample

theorem Query.Reached.exec_gathers_history : ∃ output, ∃ haul : Haul, ∃ after,
    (Sample.history.exec Sample.settings {} Sample.replies).result = .ok output ∧
      Sample.history.build Sample.settings = (.ok haul.compiled, haul.query) ∧
      haul.Fetched Sample.settings ∧ Sample.replies.Answers {} haul.conversation after ∧
      output.items? = some (haul.compiled.plan.mapRows (Haul.groupsOf haul.children) haul.rows) ∧
      haul.Gathers Sample.settings := by
  obtain ⟨output, result⟩ :
      ∃ output, (Sample.history.exec Sample.settings {} Sample.replies).result = .ok output :=
    ⟨_, rfl⟩
  obtain ⟨haul, after, found⟩ := Reached.exec_gathers (s := Sample.settings) Sample.declared
    Sample.plain rfl Sample.history_reached rfl Sample.replies_proper result
  exact ⟨output, haul, after, result, found⟩

end RowGraph
