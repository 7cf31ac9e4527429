import RowGraph.Proofs.Isolated
import RowGraph.Proofs.Narrowing

/-!
# Excluded columns

To exclude one more column of the base entity takes just this column out of the statement, unless it
is selected whatever is excluded (`Query.Keeps`). A child that is given the exclusion by its owner
loses the column in the same way (`Query.excluded_column`). Both need a select list to take it from:
a query without one selects every column, and the exclusion becomes its select list, which then
selects nothing (`Query.excluded_alone`).
-/

namespace RowGraph

/-! ## Columns without an excluded one -/

/-- A name that stands for itself in a select list. -/
structure FieldName (name : String) : Prop where
  single : ∀ c ∈ [',', '.'], c ∉ name.toList
  trimmed : Text.trim name = name
  notStar : name ≠ "*"

theorem FieldName.pathParts_eq {name : String} (h : FieldName name) : pathParts name = [name] := by
  rw [pathParts, Text.split, Text.pieces_of_not_mem (h.single '.' (by decide)), List.map_singleton,
    List.map_singleton, String.ofList_toList, h.trimmed]

namespace Settings

variable {s : Settings} {base : Entity} {name : String}

theorem itemOf?_column (single : FieldName name) (hc : base.hasColumn name) :
    s.itemOf? base ⟨true, name⟩ = some ⟨true, ⟨[], .columns [.plain .root name]⟩⟩ := by
  have walked : s.walkField base .select name = .ok ⟨[], .columns [.plain .root name]⟩ := by
    have parts : (Text.split '.' name).map Text.trim = [name] := single.pathParts_eq
    rw [walkField, parts, walk_column single.notStar (Entity.hasColumn_iff.mp hc)]
  rw [itemOf?, if_neg fun same => Bool.noConfusion (Read.mk.inj same).1, walked]
  rfl

theorem selected_excludesMore {fields others : List String}
    (h : ExcludesMore (· = name) fields others) {i : Item} {gone : Reference}
    (found : s.itemOf? base ⟨true, name⟩ = some i) (one : i.references = [gone]) :
    selected (s.picks base others) =
      (selected (s.picks base fields)).filter fun ref => !ref.sameColumn gone := by
  have excluded : ∀ ref, ref ∈ ((s.picks base others).filter (·.excluded)).flatMap Item.references ↔
      ref ∈ ((s.picks base fields).filter (·.excluded)).flatMap Item.references ∨ ref = gone := by
    intro ref
    simp only [mem_excludedReferences, h.excluded]
    constructor
    · rintro ⟨other, j, hr | rfl, also, mem⟩
      · exact .inl ⟨other, j, hr, also, mem⟩
      · rw [found] at also
        cases also
        rw [one] at mem
        exact .inr (List.mem_singleton.mp mem)
    · rintro (⟨other, j, hr, also, mem⟩ | rfl)
      · exact ⟨other, j, .inl hr, also, mem⟩
      · refine ⟨name, i, .inr rfl, found, ?_⟩
        rw [one]
        exact List.mem_singleton_self _
  have kept : ∀ ref : Reference,
      (((s.picks base others).filter (·.excluded)).flatMap Item.references).any ref.sameColumn =
        ((((s.picks base fields).filter (·.excluded)).flatMap Item.references).any ref.sameColumn ||
          ref.sameColumn gone) := by
    intro ref
    rw [Bool.eq_iff_iff, Bool.or_eq_true, List.any_eq_true, List.any_eq_true]
    simp only [excluded, or_and_right, exists_or, exists_eq_left]
  unfold selected
  simp only [kept, Bool.not_or]
  rw [Keyed.distinct_filter, ← distinct_wanted h.named, Keyed.distinct_filter, List.filter_filter]
  refine List.filter_congr fun ref _ => Bool.and_comm _ _

end Settings

/-- The columns that are selected whatever is excluded: those of forced fields, of the index and of
the primary keys that are needed. -/
def Resolution.kept (r : Resolution) (base : Entity) : List Reference :=
  selected r.forced ++ (r.index.bind Item.reference?).toList ++ (r.scopes base).neededKeys

namespace Resolution

variable {base : Entity} {r t : Resolution} {gone : Reference}
  (fields : selected t.fields = (selected r.fields).filter fun ref => !ref.sameColumn gone)
  (forced : t.forced = r.forced) (index : t.index = r.index)
  (free : ∀ ref ∈ r.kept base, ref.sameColumn gone = false)

include fields forced index free

theorem requested_without : t.requested = r.requested.filter fun ref => !ref.sameColumn gone := by
  have spared : ∀ ref ∈ selected r.forced ++ (r.index.bind Item.reference?).toList,
      !ref.sameColumn gone := by
    intro ref hr
    rw [free ref (List.mem_append_left _ hr)]
    rfl
  rw [requested, requested, fields, forced, index, List.append_assoc, List.append_assoc,
    List.filter_append, List.filter_eq_self.mpr spared]

theorem injected_without : t.injected (r.scopes base) = r.injected (r.scopes base) := by
  rw [injected, injected, requested_without fields forced index free]
  -- a column that reads a needed key is none of those that go
  refine List.filter_congr fun key hk => ?_
  have needed := free key (List.mem_append_right _ hk)
  have same (ref : Reference) :
      (!ref.sameColumn gone && ref.sameColumn key) = ref.sameColumn key := by
    cases reads : ref.sameColumn key with
    | false => rw [Bool.and_false]
    | true =>
        simp only [Reference.sameColumn, Bool.and_eq_true, decide_eq_true_eq] at reads
        rw [Bool.and_true, Reference.sameColumn, reads.1, reads.2]
        rw [Reference.sameColumn] at needed
        rw [needed]
        rfl
  rw [List.any_filter]
  simp only [same]

theorem columns_without : t.columns (r.scopes base) =
    (r.columns (r.scopes base)).filter fun ref => !ref.sameColumn gone := by
  have spared : ∀ ref ∈ r.injected (r.scopes base), !ref.sameColumn gone := by
    intro ref hr
    rw [free ref (List.mem_append_right _ (List.mem_filter.mp hr).1)]
    rfl
  rw [columns, columns, injected_without fields forced index free,
    requested_without fields forced index free, ← Keyed.distinct_filter, List.filter_append,
    List.filter_eq_self.mpr spared]

end Resolution

theorem Scope.Rooted.source_eq_iff {scope : Scope} (h : scope.Rooted) {ref : Reference}
    (known : ref.path ∈ scope.tables.map Prod.fst) (name : String) :
    (scope.column ref).source = baseColumn name ↔ ref.sameColumn (.plain .root name) = true := by
  have root : scope.aliasOf ref.path = .root ↔ ref.path = .root := by
    constructor
    · intro same
      obtain ⟨e, there⟩ := Scope.exists_table? h.backed.paths known
      obtain ⟨base, first⟩ := h.first
      rw [same, first] at there
      exact (Prod.mk.inj (Option.some.inj there)).1.symm
    · intro same
      rw [same, h.aliasOf_root]
  rw [Scope.column, baseColumn, Sql.QualifiedColumn.mk.injEq, Alias.token_injective.eq_iff, root,
    Reference.sameColumn, Bool.and_eq_true, decide_eq_true_eq, decide_eq_true_eq]
  rfl

theorem Scope.Rooted.map_column_without {scope : Scope} (h : scope.Rooted) {refs : List Reference}
    (known : ∀ ref ∈ refs, ref.path ∈ scope.tables.map Prod.fst) (name : String) :
    (refs.filter fun ref => !ref.sameColumn (.plain .root name)).map scope.column =
      (refs.map scope.column).filter fun column => column.source ≠ baseColumn name := by
  rw [List.filter_map]
  congr 1
  refine List.filter_congr fun ref hr => ?_
  have source := h.source_eq_iff (known ref hr) name
  rw [Bool.eq_iff_iff, Bool.not_eq_true', Function.comp_apply, decide_eq_true_eq, ne_eq, source,
    Bool.not_eq_true]

def Compiled.without (name : String) (c : Compiled) : Compiled :=
  { c with
    select := { c.select with
      columns := c.select.columns.filter fun column => column.source ≠ baseColumn name } }

namespace Query

variable {s : Settings} {a b q : Query} {base : Entity} {r : Resolution} {name : String}

/-! ## Queries that exclude one more field -/

theorem excluding_select {field : String} (alone : ',' ∉ field.toList) (q : Query) :
    Excluding (· = Text.trim field) q (q.select ("!" ++ field)) := by
  have selected : q.select ("!" ++ field) =
      q.edit fun c => { c with selects := c.selects ++ ["!" ++ field] } := by
    rw [select, if_neg (by simpa [String.isEmpty_iff] using trim_excluded_ne field)]
  have one : ExcludesMore (· = Text.trim field) [] (splitFields ("!" ++ field)) := by
    refine ⟨?_, fun name => ?_, ?_⟩
    · rw [namedFields, namedFields, reads_excluded alone]
      rfl
    · rw [reads_excluded alone, List.mem_singleton, Read.mk.injEq]
      simp [reads]
    · rw [not_isJoined_of_not_comma fun _ => not_comma_of_mem_splitFields]
      rfl
  rw [selected]
  refine ⟨⟨q.clauses.selects ++ ["!" ++ field], q.clauses.selectsWith, rfl⟩, ?_, rfl, rfl, rfl, rfl⟩
  simp only [edit, Clauses.listed, List.flatMap_append, List.flatMap_singleton]
  exact one.insert _ _

namespace Excluding

theorem resolves (h : Excluding (· = name) a b) (ha : a.Resolves s base r)
    (found : (s.itemOf? base ⟨true, name⟩).isSome) :
    b.Resolves s base (r.withFields (s.picks base b.clauses.fields)) ∧
      (r.withFields (s.picks base b.clauses.fields)).scopes base = r.scopes base ∧
      Keyed.distinct (r.hops false) =
        Keyed.distinct ((r.withFields (s.picks base b.clauses.fields)).hops false) := by
  have listed : b.clauses.listed ≠ [] := by
    intro none
    have held := (h.listed.excluded name).mpr (.inr rfl)
    rw [none] at held
    cases held
  have resolves := ha.reselect h.clauses h.params fun read hr => by
    rw [Clauses.fields_of_explicit (.inl listed)] at hr
    rcases h.listed.mem_reads hr with hr | ⟨_, rfl, rfl⟩
    · exact ha.picks.1 read (List.map_subset readField a.clauses.listed_subset_fields hr)
    · exact found
  -- back from what this resolves to, which is what `a` resolves to already
  obtain ⟨again, scopes, hops⟩ := h.fewer resolves
  obtain ⟨-, same⟩ := ha.unique again
  rw [← same] at scopes hops
  exact ⟨resolves, scopes.symm, hops.symm⟩

theorem assemble_eq (h : Excluding (· = name) a b) (ha : a.Resolves s base r) (single : FieldName name)
    (hc : base.hasColumn name) (explicit : a.clauses.Explicit)
    (free : ∀ ref ∈ r.kept base, ref.sameColumn (.plain .root name) = false)
    {first second : List (Mount × Query)} (mounts : second.map Prod.fst = first.map Prod.fst) :
    { b with children := second }.assemble s base (r.withFields (s.picks base b.clauses.fields)) =
      ({ a with children := first }.assemble s base r).without name := by
  have found : s.itemOf? base ⟨true, name⟩ = _ := Settings.itemOf?_column single hc
  obtain ⟨-, scopes, -⟩ := h.resolves ha (by rw [found]; rfl)
  have picks := ha.picks.2
  rw [Clauses.fields_of_explicit explicit] at picks
  have fields : selected (r.withFields (s.picks base b.clauses.fields)).fields =
      (selected r.fields).filter fun ref => !ref.sameColumn (.plain .root name) := by
    rw [picks, Clauses.fields_of_explicit (h.explicit explicit)]
    exact Settings.selected_excludesMore h.listed found rfl
  have injected := Resolution.injected_without fields rfl rfl free
  have columns := Resolution.columns_without fields rfl rfl free
  have known : ∀ ref ∈ r.columns (r.scopes base),
      ref.path ∈ (r.scopes base).whole.tables.map Prod.fst := fun ref hr =>
    ((Scope.tables_prefix_addAll (r.scopes base).shown r.otherNeeds).map _).subset
      ((Settings.check_ok ha.resolution).path_of_column hr)
  have rooted : (r.scopes base).whole.Rooted := ((Scope.rooted_base base).addAll _).addAll _
  have labelled := rooted.map_column_without known name
  generalize s.picks base b.clauses.fields = items at scopes injected columns ⊢
  obtain ⟨selects, selectsWith, clauses⟩ := h.clauses
  have statement : (r.withFields items).statement s base (r.scopes base) b.clauses a.link =
      { r.statement s base (r.scopes base) a.clauses a.link with
        columns := (r.statement s base (r.scopes base) a.clauses a.link).columns.filter
          fun column => column.source ≠ baseColumn name } := by
    simp only [Resolution.statement, columns, labelled, clauses]
    rfl
  have plan : (r.withFields items).plan s (r.scopes base) b.clauses.index
      (first.map Prod.fst) = r.plan s (r.scopes base) a.clauses.index (first.map Prod.fst) := by
    simp only [Resolution.plan, injected, clauses]
    rfl
  unfold assemble Compiled.without
  simp only [scopes, mounts, h.link, statement, plan]
  simp only [clauses]

end Excluding

theorem namesAt_iff {field : String} {hop : Hop}
    (goes : s.hopOf? base ⟨true, field⟩ = some hop) (alone : ',' ∉ hop.field.toList) (name : String) :
    namesAt s base hop.mount (· = field) name ↔ name = Text.trim hop.field := by
  have here : (s.hopOf? base ⟨true, field⟩).bind (restAt? hop.mount) = some hop.field := by
    rw [goes, Option.bind_some, restAt?, if_pos rfl]
  constructor
  · rintro ⟨rest, ⟨_, rfl, found⟩, hr⟩
    cases here.symm.trans found
    rw [reads_excluded alone, List.mem_singleton] at hr
    exact (Read.mk.inj hr).2
  · rintro rfl
    refine ⟨hop.field, ⟨field, rfl, here⟩, ?_⟩
    rw [reads_excluded alone]
    exact List.mem_singleton_self _

theorem Excluding.at_hop {field : String} (h : Excluding (· = field) a b)
    (ha : a.Resolves s base r) {hop : Hop} (goes : s.hopOf? base ⟨true, field⟩ = some hop)
    (alone : ',' ∉ hop.field.toList) {child : Query}
    (held : (a.forward s.schema r).children.lookup hop.mount = some child) :
    ∃ t other, b.Resolves s base t ∧ (b.forward s.schema t).children.lookup hop.mount = some other ∧
      Excluding (· = Text.trim hop.field) child other := by
  obtain ⟨i, item, -⟩ := Option.bind_eq_some_iff.mp goes
  obtain ⟨resolved, -, hops⟩ := h.resolves ha (by rw [item]; rfl)
  obtain ⟨other, there⟩ := Keyed.exists_lookup_of_keys
    (mounts_forward_congr h.children hops s.schema) held
  have excludes := h.child ha resolved rfl hops held there
  exact ⟨_, other, resolved, there, excludes.of_iff (namesAt_iff goes alone)⟩

/-! ## Excluded columns -/

def Keeps (s : Settings) (name : String) (q : Query) : Prop :=
  ∃ base r, q.Resolves s base r ∧ ∃ ref ∈ r.kept base, ref.sameColumn (.plain .root name) = true

instance (s : Settings) (name : String) (q : Query) : Decidable (q.Keeps s name) :=
  decidable_of_iff ((q.resolution? s).any fun (base, r) =>
      (r.kept base).any fun ref => ref.sameColumn (.plain .root name)) <| by
    simp only [Option.any_eq_true, List.any_eq_true, Prod.exists, resolution?_eq_some_iff, Keeps]

structure Excludable (s : Settings) (name : String) (q : Query) (c : Compiled) : Prop where
  column : ∃ base, q.base? s.schema = some base ∧ base.hasColumn name
  explicit : q.clauses.Explicit
  free : ¬ q.Keeps s name
  compiles : (q.compile s).map Prod.fst = .ok c

def excludable? (s : Settings) (name : String) (q : Query) : Option Compiled :=
  if (q.base? s.schema).any (fun base => base.hasColumn name) ∧ q.clauses.Explicit ∧
    ¬ q.Keeps s name then (q.compile s).toOption.map Prod.fst else none

theorem compile_of_toOption {both : Compiled × Query} (h : (q.compile s).toOption = some both) :
    q.compile s = .ok both := by
  cases compiled : q.compile s with
  | error faults => rw [compiled] at h; cases h
  | ok other => rw [compiled] at h; cases h; rfl

theorem excludable_of_eq_some {c : Compiled} (h : q.excludable? s name = some c) :
    q.Excludable s name c := by
  unfold excludable? at h
  split at h
  · next conditions =>
    obtain ⟨column, explicit, free⟩ := conditions
    obtain ⟨both, compiles, rfl⟩ := Option.map_eq_some_iff.mp h
    refine ⟨?_, explicit, free, ?_⟩
    · simpa [Option.any_eq_true] using column
    · rw [compile_of_toOption compiles]
      rfl
  · cases h

theorem Excluding.compile (h : Excluding (· = name) a b) (single : FieldName name) {c : Compiled}
    (ha : a.Excludable s name c) : (b.compile s).map Prod.fst = .ok (c.without name) := by
  obtain ⟨base, hb, hc⟩ := ha.column
  have compiles := ha.compiles
  rcases resolves_or_error s a with ⟨found, r, resolves, faultless⟩ | ⟨faults, failed⟩
  · obtain rfl : base = found := Option.some.inj (hb.symm.trans resolves.entity)
    have free : ∀ ref ∈ r.kept base, ref.sameColumn (.plain .root name) = false := fun ref hr =>
      Bool.eq_false_iff.mpr fun same => ha.free ⟨base, r, resolves, ref, hr, same⟩
    have item := Settings.itemOf?_column (s := s) single hc
    obtain ⟨other, -, hops⟩ := h.resolves resolves (by rw [item]; rfl)
    rw [compile_of_resolves resolves faultless] at compiles
    cases compiles
    rw [compile_of_resolves other (h.faults.trans faultless)]
    have mounts := mounts_forward_congr h.children hops s.schema
    exact congrArg Except.ok (h.assemble_eq resolves single hc ha.explicit free mounts)
  · rw [failed] at compiles
    cases compiles

/-- To exclude a column that a query does not keep takes just this column from the columns that it
selects. If the field that is excluded goes on through a toMany property, then the child there, with
keys of owners or not, selects the same columns without this one. -/
theorem excluded_column (s : Settings) (q : Query) {name : String} (single : FieldName name) :
    (∀ c, q.Excludable s name c → ((q.select ("!" ++ name)).build s).1 = .ok (c.without name)) ∧
      ∀ base compiled next field hop child keys c, q.base? s.schema = some base →
        q.compile s = .ok (compiled, next) → ',' ∉ field.toList →
        s.hopOf? base ⟨true, Text.trim field⟩ = some hop → hop.field = name →
        next.children.lookup hop.mount = some child →
        (child.restricted keys).Excludable s name c →
        ∃ also later other, (q.select ("!" ++ field)).compile s = .ok (also, later) ∧
          later.children.lookup hop.mount = some other ∧
          ((other.restricted keys).compile s).map Prod.fst = .ok (c.without name) := by
  have alone := single.single ',' (by decide)
  constructor
  · intro c excludable
    have excluding := excluding_select alone q
    rw [single.trimmed] at excluding
    have fresh : (q.select ("!" ++ name)).compiled = none := by
      rw [select, if_neg (by simpa [String.isEmpty_iff] using trim_excluded_ne name)]
      rfl
    rw [build_fst fresh]
    exact excluding.compile single excludable
  · intro base compiled next field hop child keys c hb compiles comma goes rest held excludable
    have excluding := excluding_select comma q
    rcases resolves_or_error s q with ⟨found, r, resolves, faultless⟩ | ⟨faults, failed⟩
    · obtain rfl : base = found := Option.some.inj (hb.symm.trans resolves.entity)
      rw [compile_of_resolves resolves faultless] at compiles
      cases compiles
      rw [← rest] at alone
      obtain ⟨t, other, resolved, there, excludes⟩ := excluding.at_hop resolves goes alone held
      rw [rest, single.trimmed] at excludes
      exact ⟨_, _, other, compile_of_resolves resolved (excluding.faults.trans faultless), there,
        (excludes.restricted keys).compile single excludable⟩
    · rw [failed] at compiles
      cases compiles

end Query

namespace Sample

def everything : Query := ({} : Query).setSource schema "Order"

def detailed : Query := everything.select "*, customer.name"

def owners : Query := (({} : Query).setSource schema "Customer").select "orders.total, orders.id"

end Sample

theorem Query.excluded_column_orders : ∃ c owner next child bare also later other,
    Sample.detailed.Excludable Sample.settings "total" c ∧
      ((Sample.detailed.select "!total").build Sample.settings).1 = .ok (c.without "total") ∧
      (c.without "total").select.columns.map (·.source.column) =
        ["id", "customerId", "name", "id"] ∧
      Sample.owners.compile Sample.settings = .ok (owner, next) ∧
      next.children.lookup ⟨.root, "orders"⟩ = some child ∧
      (child.restricted (some [.ofInt64 7])).Excludable Sample.settings "total" bare ∧
      (Sample.owners.select "! orders . total ").compile Sample.settings = .ok (also, later) ∧
      later.children.lookup ⟨.root, "orders"⟩ = some other ∧
      ((other.restricted (some [.ofInt64 7])).compile Sample.settings).map Prod.fst =
        .ok (bare.without "total") := by
  have single : FieldName "total" := ⟨by simp, by decide, by decide⟩
  have columns : (Sample.detailed.excludable? Sample.settings "total").map (fun c =>
      (c.without "total").select.columns.map (·.source.column)) =
        some ["id", "customerId", "name", "id"] := by decide +kernel
  obtain ⟨c, excludable, columns⟩ := Option.map_eq_some_iff.mp columns
  have below : ((Sample.owners.compile Sample.settings).toOption.bind fun both =>
      (both.2.children.lookup ⟨.root, "orders"⟩).bind fun child =>
        (child.restricted (some [.ofInt64 7])).excludable? Sample.settings "total").isSome := by
    decide +kernel
  obtain ⟨bare, below⟩ := Option.isSome_iff_exists.mp below
  obtain ⟨⟨owner, next⟩, compiles, below⟩ := Option.bind_eq_some_iff.mp below
  obtain ⟨child, held, below⟩ := Option.bind_eq_some_iff.mp below
  have compiles := compile_of_toOption compiles
  obtain ⟨base, entity, hop, goes, mount, rest⟩ : ∃ base,
      Sample.owners.base? Sample.schema = some base ∧ ∃ hop,
        Sample.settings.hopOf? base ⟨true, Text.trim " orders . total "⟩ = some hop ∧
          hop.mount = ⟨.root, "orders"⟩ ∧ hop.field = "total" := ⟨_, rfl, _, rfl, rfl, rfl⟩
  rw [← mount] at held
  obtain ⟨column, -⟩ := excluded_column Sample.settings Sample.detailed single
  obtain ⟨-, further⟩ := excluded_column Sample.settings Sample.owners single
  obtain ⟨also, later, other, forwards, found, without⟩ := further base owner next
    " orders . total " hop child (some [.ofInt64 7]) bare entity compiles (by decide) goes rest held
    (excludable_of_eq_some below)
  rw [mount] at held found
  exact ⟨c, owner, next, child, bare, also, later, other, excludable_of_eq_some excludable,
    column c (excludable_of_eq_some excludable), columns, compiles, held,
    excludable_of_eq_some below, forwards, found, without⟩

theorem Query.excluded_alone :
    FieldName "total" ∧
      (Sample.everything.base? Sample.schema).any (·.hasColumn "total") ∧
      ¬ Sample.everything.Keeps Sample.settings "total" ∧
      (∃ compiled next, Sample.everything.build Sample.settings = (.ok compiled, next) ∧
        compiled.select.columns.map (·.source.column) = ["id", "total", "customerId"]) ∧
      ∃ compiled next, (Sample.everything.select "!total").build Sample.settings =
          (.ok compiled, next) ∧ compiled.select.columns = [] := by
  refine ⟨⟨by simp, by decide, by decide⟩, by decide +kernel, by decide +kernel,
    ⟨_, _, rfl, by decide +kernel⟩, ⟨_, _, rfl, by decide +kernel⟩⟩

end RowGraph
