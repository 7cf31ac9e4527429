import RowGraph.Proofs.Scope
import RowGraph.Proofs.Sound

/-!
# Select lists

Of a select list it matters which fields are in it, in the order in which they are first named, and
which it excludes, in no order (`SameSelection`). Such lists resolve alike
(`Query.Reselects.resolves`), to the same tables and columns.
-/

namespace RowGraph

/-! ## Reading fields -/

structure Read where
  excluded : Bool
  name : String
  deriving DecidableEq

def readField (field : String) : Read :=
  match (Text.trim field).toList with
  | '!' :: rest => ⟨true, Text.trim (String.ofList rest)⟩
  | plain => ⟨false, String.ofList plain⟩

def reads (fields : List String) : List Read := fields.map readField

theorem reads_append (fields more : List String) :
    reads (fields ++ more) = reads fields ++ reads more := List.map_append

abbrev namedFields (fields : List String) : List Read :=
  Keyed.distinct ((reads fields).filter (!·.excluded))

theorem mem_reads_of_named {fields others : List String}
    (named : namedFields fields = namedFields others) (name : String) :
    ⟨false, name⟩ ∈ reads fields ↔ ⟨false, name⟩ ∈ reads others := by
  have mem := Keyed.mem_congr named (x := ⟨false, name⟩)
  simpa only [List.mem_filter, Bool.not_false, and_true] using mem

/-- Whether a child may read the rest of an excluded field as several fields, of which only the
first is excluded. -/
def Read.isJoined (read : Read) : Bool := read.excluded && read.name.toList.contains ','

/-- Two lists that name the same fields in the same order of first use, and exclude the same. -/
structure SameSelection (fields others : List String) : Prop where
  named : namedFields fields = namedFields others
  excluded : ∀ name, ⟨true, name⟩ ∈ reads fields ↔ ⟨true, name⟩ ∈ reads others
  joined : Keyed.distinct ((reads fields).filter (·.isJoined)) =
    Keyed.distinct ((reads others).filter (·.isJoined))

namespace SameSelection

variable {fields others : List String}

theorem refl (fields : List String) : SameSelection fields fields := ⟨rfl, fun _ => .rfl, rfl⟩

theorem symm (h : SameSelection fields others) : SameSelection others fields :=
  ⟨h.named.symm, fun name => (h.excluded name).symm, h.joined.symm⟩

theorem trans {last : List String} (h : SameSelection fields others)
    (hl : SameSelection others last) : SameSelection fields last :=
  ⟨h.named.trans hl.named, fun name => (h.excluded name).trans (hl.excluded name),
    h.joined.trans hl.joined⟩

theorem mem_reads (h : SameSelection fields others) (read : Read) :
    read ∈ reads fields ↔ read ∈ reads others := by
  obtain ⟨_ | _, name⟩ := read
  · exact mem_reads_of_named h.named name
  · exact h.excluded name

theorem append {back more : List String} (h : SameSelection fields others)
    (hb : SameSelection back more) : SameSelection (fields ++ back) (others ++ more) where
  named := by
    simp only [namedFields, reads_append, List.filter_append]
    exact Keyed.distinct_append_congr h.named hb.named
  excluded := by
    intro name
    simp only [reads_append, List.mem_append, h.excluded, hb.excluded]
  joined := by
    simp only [reads_append, List.filter_append]
    exact Keyed.distinct_append_congr h.joined hb.joined

theorem append_of_subset {back : List String} (h : back ⊆ fields) :
    SameSelection fields (fields ++ back) := by
  have subset : reads back ⊆ reads fields := List.map_subset readField h
  refine ⟨?_, ?_, ?_⟩
  · rw [namedFields, namedFields, reads_append, List.filter_append,
      Keyed.distinct_append_of_subset (List.filter_subset _ subset)]
  · intro name
    rw [reads_append, List.mem_append]
    exact ⟨.inl, fun hm => hm.elim id fun hm => subset hm⟩
  · rw [reads_append, List.filter_append,
      Keyed.distinct_append_of_subset (List.filter_subset _ subset)]

theorem nil_iff (h : SameSelection fields others) : fields = [] ↔ others = [] := by
  have empty (fields : List String) : fields = [] ↔ ∀ read, read ∉ reads fields := by
    rw [← List.eq_nil_iff_forall_not_mem, reads, List.map_eq_nil_iff]
  rw [empty, empty]
  simp only [h.mem_reads]

end SameSelection

/-! ## Items of a list -/

theorem forall₂_iff_filterMap {α β : Type} {f : α → Option β} {as : List α} {bs : List β} :
    List.Forall₂ (fun a b => f a = some b) as bs ↔
      (∀ a ∈ as, (f a).isSome) ∧ bs = as.filterMap f := by
  induction as generalizing bs with
  | nil => simp
  | cons a rest ih =>
      rw [List.forall₂_cons_left_iff, List.forall_mem_cons]
      constructor
      · rintro ⟨b, more, found, below, rfl⟩
        obtain ⟨all, rfl⟩ := ih.mp below
        exact ⟨⟨by rw [found]; rfl, all⟩, (List.filterMap_cons_some found).symm⟩
      · rintro ⟨⟨found, all⟩, rfl⟩
        obtain ⟨b, found⟩ := Option.isSome_iff_exists.mp found
        exact ⟨b, _, found, ih.mpr ⟨all, rfl⟩, List.filterMap_cons_some found⟩

namespace Settings

variable (s : Settings) (base : Entity)

def itemOf? (read : Read) : Option Item :=
  if read = ⟨false, ""⟩ then none
  else (s.walkField base .select read.name).toOption.map fun walk =>
    { excluded := read.excluded, walk }

variable {s base}

theorem excluded_of_itemOf? {read : Read} {i : Item} (h : s.itemOf? base read = some i) :
    i.excluded = read.excluded := by
  unfold itemOf? at h
  split at h
  · cases h
  · obtain ⟨walk, -, rfl⟩ := Option.map_eq_some_iff.mp h
    rfl

theorem item_toOption (fields : List String) (field : String) :
    (s.item base .select fields field).toOption = s.itemOf? base (readField field) := by
  have mapped : ∀ {α β ε : Type} (f : α → β) (result : Except ε α),
      (result.map f).toOption = result.toOption.map f := by
    intro α β ε f result
    cases result <;> rfl
  unfold item readField itemOf?
  generalize (Text.trim field).toList = chars
  rcases chars with _ | ⟨c, rest⟩
  · rfl
  · by_cases mark : c = '!'
    · subst mark
      simp [mapped]
    · simp [mark, mapped]

theorem items_eq_ok_iff {fields : List String} {items : List Item} :
    s.items base .select fields = .ok items ↔
      (∀ read ∈ reads fields, (s.itemOf? base read).isSome) ∧
        items = (reads fields).filterMap (s.itemOf? base) := by
  rw [Settings.items, Checked.all_map_eq_ok_iff]
  have picks : ∀ field i, Checked.ofExcept (s.item base .select fields field) = .ok i ↔
      s.itemOf? base (readField field) = some i := by
    intro field i
    rw [← item_toOption fields, Checked.ofExcept_eq_ok_iff]
    cases s.item base .select fields field <;> simp [Except.toOption]
  simp only [picks]
  rw [forall₂_iff_filterMap (f := fun field => s.itemOf? base (readField field))]
  simp only [reads, List.forall_mem_map, List.filterMap_map, Function.comp_def]

def picks (s : Settings) (base : Entity) (fields : List String) : List Item :=
  (reads fields).filterMap (s.itemOf? base)

theorem filter_itemOf? (p : Bool → Bool) (list : List Read) :
    (list.filterMap (s.itemOf? base)).filter (fun i => p i.excluded) =
      (list.filter fun read => p read.excluded).filterMap (s.itemOf? base) := by
  rw [List.filter_filterMap, List.filterMap_filter]
  refine List.filterMap_congr fun read _ => ?_
  cases found : s.itemOf? base read with
  | none => simp
  | some i => rw [Option.filter_some, excluded_of_itemOf? found]

theorem flatMap_itemOf? {α : Type} (f : Item → List α) (list : List Read) :
    (list.filterMap (s.itemOf? base)).flatMap f =
      list.flatMap fun read => (s.itemOf? base read).toList.flatMap f := by
  rw [List.filterMap_eq_flatMap_toList, List.flatMap_assoc]

theorem mem_excludedReferences {fields : List String} {ref : Reference} :
    ref ∈ ((s.picks base fields).filter (·.excluded)).flatMap Item.references ↔
      ∃ other i, ⟨true, other⟩ ∈ reads fields ∧ s.itemOf? base ⟨true, other⟩ = some i ∧
        ref ∈ i.references := by
  simp only [picks, List.mem_flatMap, List.mem_filter, List.mem_filterMap]
  constructor
  · rintro ⟨i, ⟨⟨⟨mark, other⟩, hr, found⟩, excluded⟩, mem⟩
    rw [excluded_of_itemOf? found] at excluded
    dsimp only at excluded
    subst excluded
    exact ⟨other, i, hr, found, mem⟩
  · rintro ⟨other, i, hr, found, mem⟩
    exact ⟨i, ⟨⟨_, hr, found⟩, excluded_of_itemOf? found⟩, mem⟩

theorem distinct_wanted {fields others : List String}
    (named : namedFields fields = namedFields others) :
    Keyed.distinct (((s.picks base fields).filter (!·.excluded)).flatMap Item.references) =
      Keyed.distinct (((s.picks base others).filter (!·.excluded)).flatMap Item.references) := by
  simp only [picks, filter_itemOf? (!·), flatMap_itemOf?]
  exact Keyed.distinct_flatMap_congr named _

theorem selected_picks {fields others : List String} (h : SameSelection fields others) :
    selected (s.picks base fields) = selected (s.picks base others) := by
  have kept (ref : Reference) :
      (((s.picks base fields).filter (·.excluded)).flatMap Item.references).any ref.sameColumn =
        (((s.picks base others).filter (·.excluded)).flatMap Item.references).any
          ref.sameColumn := by
    rw [Bool.eq_iff_iff, List.any_eq_true, List.any_eq_true]
    simp only [mem_excludedReferences, h.excluded]
  unfold selected
  simp only [kept]
  exact Keyed.distinct_filter_congr (distinct_wanted h.named) _

end Settings

/-! ## Needs that are met -/

namespace Scope

variable {scope : Scope} {need : Need}

def Has (scope : Scope) : Need → Prop
  | .join step shown => step.path ∈ scope.tables.map Prod.fst ∧
      step.path ∈ scope.joins.map Prod.fst ∧
      (shown = true → scope.aliasOf step.path ∈ scope.shown.map Prod.fst ∧ step.path ∈ scope.keys)
  | .key path => path ∈ scope.keys

structure Holds (scope more : Scope) : Prop where
  tables : scope.tables <+: more.tables
  joins : scope.joins.map Prod.fst ⊆ more.joins.map Prod.fst
  shown : scope.shown.map Prod.fst ⊆ more.shown.map Prod.fst
  keys : scope.keys ⊆ more.keys

theorem Has.mono {more : Scope} (h : scope.Has need) (grown : scope.Holds more) :
    more.Has need := by
  cases need with
  | key path => exact grown.keys h
  | join step shown =>
      obtain ⟨table, join, object⟩ := h
      refine ⟨(grown.tables.map Prod.fst).subset table, grown.joins join, fun hs => ?_⟩
      rw [aliasOf_grown grown.tables table]
      exact (object hs).imp (grown.shown ·) (grown.keys ·)

theorem keys_subset_putNew {κ α : Type} [DecidableEq κ] (key : κ) (value : α)
    (entries : List (κ × α)) :
    entries.map Prod.fst ⊆ (Keyed.putNew key value entries).map Prod.fst ∧
      key ∈ (Keyed.putNew key value entries).map Prod.fst := by
  rw [Keyed.keys_putNew]
  split
  · next held => exact ⟨fun _ h => h, held⟩
  · exact ⟨List.subset_append_left _ _, List.mem_append_right _ (List.mem_singleton_self key)⟩

theorem holds_addKey (path : Path) : scope.Holds (scope.addKey path) := by
  refine ⟨?_, ?_, ?_, fun _ h => mem_keys_addKey.mpr (.inl h)⟩
  · rw [tables_addKey]
  · rw [joins_addKey]
    exact fun _ h => h
  · rw [shown_addKey]
    exact fun _ h => h

theorem holds_addJoin (step : Step) : scope.Holds (scope.addJoin step) :=
  ⟨tables_prefix_addAll scope [.join step false], (keys_subset_putNew ..).1, fun _ h => h,
    fun _ h => h⟩

theorem holds_addShown (step : Step) : scope.Holds (scope.addShown step) := by
  refine ⟨?_, ?_, ?_, fun _ h => mem_keys_addKey.mpr (.inl h)⟩
  · rw [tables_addShown]
  · rw [joins_addShown]
    exact fun _ h => h
  · rw [addShown, shown_addKey]
    exact (keys_subset_putNew ..).1

theorem Holds.trans {more last : Scope} (h : scope.Holds more) (hl : more.Holds last) :
    scope.Holds last :=
  ⟨h.tables.trans hl.tables, List.Subset.trans h.joins hl.joins, List.Subset.trans h.shown hl.shown,
    List.Subset.trans h.keys hl.keys⟩

theorem holds_add (need : Need) : scope.Holds (scope.add need) := by
  rcases need with ⟨step, _ | _⟩ | path
  · exact holds_addJoin step
  · exact (holds_addJoin step).trans (holds_addShown step)
  · exact holds_addKey path

theorem holds_addAll (needs : List Need) : scope.Holds (scope.addAll needs) := by
  induction needs generalizing scope with
  | nil => exact ⟨List.prefix_refl _, fun _ h => h, fun _ h => h, fun _ h => h⟩
  | cons need rest ih => exact (holds_add need).trans ih

theorem has_add (need : Need) : (scope.add need).Has need := by
  rcases need with ⟨step, _ | _⟩ | path
  · exact ⟨(keys_subset_putNew ..).2, (keys_subset_putNew ..).2, nofun⟩
  · obtain ⟨table, join, -⟩ : (scope.addJoin step).Has (.join step false) :=
      ⟨(keys_subset_putNew ..).2, (keys_subset_putNew ..).2, nofun⟩
    have grown := (scope.addJoin step).holds_addShown step
    refine ⟨(grown.tables.map Prod.fst).subset table, grown.joins join, fun _ => ⟨?_, ?_⟩⟩
    · rw [add, aliasOf_grown grown.tables table, addShown, shown_addKey]
      exact (keys_subset_putNew ..).2
    · exact mem_keys_addKey.mpr (.inr rfl)
  · exact mem_keys_addKey.mpr (.inr rfl)

theorem addKey_of_mem {path : Path} (h : path ∈ scope.keys) : scope.addKey path = scope :=
  if_pos (List.contains_iff_mem.mpr h)

theorem addJoin_of_mem {step : Step} (table : step.path ∈ scope.tables.map Prod.fst)
    (join : step.path ∈ scope.joins.map Prod.fst) : scope.addJoin step = scope := by
  rw [addJoin, Keyed.putNew_of_mem _ table, Keyed.putNew_of_mem _ join]

theorem Has.add_eq (h : scope.Has need) : scope.add need = scope := by
  rcases need with ⟨step, _ | _⟩ | path
  · exact addJoin_of_mem h.1 h.2.1
  · obtain ⟨table, join, object⟩ := h
    obtain ⟨shown, key⟩ := object rfl
    rw [add, addJoin_of_mem table join, addShown, Keyed.putNew_of_mem _ shown]
    exact addKey_of_mem key
  · exact addKey_of_mem h

theorem has_addAll {needs : List Need} (h : need ∈ needs) : (scope.addAll needs).Has need := by
  obtain ⟨front, back, rfl⟩ := List.append_of_mem h
  rw [addAll, List.foldl_append, List.foldl_cons]
  exact (has_add need).mono (holds_addAll back)

theorem addAll_eq_self {needs : List Need} (h : ∀ need ∈ needs, scope.Has need) :
    scope.addAll needs = scope := by
  induction needs with
  | nil => rfl
  | cons need rest ih =>
      rw [List.forall_mem_cons] at h
      rw [addAll, List.foldl_cons, h.1.add_eq]
      exact ih h.2

theorem addAll_flatMap_congr {κ : Type} [DecidableEq κ] {items others : List κ}
    (h : Keyed.distinct items = Keyed.distinct others) (f : κ → List Need) (scope : Scope) :
    scope.addAll (items.flatMap f) = scope.addAll (others.flatMap f) := by
  have once : ∀ list : List κ, scope.addAll (list.flatMap f) =
      (Keyed.distinct list).foldl (fun scope item => scope.addAll (f item)) scope := by
    intro list
    rw [addAll, List.foldl_flatMap]
    -- what an item needs is there from its first use on
    apply Keyed.foldl_distinct fun item scope => ∀ need ∈ f item, scope.Has need
    · exact fun scope item need hn => has_addAll hn
    · exact fun scope item other has need hn => (has need hn).mono (holds_addAll _)
    · exact fun scope item has => addAll_eq_self has
  rw [once, once, h]

end Scope

/-! ## Resolutions of select lists -/

theorem flatMap_eq_flatMap_filter {α β : Type} {p : α → Bool} {f : α → List β} {items : List α}
    (skips : ∀ item ∈ items, p item = false → f item = []) :
    items.flatMap f = (items.filter p).flatMap f := by
  induction items with
  | nil => rfl
  | cons item rest ih =>
      rw [List.forall_mem_cons] at skips
      rw [List.flatMap_cons, ih skips.2]
      cases hp : p item with
      | true => rw [List.filter_cons_of_pos hp, List.flatMap_cons]
      | false => rw [List.filter_cons_of_neg (by simp [hp]), skips.1 hp, List.nil_append]

theorem Item.needs_of_excluded {i : Item} (h : i.excluded = true) (shown : Bool) :
    i.needs shown = [] := by
  rw [needs, if_pos h]

namespace Settings

variable {s : Settings} {base : Entity} {fields others : List String}

theorem needs_picks (fields : List String) : (s.picks base fields).flatMap (·.needs true) =
    ((reads fields).filter (!·.excluded)).flatMap fun read =>
      (s.itemOf? base read).toList.flatMap (·.needs true) := by
  rw [picks, flatMap_itemOf?]
  apply flatMap_eq_flatMap_filter
  intro read _ mark
  cases found : s.itemOf? base read with
  | none => rfl
  | some i =>
      have excluded : i.excluded = true := by simpa [excluded_of_itemOf? found] using mark
      rw [Option.toList_some, List.flatMap_singleton, Item.needs_of_excluded excluded]

theorem addAll_picks (named : namedFields fields = namedFields others) (scope : Scope) :
    scope.addAll ((s.picks base fields).flatMap (·.needs true)) =
      scope.addAll ((s.picks base others).flatMap (·.needs true)) := by
  rw [needs_picks, needs_picks]
  exact Scope.addAll_flatMap_congr named _ scope

end Settings

namespace Resolution

variable {r : Resolution} {fields : List Item}

def withFields (r : Resolution) (fields : List Item) : Resolution := { r with fields }

theorem scopes_withFields (base : Entity)
    (needs : ∀ scope : Scope, scope.addAll (fields.flatMap (·.needs true)) =
      scope.addAll (r.fields.flatMap (·.needs true))) :
    (r.withFields fields).scopes base = r.scopes base := by
  have append : ∀ (scope : Scope) (front back : List Need),
      scope.addAll (front ++ back) = (scope.addAll front).addAll back :=
    fun scope front back => List.foldl_append
  have shown : (Scope.base base).addAll (r.withFields fields).shownNeeds =
      (Scope.base base).addAll r.shownNeeds := by
    simp only [shownNeeds, withFields, append, needs]
  rw [scopes, scopes, shown]
  rfl

theorem statement_withFields (same : selected fields = selected r.fields) (s : Settings)
    (base : Entity) (scopes : Scopes) (c : Clauses) (link : Option Link) :
    (r.withFields fields).statement s base scopes c link = r.statement s base scopes c link := by
  simp only [statement, columns, injected, requested, withFields, same]

theorem plan_withFields (same : selected fields = selected r.fields) (s : Settings)
    (scopes : Scopes) (index : Option Index) (mounts : List Mount) :
    (r.withFields fields).plan s scopes index mounts = r.plan s scopes index mounts := by
  simp only [plan, injected, requested, withFields, same]
  rfl

end Resolution

theorem Clauses.fields_eq (c : Clauses) : c.fields =
    if c.listed.isEmpty && c.expressions.isEmpty then ["*"] else c.listed := rfl

def Clauses.Explicit (c : Clauses) : Prop := c.listed ≠ [] ∨ c.expressions ≠ []

instance (c : Clauses) : Decidable c.Explicit :=
  inferInstanceAs (Decidable (c.listed ≠ [] ∨ c.expressions ≠ []))

theorem Clauses.fields_of_explicit {c : Clauses} (h : c.Explicit) :
    c.fields = c.listed := by
  rw [fields_eq, if_neg]
  rwa [Bool.and_eq_true, List.isEmpty_iff, List.isEmpty_iff, not_and_or]

theorem Clauses.listed_of_empty {c : Clauses} (h : ¬ c.Explicit) : c.listed = [] := by
  rw [Explicit, not_or, not_not] at h
  exact h.1

theorem Clauses.fields_of_empty {c : Clauses} (h : ¬ c.Explicit) : c.fields = ["*"] := by
  rw [Explicit, not_or, not_not, not_not] at h
  rw [fields_eq, if_pos]
  rw [h.1, h.2]
  rfl

namespace Query

theorem Resolves.picks {s : Settings} {q : Query} {base : Entity} {r : Resolution}
    (h : q.Resolves s base r) : (∀ read ∈ reads q.clauses.fields, (s.itemOf? base read).isSome) ∧
      r.fields = s.picks base q.clauses.fields := by
  have parts := h.resolution
  rw [Checks.resolution_eq_ok_iff] at parts
  exact Settings.items_eq_ok_iff.mp (congrArg Checks.fields parts)

theorem Resolves.reselect {s : Settings} {a b : Query} {base : Entity} {r : Resolution}
    (h : a.Resolves s base r)
    (clauses : ∃ selects selectsWith, b.clauses = { a.clauses with selects, selectsWith })
    (params : b.params = a.params)
    (all : ∀ read ∈ reads b.clauses.fields, (s.itemOf? base read).isSome) :
    b.Resolves s base (r.withFields (s.picks base b.clauses.fields)) := by
  have parts := h.resolution
  rw [Checks.resolution_eq_ok_iff] at parts
  have others : s.items base .select b.clauses.fields = .ok (s.picks base b.clauses.fields) :=
    Settings.items_eq_ok_iff.mpr ⟨all, rfl⟩
  obtain ⟨selects, selectsWith, clauses⟩ := clauses
  have bindings : b.bindings s = a.bindings s := by
    rw [bindings_eq, bindings_eq, params]
  constructor
  · rw [← h.entity, base?, base?, clauses]
  · have check : s.check base b.clauses (b.bindings s) =
        { s.check base a.clauses (a.bindings s) with
          fields := s.items base .select b.clauses.fields } := by
      rw [bindings]
      simp only [Settings.check, clauses]
    rw [Checks.resolution_eq_ok_iff, check, parts, others, Resolution.withFields]

structure Reselects (a b : Query) : Prop where
  clauses : ∃ selects selectsWith, b.clauses = { a.clauses with selects, selectsWith }
  selection : SameSelection a.clauses.listed b.clauses.listed
  params : b.params = a.params
  faults : b.faults = a.faults
  link : b.link = a.link

namespace Reselects

variable {s : Settings} {a b : Query} {base : Entity} {r : Resolution}

theorem symm (h : Reselects a b) : Reselects b a := by
  obtain ⟨selects, selectsWith, clauses⟩ := h.clauses
  refine ⟨⟨a.clauses.selects, a.clauses.selectsWith, ?_⟩, h.selection.symm, h.params.symm,
    h.faults.symm, h.link.symm⟩
  rw [clauses]

theorem fields (h : Reselects a b) : SameSelection a.clauses.fields b.clauses.fields := by
  obtain ⟨selects, selectsWith, clauses⟩ := h.clauses
  have expressions : b.clauses.expressions = a.clauses.expressions := by rw [clauses]
  have empty : b.clauses.listed.isEmpty = a.clauses.listed.isEmpty := by
    rw [Bool.eq_iff_iff, List.isEmpty_iff, List.isEmpty_iff, h.selection.nil_iff]
  rw [Clauses.fields_eq, Clauses.fields_eq, expressions, empty]
  split
  · exact .refl _
  · exact h.selection

theorem resolves (h : Reselects a b) (ha : a.Resolves s base r) :
    r.fields = s.picks base a.clauses.fields ∧
      b.Resolves s base (r.withFields (s.picks base b.clauses.fields)) := by
  obtain ⟨all, picks⟩ := ha.picks
  exact ⟨picks, ha.reselect h.clauses h.params fun read hr =>
    all read ((h.fields.mem_reads read).mpr hr)⟩

theorem assemble_eq (h : Reselects a b) (ha : a.Resolves s base r)
    (mounts : b.children.map Prod.fst = a.children.map Prod.fst) :
    b.assemble s base (r.withFields (s.picks base b.clauses.fields)) = a.assemble s base r := by
  have same := h.fields
  obtain ⟨picks, -⟩ := h.resolves ha
  have selected : selected (s.picks base b.clauses.fields) = selected r.fields := by
    rw [picks]
    exact Settings.selected_picks same.symm
  have scopes : (r.withFields (s.picks base b.clauses.fields)).scopes base = r.scopes base := by
    refine Resolution.scopes_withFields base fun scope => ?_
    rw [picks]
    exact Settings.addAll_picks same.symm.named scope
  obtain ⟨selects, selectsWith, clauses⟩ := h.clauses
  unfold assemble
  rw [scopes, mounts, h.link, Resolution.statement_withFields selected,
    Resolution.plan_withFields selected]
  simp only [clauses]
  rfl

end Reselects
end Query
end RowGraph
