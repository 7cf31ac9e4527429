import RowGraph.Proofs.Narrowing

/-!
# Rearranged select lists

Two select lists that come to the same forward the same fields to the children, the named ones in
the same order, and the excluded ones after them. So the select lists of the children come to the
same again, and a query with either list and all queries below it are built alike. If one list
excludes less, then the tables, joins and keys are still the same, and so are the children
(`Query.selects_rearranged`).
-/

namespace RowGraph
namespace Query

variable {s : Settings} {a b : Query}

/-! ## Queries with rearranged select lists -/

/-- Queries that differ in their select lists, and in those of the queries below, but by lists that
come to the same. -/
inductive Reordered : Query → Query → Prop where
  | intro {a b : Query} (clauses : ∃ selects, b.clauses = { a.clauses with selects } ∧
        SameTexts a.clauses.selects selects)
      (params : b.params = a.params) (faults : b.faults = a.faults) (link : b.link = a.link)
      (compiled : b.compiled = a.compiled)
      (mounts : b.children.map Prod.fst = a.children.map Prod.fst)
      (below : ∀ mount child other, a.children.lookup mount = some child →
        b.children.lookup mount = some other → Reordered child other) : Reordered a b

namespace Reordered

theorem children : Reordered a b → Paired Reordered a.children b.children
  | .intro _ _ _ _ _ mounts below => ⟨mounts, below⟩

theorem refl (q : Query) : Reordered q q := by
  refine .intro ⟨q.clauses.selects, rfl, .refl _⟩ rfl rfl rfl rfl rfl
    fun mount child other hc ho => ?_
  rw [hc] at ho
  cases ho
  have smaller := sizeOf_child hc
  exact refl child
termination_by sizeOf q

theorem reselects : Reordered a b → Reselects a b
  | .intro ⟨selects, clauses, same⟩ params faults link _ _ _ => by
      refine ⟨⟨selects, a.clauses.selectsWith, clauses⟩, ?_, params, faults, link⟩
      rw [clauses]
      exact same.selection.append (.refl _)

theorem compiled : Reordered a b → b.compiled = a.compiled
  | .intro _ _ _ _ compiled _ _ => compiled

theorem adds (h : Reordered a b) {nextA nextB : Query} {texts others : List String}
    (ha : a.Adds nextA texts) (hb : b.Adds nextB others) (more : SameTexts texts others) :
    Reordered nextA nextB := by
  obtain ⟨⟨selects, clauses, same⟩, params, faults, link, compiled, mounts, below⟩ := h
  obtain ⟨listA, clausesA, sameA⟩ := ha.clauses
  obtain ⟨listB, clausesB, sameB⟩ := hb.clauses
  have known : texts ⊆ a.clauses.selects ↔ others ⊆ b.clauses.selects := by
    rw [clauses]
    exact same.subset_iff more
  refine .intro ⟨listB, by rw [clausesB, clausesA, clauses], ?_⟩ ?_ ?_ ?_ ?_ ?_ ?_
  · rw [clauses] at sameB
    rw [clausesA]
    exact sameA.trans ((same.append more).trans sameB.symm)
  · rw [hb.params, ha.params, params]
  · rw [hb.faults, ha.faults, faults]
  · rw [hb.link, ha.link, link]
  · by_cases subset : texts ⊆ a.clauses.selects
    · rw [hb.kept (known.mp subset), ha.kept subset, compiled]
    · rw [hb.dropped (subset ∘ known.mpr), ha.dropped subset]
  · rw [hb.children, ha.children, mounts]
  · rw [hb.children, ha.children]
    exact below

theorem addField (h : Reordered a b) (field : String) :
    Reordered (a.addField field) (b.addField field) := by
  by_cases blank : Text.trim field = ""
  · have same : ∀ q : Query, q.addField field = q := fun q => Lists.addField_eq (.inr blank)
    rwa [same, same]
  · exact h.adds (adds_addField blank a) (adds_addField blank b) (.refl _)

theorem excludeFields (h : Reordered a b) {fields others : List String}
    (mem : ∀ field, field ∈ fields ↔ field ∈ others)
    (joined : Keyed.distinct (fields.filter fun field => field.toList.contains ',') =
      Keyed.distinct (others.filter fun field => field.toList.contains ',')) :
    Reordered (a.excludeFields fields) (b.excludeFields others) := by
  refine h.adds (adds_excludeFields fields a) (adds_excludeFields others b) ⟨?_, ?_⟩
  · simp only [List.mem_map, mem, implies_true]
  · rw [List.flatMap_map, List.flatMap_map]
    exact sameSelection_excluded mem joined

theorem setOwnerKeys (h : Reordered a b) (link : Link) (keys : List Value) :
    Reordered (a.setOwnerKeys link keys) (b.setOwnerKeys link keys) := by
  obtain ⟨clauses, params, faults, -, -, mounts, below⟩ := h
  exact .intro clauses params faults rfl rfl mounts below

end Reordered

/-! ## Forwarding from rearranged lists -/

namespace Reselects

variable {base : Entity} {r t : Resolution}

theorem paired_forward (h : Reselects a b) (picks : r.fields = s.picks base a.clauses.fields)
    (others : t.fields = s.picks base b.clauses.fields) (forced : t.forced = r.forced)
    (children : Paired Reordered a.children b.children) :
    Paired Reordered (a.forward s.schema r).children (b.forward s.schema t).children := by
  have same := h.fields
  have plain : Paired Reordered ((r.hops false).foldl (forwardPlain s.schema) a).children
      ((t.hops false).foldl (forwardPlain s.schema) b).children := by
    rw [foldl_forwardPlain_distinct, foldl_forwardPlain_distinct s.schema _ b,
      Resolution.distinct_hops picks others forced same.named]
    exact children.forwardPlain .refl (fun field _ _ h => h.addField field) s.schema _
  refine ⟨?_, fun mount child other hc ho => ?_⟩
  · rw [forward, forward, mounts_foldl_forwardExcluded, mounts_foldl_forwardExcluded]
    exact plain.mounts
  · rw [forward, lookup_foldl_forwardExcluded, Option.map_eq_some_iff] at hc ho
    obtain ⟨first, hf, rfl⟩ := hc
    obtain ⟨second, hs, rfl⟩ := ho
    apply (plain.below mount first second hf hs).excludeFields
    · intro field
      simp only [List.mem_filterMap, Resolution.mem_excludedHops picks,
        Resolution.mem_excludedHops others, forced, same.excluded]
    · rw [joined_restAt, joined_restAt]
      apply Keyed.distinct_filterMap_congr
      exact Resolution.joined_hops picks others forced same.joined

theorem forward (h : Reselects a b) (s : Settings) (r t : Resolution) :
    Reselects (a.forward s.schema r) (b.forward s.schema t) := by
  have framesA := frames_forward s.schema r a
  have framesB := frames_forward s.schema t b
  refine ⟨?_, ?_, ?_, ?_, ?_⟩
  · rw [framesB.clauses, framesA.clauses]
    exact h.clauses
  · rw [framesB.clauses, framesA.clauses]
    exact h.selection
  · rw [framesB.params, framesA.params, h.params]
  · rw [(agrees_forward s t b).faults, (agrees_forward s r a).faults, h.faults]
  · rw [framesB.link, framesA.link, h.link]

end Reselects

/-! ## Trees of queries -/

def built? (s : Settings) (q : Query) : Option Query :=
  match q.build s with
  | (.ok _, next) => some next
  | (.error _, _) => none

def SameTrees (s : Settings) (a b : Query) : Prop :=
  ∀ path, (a.descendant? (built? s) path).map (fun q => (q.build s).1.toOption) =
    (b.descendant? (built? s) path).map fun q => (q.build s).1.toOption

structure Rearranges (a b : Query) : Prop extends Reselects a b where
  compiled : b.compiled = a.compiled
  children : Paired Reordered a.children b.children

theorem Reordered.rearranges (h : Reordered a b) : Rearranges a b :=
  ⟨h.reselects, h.compiled, h.children⟩

theorem Reordered.restricted (h : Reordered a b) (keys : Option (List Value)) :
    Reordered (a.restricted keys) (b.restricted keys) := by
  unfold Query.restricted
  rw [h.reselects.link]
  split
  · exact h.setOwnerKeys _ _
  · exact h

namespace Rearranges

theorem build_eq (h : Rearranges a b) {base : Entity} {r : Resolution} (ha : a.Resolves s base r)
    (faultless : a.faults = []) (fresh : a.compiled = none) :
    ∃ compiled nextA nextB, a.build s = (.ok compiled, nextA) ∧ b.build s = (.ok compiled, nextB) ∧
      Paired Reordered nextA.children nextB.children := by
  obtain ⟨picks, hb⟩ := h.resolves ha
  have children : Paired Reordered (a.forward s.schema r).children
      (b.forward s.schema (r.withFields (s.picks base b.clauses.fields))).children :=
    h.paired_forward picks rfl rfl h.children
  have builtA := build_of_resolves fresh ha faultless
  have builtB := build_of_resolves (h.compiled.trans fresh) hb (h.faults.trans faultless)
  have forwarded := (agrees_forward s r a).resolves ha
  have compiled := (h.forward s r _).assemble_eq forwarded children.mounts
  rw [(frames_forward s.schema _ b).clauses] at compiled
  rw [compiled] at builtB
  exact ⟨_, _, _, builtA, builtB, children⟩

theorem build (h : Rearranges a b) (s : Settings) :
    (∃ compiled nextA nextB, a.build s = (.ok compiled, nextA) ∧
      b.build s = (.ok compiled, nextB) ∧ Paired Reordered nextA.children nextB.children) ∨
    ∃ faultsA faultsB, a.build s = (.error faultsA, a) ∧ b.build s = (.error faultsB, b) := by
  cases held : a.compiled with
  | some compiled =>
      have other := h.compiled.trans held
      exact .inl ⟨compiled, a, b, by rw [Query.build, held], by rw [Query.build, other], h.children⟩
  | none =>
      have other := h.compiled.trans held
      rcases resolves_or_error s a with ⟨base, r, resolves, faultless⟩ | ⟨faultsA, failsA⟩
      · exact .inl (h.build_eq resolves faultless held)
      · rcases resolves_or_error s b with ⟨base, r, resolves, faultless⟩ | ⟨faultsB, failsB⟩
        -- what the other list resolves to, this one resolves to as well
        · obtain ⟨-, back⟩ := h.symm.resolves resolves
          have built := compile_of_resolves back (h.faults.symm.trans faultless)
          rw [failsA] at built
          cases built
        · exact .inr ⟨faultsA, faultsB, build_of_error held failsA, build_of_error other failsB⟩

theorem sameTrees (h : Rearranges a b) (s : Settings) : SameTrees s a b := by
  intro path
  -- on the way down: whatever keys a child is given, it stays a rearranged one
  induction path generalizing a b with
  | nil =>
      rcases h.build s with ⟨compiled, nextA, nextB, builtA, builtB, -⟩ |
        ⟨faultsA, faultsB, failsA, failsB⟩
      · simp only [descendant?, Option.map_some, builtA, builtB]
      · simp only [descendant?, Option.map_some, failsA, failsB]
        rfl
  | cons entry rest ih =>
      obtain ⟨mount, keys⟩ := entry
      rcases h.build s with ⟨compiled, nextA, nextB, builtA, builtB, children⟩ |
        ⟨faultsA, faultsB, failsA, failsB⟩
      · simp only [descendant?, built?, builtA, builtB, Option.bind_some]
        cases found : nextA.children.lookup mount with
        | none => rw [children.lookup_none found]
        | some child =>
            obtain ⟨other, held, reordered⟩ := children.exists_right found
            rw [held]
            exact ih (reordered.restricted keys).rearranges
      · simp only [descendant?, built?, failsA, failsB]

end Rearranges

/-! ## Rearranged lists -/

def relist (selects : List String) (pathed : List (String × String)) (q : Query) : Query :=
  q.edit fun c => { c with selects, selectsWith := pathed }

theorem not_comma_of_mem_pathed {pathed : List (String × String)}
    (paths : ∀ entry ∈ pathed, ',' ∉ entry.1.toList) {field : String}
    (h : field ∈ pathed.flatMap fun (path, list) => (splitFields list).map (relativeField path)) :
    ',' ∉ field.toList := by
  obtain ⟨⟨path, list⟩, hm, hf⟩ := List.mem_flatMap.mp h
  obtain ⟨part, hp, rfl⟩ := List.mem_map.mp hf
  exact not_comma_relativeField (paths _ hm) (not_comma_of_mem_splitFields hp)

theorem joined_listed (c : Clauses) : (reads c.listed).filter (·.isJoined) =
    (reads (c.selectsWith.flatMap fun (path, list) =>
      (splitFields list).map (relativeField path))).filter (·.isJoined) := by
  have none : (reads (c.selects.flatMap splitFields)).filter (·.isJoined) = [] := by
    refine not_isJoined_of_not_comma fun part hp => ?_
    obtain ⟨list, -, hp⟩ := List.mem_flatMap.mp hp
    exact not_comma_of_mem_splitFields hp
  rw [Clauses.listed, reads_append, List.filter_append, none, List.nil_append]

theorem joined_listed_congr {c d : Clauses} (paths : c.selectsWith = d.selectsWith ∨
      ∀ entry ∈ c.selectsWith ++ d.selectsWith, ',' ∉ entry.1.toList) :
    Keyed.distinct ((reads c.listed).filter (·.isJoined)) =
      Keyed.distinct ((reads d.listed).filter (·.isJoined)) := by
  rw [joined_listed, joined_listed]
  rcases paths with same | paths
  · rw [same]
  · rw [List.forall_mem_append] at paths
    rw [not_isJoined_of_not_comma fun _ => not_comma_of_mem_pathed paths.1,
      not_isJoined_of_not_comma fun _ => not_comma_of_mem_pathed paths.2]

/-- Select lists that name the same fields in the same order of first use. If they exclude the same,
too, then they make the same trees of queries. And what a list excludes needs no tables, no joins
and no keys, and opens no children, here and below. The lists relative to paths may differ as well,
if no path holds a comma, at which a child would split the field that it is given. -/
theorem selects_rearranged (s : Settings) (q : Query) {selects others : List String}
    {pathed otherPathed : List (String × String)}
    (named : namedFields (q.relist selects pathed).clauses.listed =
      namedFields (q.relist others otherPathed).clauses.listed)
    (paths : pathed = otherPathed ∨ ∀ entry ∈ pathed ++ otherPathed, ',' ∉ entry.1.toList) :
    ((∀ name, ⟨true, name⟩ ∈ reads (q.relist selects pathed).clauses.listed ↔
        ⟨true, name⟩ ∈ reads (q.relist others otherPathed).clauses.listed) →
      SameTrees s (q.relist selects pathed) (q.relist others otherPathed)) ∧
    ((∀ name, ⟨true, name⟩ ∈ reads (q.relist others otherPathed).clauses.listed →
        ⟨true, name⟩ ∈ reads (q.relist selects pathed).clauses.listed) →
      SameScopes s (q.relist selects pathed) (q.relist others otherPathed)) := by
  constructor
  · intro excluded
    have reselects : Reselects (q.relist selects pathed) (q.relist others otherPathed) :=
      ⟨⟨others, otherPathed, rfl⟩, ⟨named, excluded, joined_listed_congr paths⟩, rfl, rfl, rfl⟩
    have rearranges : Rearranges (q.relist selects pathed) (q.relist others otherPathed) :=
      ⟨reselects, rfl, .refl .refl q.children⟩
    exact rearranges.sameTrees s
  · intro fewer
    have more : ExcludesMore
        (fun name => ⟨true, name⟩ ∈ reads (q.relist selects pathed).clauses.listed)
        (q.relist others otherPathed).clauses.listed (q.relist selects pathed).clauses.listed :=
      ⟨named.symm, fun name => (or_iff_right_of_imp (fewer name)).symm,
        (joined_listed_congr paths).symm⟩
    have excluding : Excluding _ (q.relist others otherPathed) (q.relist selects pathed) :=
      ⟨⟨selects, pathed, rfl⟩, more, rfl, rfl, rfl, rfl⟩
    exact excluding.sameScopes s

end Query

namespace Sample

def listed : Query := patrons.relist ["name, orders.total", "!orders.id"] []

def rearranged : Query :=
  patrons.relist ["! orders.id , name", "name"] [("orders", "total, !id")]

def unlimited : Query := patrons.relist ["name"] [("orders", "total")]

theorem reads_listed : reads listed.clauses.listed =
    [⟨false, "name"⟩, ⟨false, "orders.total"⟩, ⟨true, "orders.id"⟩] := by
  decide +kernel

theorem reads_rearranged : reads rearranged.clauses.listed =
    [⟨true, "orders.id"⟩, ⟨false, "name"⟩, ⟨false, "name"⟩, ⟨false, "orders.total"⟩,
      ⟨true, "orders.id"⟩] := by
  decide +kernel

theorem reads_unlimited : reads unlimited.clauses.listed =
    [⟨false, "name"⟩, ⟨false, "orders.total"⟩] := by
  decide +kernel

end Sample

theorem Query.selects_rearranged_patrons :
    namedFields Sample.listed.clauses.listed = namedFields Sample.rearranged.clauses.listed ∧
      SameTrees Sample.settings Sample.listed Sample.rearranged ∧
      namedFields Sample.listed.clauses.listed = namedFields Sample.unlimited.clauses.listed ∧
      SameScopes Sample.settings Sample.listed Sample.unlimited ∧
      (Sample.listed.descendant? (compiled? Sample.settings)
        [(⟨.root, "orders"⟩, some [.ofInt64 7])]).isSome := by
  have named : namedFields Sample.listed.clauses.listed =
      namedFields Sample.rearranged.clauses.listed := by
    rw [namedFields, namedFields, Sample.reads_listed, Sample.reads_rearranged]
    decide
  have excluded : ∀ name, ⟨true, name⟩ ∈ reads Sample.listed.clauses.listed ↔
      ⟨true, name⟩ ∈ reads Sample.rearranged.clauses.listed := by
    intro name
    rw [Sample.reads_listed, Sample.reads_rearranged]
    simp
  have also : namedFields Sample.listed.clauses.listed =
      namedFields Sample.unlimited.clauses.listed := by
    rw [namedFields, namedFields, Sample.reads_listed, Sample.reads_unlimited]
    decide
  have fewer : ∀ name, ⟨true, name⟩ ∈ reads Sample.unlimited.clauses.listed →
      ⟨true, name⟩ ∈ reads Sample.listed.clauses.listed := by
    intro name
    rw [Sample.reads_listed, Sample.reads_unlimited]
    simp
  obtain ⟨trees, -⟩ := selects_rearranged Sample.settings Sample.patrons named (.inr (by simp))
  obtain ⟨-, scopes⟩ := selects_rearranged Sample.settings Sample.patrons also (.inr (by simp))
  exact ⟨named, trees excluded, also, scopes fewer, by decide +kernel⟩

end RowGraph
