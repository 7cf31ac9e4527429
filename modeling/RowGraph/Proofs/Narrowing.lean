import RowGraph.Proofs.Forwarding

/-!
# Lists that exclude more

A list that excludes more fields than another and names the same ones comes to the same tables,
joins and keys, and to the same children (`Query.Excluding.fewer`). All that the children are told
of the other exclusions is to exclude more themselves (`Query.Excluding.child`), so that the same
holds of all queries below (`Query.Excluding.sameScopes`).
-/

namespace RowGraph

/-! ## Lists that exclude more fields -/

/-- A list that names the same fields as another, and excludes the same fields and some more. -/
structure ExcludesMore (names : String → Prop) (fields others : List String) : Prop where
  named : namedFields fields = namedFields others
  excluded : ∀ name, ⟨true, name⟩ ∈ reads others ↔ ⟨true, name⟩ ∈ reads fields ∨ names name
  joined : Keyed.distinct ((reads fields).filter (·.isJoined)) =
    Keyed.distinct ((reads others).filter (·.isJoined))

namespace ExcludesMore

variable {names : String → Prop} {fields others : List String}

theorem congr {first last : List String} (same : SameSelection first fields)
    (h : ExcludesMore names fields others) (also : SameSelection others last) :
    ExcludesMore names first last where
  named := same.named.trans (h.named.trans also.named)
  excluded name := by rw [← also.excluded, h.excluded, same.excluded]
  joined := same.joined.trans (h.joined.trans also.joined)

theorem append (h : ExcludesMore names fields others) (front back : List String) :
    ExcludesMore names (front ++ fields ++ back) (front ++ others ++ back) where
  named := by
    simp only [namedFields, reads_append, List.filter_append]
    exact Keyed.distinct_append_congr (Keyed.distinct_append_congr rfl h.named) rfl
  excluded := by
    intro name
    simp only [reads_append, List.mem_append, h.excluded]
    tauto
  joined := by
    simp only [reads_append, List.filter_append]
    exact Keyed.distinct_append_congr (Keyed.distinct_append_congr rfl h.joined) rfl

theorem insert (h : ExcludesMore names [] others) (front back : List String) :
    ExcludesMore names (front ++ back) (front ++ others ++ back) := by
  have more := h.append front back
  rwa [List.append_nil] at more

theorem reads_subset (h : ExcludesMore names fields others) : reads fields ⊆ reads others := by
  rintro ⟨_ | _, name⟩ hr
  · exact (mem_reads_of_named h.named name).mp hr
  · exact (h.excluded name).mpr (.inl hr)

theorem mem_reads (h : ExcludesMore names fields others) {read : Read} (hr : read ∈ reads others) :
    read ∈ reads fields ∨ ∃ name, names name ∧ read = ⟨true, name⟩ := by
  obtain ⟨_ | _, name⟩ := read
  · exact .inl ((mem_reads_of_named h.named name).mpr hr)
  · exact ((h.excluded name).mp hr).imp_right fun more => ⟨name, more, rfl⟩

end ExcludesMore

theorem excludesMore_flatMap {more : String → Prop} {fields others : List String}
    (mem : ∀ field, field ∈ others ↔ field ∈ fields ∨ more field)
    (joined : Keyed.distinct (fields.filter fun field => field.toList.contains ',') =
      Keyed.distinct (others.filter fun field => field.toList.contains ',')) :
    ExcludesMore (fun name => ∃ field, more field ∧ ⟨true, name⟩ ∈ reads (splitFields ("!" ++ field)))
      (fields.flatMap fun field => splitFields ("!" ++ field))
      (others.flatMap fun field => splitFields ("!" ++ field)) where
  named := namedFields_excluded joined
  excluded := by
    intro name
    have parts (list : List String) :
        ⟨true, name⟩ ∈ reads (list.flatMap fun field => splitFields ("!" ++ field)) ↔
          ∃ field ∈ list, ⟨true, name⟩ ∈ reads (splitFields ("!" ++ field)) := by
      rw [reads, List.map_flatMap, List.mem_flatMap]
      rfl
    rw [parts, parts]
    simp only [mem, or_and_right, exists_or]
  joined := by rw [not_isJoined_excluded, not_isJoined_excluded]

/-! ## Fields and the default -/

theorem reads_fields_excluded (c : Clauses) (name : String) :
    ⟨true, name⟩ ∈ reads c.fields ↔ ⟨true, name⟩ ∈ reads c.listed := by
  by_cases explicit : c.Explicit
  · rw [Clauses.fields_of_explicit explicit]
  · rw [Clauses.fields_of_empty explicit, Clauses.listed_of_empty explicit]
    refine ⟨fun hr => ?_, nofun⟩
    have mark : true = false := congrArg Read.excluded (List.mem_singleton.mp hr)
    cases mark

theorem reads_fields_joined (c : Clauses) :
    (reads c.fields).filter (·.isJoined) = (reads c.listed).filter (·.isJoined) := by
  by_cases explicit : c.Explicit
  · rw [Clauses.fields_of_explicit explicit]
  · rw [Clauses.fields_of_empty explicit, Clauses.listed_of_empty explicit]
    rfl

theorem reads_fields_of_empty {c d : Clauses} (none : ¬ d.Explicit)
    (named : namedFields c.listed = namedFields d.listed) :
    ∀ read ∈ (reads c.fields).filter (!·.excluded), read = ⟨false, "*"⟩ := by
  intro read hr
  by_cases explicit : c.Explicit
  · rw [Clauses.fields_of_explicit explicit, Keyed.mem_congr named,
      Clauses.listed_of_empty none] at hr
    cases hr
  · rw [Clauses.fields_of_empty explicit] at hr
    exact List.mem_singleton.mp hr

namespace Query

variable {s : Settings} {a b q : Query} {base : Entity} {r t : Resolution} {names : String → Prop}

/-! ## Queries that exclude more fields -/

structure Excluding (names : String → Prop) (a b : Query) : Prop where
  clauses : ∃ selects selectsWith, b.clauses = { a.clauses with selects, selectsWith }
  listed : ExcludesMore names a.clauses.listed b.clauses.listed
  params : b.params = a.params
  faults : b.faults = a.faults
  link : b.link = a.link
  children : b.children = a.children

theorem excluding_excludeFields {more : String → Prop} {fields others : List String}
    (mem : ∀ field, field ∈ others ↔ field ∈ fields ∨ more field)
    (joined : Keyed.distinct (fields.filter fun field => field.toList.contains ',') =
      Keyed.distinct (others.filter fun field => field.toList.contains ',')) (q : Query) :
    Excluding (fun name => ∃ field, more field ∧ ⟨true, name⟩ ∈ reads (splitFields ("!" ++ field)))
      (q.excludeFields fields) (q.excludeFields others) := by
  have adds := adds_excludeFields fields q
  have also := adds_excludeFields others q
  obtain ⟨selects, clauses, same⟩ := adds.clauses
  obtain ⟨longer, further, again⟩ := also.clauses
  refine ⟨⟨longer, q.clauses.selectsWith, by rw [further, clauses]⟩, ?_,
    also.params.trans adds.params.symm, also.faults.trans adds.faults.symm,
    also.link.trans adds.link.symm, also.children.trans adds.children.symm⟩
  have selection := same.selection
  have selectionAgain := again.selection
  rw [List.flatMap_append, List.flatMap_map] at selection selectionAgain
  rw [clauses, further]
  exact ((excludesMore_flatMap mem joined).append _ _).congr (selection.append (.refl _))
    (selectionAgain.symm.append (.refl _))

def namesAt (s : Settings) (base : Entity) (mount : Mount) (names : String → Prop)
    (name : String) : Prop :=
  ∃ rest, (∃ field, names field ∧ (s.hopOf? base ⟨true, field⟩).bind (restAt? mount) = some rest) ∧
    ⟨true, name⟩ ∈ reads (splitFields ("!" ++ rest))

namespace Excluding

theorem of_iff {others : String → Prop} (h : Excluding names a b)
    (same : ∀ name, names name ↔ others name) : Excluding others a b := by
  obtain rfl : names = others := funext fun name => propext (same name)
  exact h

theorem explicit (h : Excluding names a b) (ha : a.clauses.Explicit) : b.clauses.Explicit := by
  obtain ⟨selects, selectsWith, clauses⟩ := h.clauses
  have expressions : b.clauses.expressions = a.clauses.expressions := by rw [clauses]
  rw [Clauses.Explicit, expressions]
  refine ha.imp_left fun listed none => ?_
  obtain ⟨field, hf⟩ := List.exists_mem_of_ne_nil _ listed
  have held := h.listed.reads_subset (List.mem_map_of_mem hf)
  rw [none] at held
  cases held

theorem fewer (h : Excluding names a b) (hb : b.Resolves s base t) :
    a.Resolves s base (t.withFields (s.picks base a.clauses.fields)) ∧
      (t.withFields (s.picks base a.clauses.fields)).scopes base = t.scopes base ∧
      Keyed.distinct (t.hops false) =
        Keyed.distinct ((t.withFields (s.picks base a.clauses.fields)).hops false) := by
  obtain ⟨all, picks⟩ := hb.picks
  suffices same : (∀ read ∈ reads a.clauses.fields, (s.itemOf? base read).isSome) ∧
      (∀ scope : Scope, scope.addAll ((s.picks base a.clauses.fields).flatMap (·.needs true)) =
        scope.addAll ((s.picks base b.clauses.fields).flatMap (·.needs true))) ∧
      Keyed.distinct (t.hops false) =
        Keyed.distinct ((t.withFields (s.picks base a.clauses.fields)).hops false) by
    obtain ⟨found, needs, hops⟩ := same
    obtain ⟨selects, selectsWith, clauses⟩ := h.clauses
    have back : a.clauses = { b.clauses with
        selects := a.clauses.selects, selectsWith := a.clauses.selectsWith } := by rw [clauses]
    rw [← picks] at needs
    exact ⟨hb.reselect ⟨_, _, back⟩ h.params.symm found,
      Resolution.scopes_withFields base needs, hops⟩
  by_cases explicit : a.clauses.Explicit
  · rw [Clauses.fields_of_explicit (h.explicit explicit)] at all picks ⊢
    rw [Clauses.fields_of_explicit explicit]
    exact ⟨fun read hr => all read (h.listed.reads_subset hr), Settings.addAll_picks h.listed.named,
      Resolution.distinct_hops picks rfl rfl h.listed.named.symm⟩
  -- without fields, every column is selected
  · obtain ⟨needsA, hopsA⟩ := Settings.quiet s base (reads_fields_of_empty explicit rfl)
    obtain ⟨needsB, hopsB⟩ := Settings.quiet s base
      (reads_fields_of_empty explicit h.listed.named.symm)
    refine ⟨fun read hr => ?_, fun scope => by rw [needsA, needsB], ?_⟩
    · rw [Clauses.fields_of_empty explicit] at hr
      obtain rfl := List.mem_singleton.mp hr
      rfl
    · have same : (t.withFields (s.picks base a.clauses.fields)).fields =
          s.picks base a.clauses.fields := rfl
      rw [Resolution.plainHops_eq picks, hopsB, Resolution.plainHops_eq same, hopsA]
      rfl

theorem child (h : Excluding names a b) (ha : a.Resolves s base r) (hb : b.Resolves s base t)
    (forced : t.forced = r.forced)
    (hops : Keyed.distinct (r.hops false) = Keyed.distinct (t.hops false)) {mount : Mount}
    {child other : Query} (hc : (a.forward s.schema r).children.lookup mount = some child)
    (ho : (b.forward s.schema t).children.lookup mount = some other) :
    Excluding (namesAt s base mount names) child other := by
  obtain ⟨-, picks⟩ := ha.picks
  obtain ⟨-, others⟩ := hb.picks
  rw [forward, lookup_foldl_forwardExcluded, Option.map_eq_some_iff] at hc ho
  obtain ⟨first, hf, rfl⟩ := hc
  obtain ⟨second, hs, rfl⟩ := ho
  -- the named fields have made the same child, to which more exclusions are forwarded
  obtain rfl := (forwardPlain_congr h.children hops s.schema).below mount first second hf hs
  refine excluding_excludeFields (fun rest => ?_) ?_ first
  · have mem : ∀ hop, hop ∈ t.hops true ↔ hop ∈ r.hops true ∨
        ∃ field, names field ∧ s.hopOf? base ⟨true, field⟩ = some hop := by
      intro hop
      rw [Resolution.mem_excludedHops others, Resolution.mem_excludedHops picks, forced]
      simp only [reads_fields_excluded, h.listed.excluded, or_and_right, exists_or, or_assoc]
    simp only [List.mem_filterMap, mem, or_and_right, exists_or, Option.bind_eq_some_iff]
    refine or_congr_right ⟨?_, ?_⟩
    · rintro ⟨hop, ⟨field, named, goes⟩, rests⟩
      exact ⟨field, named, hop, goes, rests⟩
    · rintro ⟨field, named, hop, goes, rests⟩
      exact ⟨hop, ⟨field, named, goes⟩, rests⟩
  · rw [joined_restAt, joined_restAt]
    apply Keyed.distinct_filterMap_congr
    apply Resolution.joined_hops picks others forced
    rw [reads_fields_joined, reads_fields_joined]
    exact h.listed.joined

theorem restricted (h : Excluding names a b) (keys : Option (List Value)) :
    Excluding names (a.restricted keys) (b.restricted keys) := by
  unfold Query.restricted
  rw [h.link]
  split
  · exact ⟨h.clauses, h.listed, h.params, h.faults, rfl, h.children⟩
  · exact h

end Excluding

/-! ## Queries below -/

def compiled? (s : Settings) (q : Query) : Option Query := (q.compile s).toOption.map Prod.snd

/-- Every query below one has a counterpart below the other, with the same tables, joins and keys
and with the same children. -/
def SameScopes (s : Settings) (a b : Query) : Prop :=
  ∀ path q base r, a.descendant? (compiled? s) path = some q → q.Resolves s base r →
    ∃ other t, b.descendant? (compiled? s) path = some other ∧ other.Resolves s base t ∧
      t.scopes base = r.scopes base ∧
      (other.forward s.schema t).children.map Prod.fst =
        (q.forward s.schema r).children.map Prod.fst

theorem compiled_of_resolves (resolves : q.Resolves s base r) (faultless : q.faults = []) :
    q.compiled? s = some (q.forward s.schema r) := by
  rw [compiled?, compile_of_resolves resolves faultless]
  rfl

theorem resolves_of_compiled {next : Query} (h : q.compiled? s = some next) :
    ∃ base r, q.Resolves s base r ∧ q.faults = [] ∧ next = q.forward s.schema r := by
  rcases resolves_or_error s q with ⟨base, r, resolves, faultless⟩ | ⟨faults, failed⟩
  · rw [compiled_of_resolves resolves faultless, Option.some.injEq] at h
    exact ⟨base, r, resolves, faultless, h.symm⟩
  · rw [compiled?, failed] at h
    cases h

theorem Excluding.sameScopes (h : Excluding names a b) (s : Settings) : SameScopes s b a := by
  intro path
  induction path generalizing a b names with
  | nil =>
      intro q base r held resolves
      cases held
      obtain ⟨fewer, scopes, hops⟩ := h.fewer resolves
      exact ⟨a, _, rfl, fewer, scopes, mounts_forward_congr h.children.symm hops s.schema⟩
  | cons entry rest ih =>
      obtain ⟨mount, keys⟩ := entry
      intro q base r held resolves
      obtain ⟨next, compiles, step⟩ := Option.bind_eq_some_iff.mp held
      obtain ⟨_, t, resolved, faultless, rfl⟩ := resolves_of_compiled compiles
      obtain ⟨other, there, last⟩ := Option.bind_eq_some_iff.mp step
      obtain ⟨fewer, -, hops⟩ := h.fewer resolved
      obtain ⟨child, found⟩ := Keyed.exists_lookup_of_keys
        (mounts_forward_congr h.children.symm hops s.schema) there
      have below := (h.child fewer resolved rfl hops.symm found there).restricted keys
      obtain ⟨final, u, reached, same⟩ := ih below q base r last resolves
      refine ⟨final, u, ?_, same⟩
      rw [descendant?, compiled_of_resolves fewer (h.faults.symm.trans faultless),
        Option.bind_some, found, Option.bind_some]
      exact reached

end Query
end RowGraph
