import RowGraph.Proofs.Faults
import RowGraph.Proofs.Unbuilt

/-!
# The affix as a fallback

An affix completes only names that are no properties, and without an affix such a name is a fault.
So what resolves without an affix resolves to the same under any (`Settings.walk_withAffix` for one
field), a query that builds without one builds to the same (`Query.build_withAffix`, over its
subqueries), and if its children build too, it runs as it did (`Query.Reached.affix_unused`, down
the children in the order in which a run comes to them).
-/

namespace RowGraph

def Settings.withAffix (s : Settings) (affix : Affix) : Settings :=
  { s with config := { s.config with affix := some affix } }

/-! ## Checks that carry over -/

def Checked.Carries {ε α : Type} (first second : Except ε α) : Prop :=
  ∀ a, first = .ok a → second = .ok a

namespace Checked.Carries

variable {ε α β : Type}

theorem refl (first : Except ε α) : Carries first first := fun _ h => h

theorem map {first second : Except ε α} (h : Carries first second) (f : α → β) :
    Carries (first.map f) (second.map f) := by
  intro b hb
  obtain ⟨a, ha, rfl⟩ := map_eq_ok_iff.mp hb
  rw [h a ha]
  rfl

theorem ofExcept {first second : Except Fault α} (h : Carries first second) :
    Carries (Checked.ofExcept first) (Checked.ofExcept second) :=
  fun a ha => ofExcept_eq_ok_iff.mpr (h a (ofExcept_eq_ok_iff.mp ha))

theorem all {inputs : List α} {f g : α → Checked β} (h : ∀ a ∈ inputs, Carries (f a) (g a)) :
    Carries (Checked.all (inputs.map f)) (Checked.all (inputs.map g)) :=
  fun _ hb => all_map_eq_ok_iff.mpr (forall₂_of_mem (all_map_eq_ok_iff.mp hb) h)

end Checked.Carries

open Checked (Carries)

/-! ## Clauses -/

namespace Settings

variable {s : Settings} {affix : Affix} {base : Entity} {place : Place}

theorem walk_withAffix (plain : s.config.affix = none) (field : String) (e : Entity) (path : Path)
    (parts : List String) : Carries (s.walk place field e path parts)
      ((s.withAffix affix).walk place field e path parts) := by
  -- only the last part may be a name without a property, and there the walk without an
  -- affix ends in a fault
  have unaffixed (e : Entity) (name : String) : s.affixColumn? e name = none := by
    rw [affixColumn?, plain]
    rfl
  have schema : (s.withAffix affix).schema = s.schema := rfl
  induction parts generalizing e path with
  | nil => exact .refl _
  | cons part rest ih =>
      intro w h
      unfold walk at h ⊢
      dsimp only at h ⊢
      by_cases star : part = "*"
      · rwa [if_pos star] at h ⊢
      · rw [if_neg star] at h ⊢
        cases property : e.property? part with
        | none =>
            simp only [property, unaffixed] at h
            cases h
        | some found =>
            simp only [property] at h ⊢
            cases found with
            | column => exact h
            | toMany target foreignKey => exact h
            | bridge boundKey target =>
                dsimp only at h ⊢
                by_cases last : rest = []
                · rwa [if_pos last] at h ⊢
                · rw [if_neg last] at h ⊢
                  rw [schema]
                  cases known : s.schema.entity? target with
                  | none => rwa [known] at h
                  | some next =>
                      rw [known] at h
                      exact (ih next _).map _ w h

variable (plain : s.config.affix = none)

include plain

theorem item_withAffix (fields : List String) (field : String) :
    Carries (s.item base place fields field) ((s.withAffix affix).item base place fields field) := by
  have walks (field : String) : Carries (s.walkField base place field)
      ((s.withAffix affix).walkField base place field) := walk_withAffix plain field base .root _
  unfold item
  split
  · exact .refl _
  · split
    · exact .refl _
    · exact (walks _).map _
  · exact (walks _).map _

theorem items_withAffix (fields : List String) :
    Carries (s.items base place fields) ((s.withAffix affix).items base place fields) :=
  .all fun field _ => (item_withAffix plain fields field).ofExcept

theorem template_withAffix (expression : String) :
    Carries (s.template base expression) ((s.withAffix affix).template base expression) := by
  refine .all fun segment _ => Carries.ofExcept ?_
  cases segment with
  | literal text => exact .refl _
  | reference field =>
      simp only [part]
      exact (item_withAffix plain _ _).map _

theorem template?_withAffix (expression : Option String) :
    Carries (s.template? base expression) ((s.withAffix affix).template? base expression) := by
  cases expression with
  | none => exact .refl _
  | some expression => exact (template_withAffix plain expression).map _

theorem indexItem_withAffix (index : Option Index) :
    Carries (s.indexItem base index) ((s.withAffix affix).indexItem base index) := by
  rcases index with _ | name | key
  · exact .refl _
  · simp only [indexItem]
    exact (items_withAffix plain [name]).map _
  · exact .refl _

variable {bindings others : List Binding} (count : others.length = bindings.length)
  (bound : Carries (Checked.all (bindings.map Binding.check))
    (Checked.all (others.map Binding.check)))

include count bound

theorem filter_withAffix (expression : String) : Carries (s.filter base expression bindings)
    ((s.withAffix affix).filter base expression others) := by
  intro f hf
  obtain ⟨template, enough, bounds⟩ := passed_of_filter hf
  have values := bound _ (Checked.all_map_eq_ok_iff.mpr bounds)
  have style : (s.withAffix affix).style = s.style := rfl
  rw [← count, ← style] at enough
  rw [filter, template_withAffix plain expression _ template]
  simp only [bind, Except.bind, Nat.not_lt.mpr enough, if_false, values, pure, Except.pure]

theorem filter?_withAffix (expression : Option String) : Carries (s.filter? base bindings expression)
    ((s.withAffix affix).filter? base others expression) := by
  cases expression with
  | none => exact .refl _
  | some expression => exact (filter_withAffix plain count bound expression).map _

theorem check_withAffix (c : Clauses) : Carries (s.check base c bindings).resolution
    ((s.withAffix affix).check base c others).resolution := by
  intro r hr
  rw [Checks.resolution_eq_ok_iff] at hr ⊢
  simp only [check, Checks.mk.injEq] at hr ⊢
  obtain ⟨forced, index, fields, relations, expressions, filter, group, having, order⟩ := hr
  refine ⟨items_withAffix plain _ _ forced, indexItem_withAffix plain _ _ index,
    items_withAffix plain _ _ fields, ?_, ?_, filter?_withAffix plain count bound _ _ filter,
    template?_withAffix plain _ _ group, template?_withAffix plain _ _ having,
    template?_withAffix plain _ _ order⟩
  · simp only [walkPath_congr (s := s) (t := s.withAffix affix) rfl]
    exact relations
  · exact Carries.all (fun expression _ => template_withAffix plain expression) _ expressions

end Settings

/-! ## Builds -/

namespace Query

variable {s : Settings} {affix : Affix} {q next : Query} {compiled : Compiled}

theorem Resolves.withAffix (plain : s.config.affix = none) {base : Entity} {r : Resolution}
    (h : q.Resolves s base r) (subqueries : ∀ sub, Param.subquery sub ∈ q.params →
      Carries (sub.build s).1 (sub.build (s.withAffix affix)).1) :
    q.Resolves (s.withAffix affix) base r := by
  refine ⟨h.entity, ?_⟩
  have resolution := h.resolution
  rw [bindings_eq_map] at resolution ⊢
  refine Settings.check_withAffix plain (by simp only [List.length_map]) ?_ _ r resolution
  rw [List.map_map, List.map_map]
  refine .all fun param hm => ?_
  cases param with
  | value v =>
      simp only [Function.comp_apply, binding]
      exact .refl _
  | subquery sub =>
      simp only [Function.comp_apply, binding, Binding.check]
      exact ((subqueries sub hm).map _).map _

theorem build_withAffix (plain : s.config.affix = none) (affix : Affix) {q next : Query}
    {compiled : Compiled} (h : q.build s = (.ok compiled, next)) :
    q.build (s.withAffix affix) = (.ok compiled, next) := by
  cases memo : q.compiled with
  | some held =>
      rw [build, memo] at h ⊢
      exact h
  | none =>
      have subqueries : ∀ sub, Param.subquery sub ∈ q.params →
          Carries (sub.build s).1 (sub.build (s.withAffix affix)).1 := by
        intro sub hm compiled hc
        have built : sub.build s = (.ok compiled, (sub.build s).2) := Prod.ext hc rfl
        rw [build_withAffix plain affix built]
      rcases resolves_or_error s q with ⟨base, r, resolves, faultless⟩ | ⟨faults, failed⟩
      · rw [build_of_resolves memo resolves faultless] at h
        rw [build_of_resolves memo (resolves.withAffix plain subqueries) faultless]
        exact h
      · rw [build_of_error memo failed] at h
        cases h
termination_by sizeOf q
decreasing_by exact sizeOf_subquery hm

/-! ## Runs -/

theorem fetchMounts_of_children {t : Settings} {fetch other : Fetch} {owner : Query}
    {rows : List Row} {mounts : List MountPlan} (apart : (mounts.map (·.mount)).Nodup)
    (alike : ∀ m ∈ mounts, ∀ child link, owner.children.lookup m.mount = some child →
      child.link = some link → ∀ keys d,
        fetchChild t other link keys child d = fetchChild s fetch link keys child d)
    {q : Query} (same : ∀ m ∈ mounts, q.children.lookup m.mount = owner.children.lookup m.mount)
    (groups : Groups) (d : Database) :
    fetchMounts t other rows mounts groups q d = fetchMounts s fetch rows mounts groups q d := by
  induction mounts generalizing q groups d with
  | nil => rfl
  | cons m rest ih =>
      rw [List.map_cons, List.nodup_cons] at apart
      rw [List.forall_mem_cons] at alike same
      have further := fun {q} => @ih apart.2 alike.2 q
      unfold fetchMounts
      split
      · next child key keys found _ =>
        split
        · exact further same.2 groups d
        · next link linked =>
          rw [alike.1 child link (same.1.symm.trans found) linked]
          dsimp only
          split
          · rfl
          · exact further (lookup_ran apart.1 same.2 _) _ _
      · exact further same.2 groups d

theorem fetchWithin_withAffix (plain : s.config.affix = none) (affix : Affix) (c : Connection)
    (depth : Nat) {q next : Query} {compiled : Compiled} (sound : Sound s q)
    (orderly : q.Orderly) (built : q.build s = (.ok compiled, next))
    (unfailing : ∀ path faults, ¬ Misbuilds s q path faults) (d : Database) :
    fetchWithin (s.withAffix affix) c depth compiled next d =
      fetchWithin s c depth compiled next d := by
  induction depth generalizing q next compiled d with
  | zero =>
      unfold fetchWithin
      rfl
  | succ depth ih =>
      obtain ⟨soundNext, -, compiles⟩ := sound.build
      rw [built] at soundNext compiles
      have tidy := orderly.build built
      have apart := tidy.mounts.sublist (compiles compiled rfl).mounts
      unfold fetchWithin
      cases d.query c compiled.statement with
      | mk reply after =>
          cases reply with
          | error f => rfl
          | ok rows =>
              dsimp only
              rw [fetchMounts_of_children apart ?_ fun _ _ => rfl]
              intro m planned child link found linked keys d
              have misbuilt {path : List Mount} {faults : List Fault}
                  (h : Misbuilds s (child.setOwnerKeys link keys) path faults) : False :=
                unfailing _ _ (.further built planned found linked (h.of_keys linked))
              unfold fetchChild
              cases hb : (child.setOwnerKeys link keys).build s with
              | mk result ready =>
                  cases result with
                  | error faults => exact (misbuilt (.here (by rw [hb]))).elim
                  | ok form =>
                      have own := (soundNext.child (Keyed.mem_of_lookup found)).setOwnerKeys linked
                      have restricted := (tidy.child found).setOwnerKeys link keys
                      rw [build_withAffix plain affix hb]
                      simp only [ih (own keys).1 restricted hb fun _ _ => misbuilt]

/-- A query that builds without an affix builds to the same under any: the same statements, plan
and children. If nothing below it fails to build without an affix, it also runs as it did. -/
theorem Reached.affix_unused (plain : s.config.affix = none)
    (built : q.build s = (.ok compiled, next)) (affix : Affix) :
    q.build (s.withAffix affix) = (.ok compiled, next) ∧
      (q.Reached s → (∀ path faults, ¬ Misbuilds s q path faults) →
        ∀ c d, q.exec (s.withAffix affix) c d = q.exec s c d) := by
  have same := build_withAffix plain affix built
  refine ⟨same, fun reached unfailing c d => ?_⟩
  have fetched := fetchWithin_withAffix plain affix c d.replies.length reached.sound
    reached.orderly built unfailing d
  simp only [exec, same, built, collect, fetch, fetched]

end Query

namespace Sample

theorem patrons_reached : patrons.Reached settings :=
  .call (.call (.call .new (.setSource (s := settings) "Customer")) (.select _))
    (.filter _ _ fun sub hm => by
      obtain rfl := Param.subquery.inj (List.mem_singleton.mp hm)
      exact customers_reached)

def isLeaf (child : Query) : Bool :=
  match child.link with
  | none => false
  | some link => match ((child.setOwnerKeys link []).build settings).1 with
    | .ok compiled => compiled.plan.mounts.isEmpty
    | .error _ => false

theorem not_misbuilds_of_isLeaf {child : Query} {link : Link} (linked : child.link = some link)
    (h : isLeaf child) (path : List Mount) (faults : List Fault) :
    ¬ Query.Misbuilds settings (child.setOwnerKeys link []) path faults := by
  intro misbuilds
  rw [isLeaf, linked] at h
  cases misbuilds with
  | here unbuilt =>
      simp only [unbuilt] at h
      cases h
  | further built planned =>
      simp only [built, List.isEmpty_iff] at h
      rw [h] at planned
      cases planned

theorem patrons_unfailing (path : List Mount) (faults : List Fault) :
    ¬ Query.Misbuilds settings patrons path faults := by
  obtain ⟨compiled, next, built⟩ : ∃ compiled next,
      patrons.build settings = (.ok compiled, next) := ⟨_, _, rfl⟩
  have leaves : ((patrons.build settings).2.children.map fun entry => isLeaf entry.2) = [true] := by
    decide +kernel
  rw [built] at leaves
  intro h
  cases h with
  | here unbuilt =>
      rw [built] at unbuilt
      cases unbuilt
  | further other planned found linked misbuilds =>
      obtain ⟨-, rfl⟩ := Prod.mk.inj (other.symm.trans built)
      have leaf := List.mem_map_of_mem (f := fun entry => isLeaf entry.2) (Keyed.mem_of_lookup found)
      rw [leaves] at leaf
      exact not_misbuilds_of_isLeaf linked (List.mem_singleton.mp leaf) _ _ (misbuilds [])

end Sample

theorem Query.Reached.affix_unused_patrons : ∃ compiled next,
    Sample.settings.config.affix = none ∧
      Sample.patrons.build Sample.settings = (.ok compiled, next) ∧
      Sample.patrons.Reached Sample.settings ∧
      (∀ path faults, ¬ Misbuilds Sample.settings Sample.patrons path faults) ∧
      Sample.patrons.build (Sample.settings.withAffix ⟨"Id", .trailing⟩) = (.ok compiled, next) ∧
      ∀ c d, Sample.patrons.exec (Sample.settings.withAffix ⟨"Id", .trailing⟩) c d =
        Sample.patrons.exec Sample.settings c d := by
  obtain ⟨compiled, next, built⟩ : ∃ compiled next,
      Sample.patrons.build Sample.settings = (.ok compiled, next) := ⟨_, _, rfl⟩
  obtain ⟨same, runs⟩ := Reached.affix_unused rfl built ⟨"Id", .trailing⟩
  exact ⟨compiled, next, rfl, built, Sample.patrons_reached, Sample.patrons_unfailing, same,
    runs Sample.patrons_reached Sample.patrons_unfailing⟩

end RowGraph
