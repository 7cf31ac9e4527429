import RowGraph.Proofs.Isolated
import RowGraph.Proofs.Members

/-!
# Plans and runs in any schema

The tables that become objects are joined along chains of bridges from the base table, so every
object hangs below one that is there (`Scope.Hung`), whatever the schema is and even if bridges
have no names. The plan of a compiled query is therefore arranged (`Query.Compiles.arranged`). In a
schema of named bridges it is in order as well, as then no toMany property is in the place of an
object. Nor does what a run fetches depend on the schema (`Query.Reached.exec_hauls`).
-/

namespace RowGraph

namespace Scope

variable {scope more : Scope}

def Exposes (scope : Scope) (path : Path) : Prop :=
  path ∈ scope.tables.map Prod.fst ∧ scope.aliasOf path ∈ scope.shown.map Prod.fst

/-- A scope whose objects hang below that of the base table. -/
structure Hung (scope : Scope) : Prop where
  rooted : scope.Rooted
  hangs : Hangs scope.tables scope.shown

structure Unfolds (scope more : Scope) : Prop where
  hung : more.Hung
  kept : ∀ path, scope.Exposes path → more.Exposes path

theorem Unfolds.trans {last : Scope} (h : scope.Unfolds more) (hl : more.Unfolds last) :
    scope.Unfolds last :=
  ⟨hl.hung, fun path exposed => hl.kept path (h.kept path exposed)⟩

theorem hung_base (e : Entity) : (Scope.base e).Hung := ⟨rooted_base e, .root e.name⟩

namespace Hung

theorem unfolds (h : scope.Hung) : scope.Unfolds scope := ⟨h, fun _ exposed => exposed⟩

theorem exposes_root (h : scope.Hung) : scope.Exposes .root := by
  obtain ⟨e, first⟩ := h.rooted.first
  refine ⟨mem_tables_of_getElem? first, ?_⟩
  rw [h.rooted.aliasOf_root]
  exact h.rooted.shown

theorem addKey (h : scope.Hung) (path : Path) : scope.Unfolds (scope.addKey path) := by
  refine ⟨⟨h.rooted.addKey path, by simpa using h.hangs⟩, fun other exposed => ?_⟩
  have same : (scope.addKey path).aliasOf other = scope.aliasOf other := by
    simp only [aliasOf, aliasOf?, tables_addKey]
  rw [Exposes, same, tables_addKey, shown_addKey]
  exact exposed

theorem addJoin (h : scope.Hung) (step : Step) : scope.Unfolds (scope.addJoin step) := by
  have grown := tables_prefix_addAll scope [.join step false]
  refine ⟨⟨h.rooted.addJoin step, h.hangs.mono grown⟩, fun path exposed => ?_⟩
  refine ⟨(grown.map Prod.fst).subset exposed.1, ?_⟩
  rw [show (scope.addJoin step).aliasOf path = scope.aliasOf path from
    aliasOf_grown grown exposed.1]
  exact exposed.2

theorem addShown (h : scope.Hung) {step : Step} (there : step.path ∈ scope.tables.map Prod.fst)
    (owner : scope.Exposes step.owner) :
    scope.Unfolds (scope.addShown step) ∧ (scope.addShown step).Exposes step.path := by
  have named (path : Path) : (scope.addShown step).aliasOf path = scope.aliasOf path := by
    simp only [aliasOf, aliasOf?, tables_addShown]
  have rooted := h.rooted.addShown there
  have keys : (scope.addShown step).shown.map Prod.fst =
      if scope.aliasOf step.path ∈ scope.shown.map Prod.fst then scope.shown.map Prod.fst
      else scope.shown.map Prod.fst ++ [scope.aliasOf step.path] := by
    rw [Scope.addShown, shown_addKey, Keyed.keys_putNew]
  refine ⟨⟨⟨rooted, ?_⟩, fun path exposed => ?_⟩, ?_⟩
  · rw [tables_addShown, Scope.addShown, shown_addKey]
    by_cases held : scope.aliasOf step.path ∈ scope.shown.map Prod.fst
    · rw [Keyed.putNew_of_mem _ held]
      exact h.hangs
    · rw [Keyed.putNew_of_not_mem _ held]
      -- the root is an object already, so that the step does not lead back to it
      have apart : step.path ≠ .root := fun root => held (root ▸ h.exposes_root.2)
      have bridges : step.path.bridges = step.owner.bridges ++ [step.bridge] := by
        unfold Step.path Path.enter at apart ⊢
        split
        · next collapsed => exact absurd (if_pos collapsed) apart
        · rfl
      obtain ⟨e, table⟩ := exists_table? h.rooted.backed.paths there
      obtain ⟨f, ownerTable⟩ := exists_table? h.rooted.backed.paths owner.1
      exact .snoc _ h.hangs held owner.2 table ownerTable bridges
  · rw [Exposes, named, tables_addShown, keys]
    refine ⟨exposed.1, ?_⟩
    split
    · exact exposed.2
    · exact List.mem_append_left _ exposed.2
  · rw [Exposes, named, tables_addShown, keys]
    refine ⟨there, ?_⟩
    split
    · assumption
    · exact List.mem_append_right _ (List.mem_singleton_self _)

theorem chain {s : Schema} {e last : Entity} {path final : Path} {steps : List Step}
    (chain : s.Chain e path steps last final) (h : scope.Hung) (start : scope.Exposes path) :
    scope.Unfolds (scope.addAll (steps.map (Need.join · true))) := by
  induction chain generalizing scope with
  | nil => exact h.unfolds
  | @cons e next last path final bridge boundKey steps _ _ ih =>
      let step : Step := { owner := path, bridge, boundKey, target := next }
      have joined := h.addJoin step
      obtain ⟨shown, exposed⟩ :=
        joined.hung.addShown (mem_tables_addJoin step) (joined.kept path start)
      exact (joined.trans shown).trans (ih shown.hung exposed)

theorem append {front back : List Need} (h : scope.Hung)
    (first : ∀ scope : Scope, scope.Hung → scope.Unfolds (scope.addAll front))
    (second : ∀ scope : Scope, scope.Hung → scope.Unfolds (scope.addAll back)) :
    scope.Unfolds (scope.addAll (front ++ back)) := by
  rw [Scope.addAll, List.foldl_append]
  exact (first scope h).trans (second _ (first scope h).hung)

theorem flatMap {α : Type} {f : α → List Need} {items : List α} (h : scope.Hung)
    (each : ∀ item ∈ items, ∀ scope : Scope, scope.Hung → scope.Unfolds (scope.addAll (f item))) :
    scope.Unfolds (scope.addAll (items.flatMap f)) := by
  induction items generalizing scope with
  | nil => exact h.unfolds
  | cons item rest ih =>
      rw [List.forall_mem_cons] at each
      rw [List.flatMap_cons]
      exact h.append each.1 fun scope h => ih h each.2

end Hung
end Scope

/-! ## Needs of fields and paths -/

namespace Settings

variable {s : Settings} {base : Entity} {scope : Scope}

theorem Follows.unfolds {place : Place} {field : String} {i : Item}
    (follows : s.Follows base place field i) (h : scope.Hung) :
    scope.Unfolds (scope.addAll (i.needs true)) := by
  obtain ⟨last, final, rest, chain, -⟩ := follows.walk
  unfold Item.needs
  split
  · exact h.unfolds
  · dsimp only
    split
    · exact h.chain chain h.exposes_root
    · exact h.append (fun _ h => h.chain chain h.exposes_root) fun _ h => h.addKey _

theorem Reaches.unfolds {path : Path} {steps : List Step} (reaches : s.Reaches base path steps)
    (h : scope.Hung) : scope.Unfolds (scope.addAll (pathNeeds steps)) := by
  obtain ⟨last, final, chain, -⟩ := reaches
  exact h.append (fun _ h => h.chain chain h.exposes_root) fun _ h => h.addKey _

theorem Resolved.hung {c : Clauses} {bindings : List Binding} {r : Resolution}
    (resolved : s.Resolved base c bindings r) :
    (r.scopes base).shown.Hung ∧ (r.scopes base).whole.Hung := by
  have listed {fields : List String} {items : List Item}
      (follows : List.Forall₂ (s.Follows base .select) fields items) (scope : Scope)
      (h : scope.Hung) : scope.Unfolds (scope.addAll (items.flatMap (·.needs true))) := by
    refine h.flatMap fun i hi scope h => ?_
    obtain ⟨field, -, hf⟩ := exists_of_forall₂ follows hi
    exact hf.unfolds h
  have index (scope : Scope) (h : scope.Hung) :
      scope.Unfolds (scope.addAll (r.index.toList.flatMap (·.needs true))) := by
    refine h.flatMap fun i hi scope h => ?_
    have found := resolved.index
    rw [Option.mem_toList.mp hi] at found
    generalize c.index = target at found
    cases found with
    | field follows => exact follows.unfolds h
  have relations (scope : Scope) (h : scope.Hung) :
      scope.Unfolds (scope.addAll (r.relations.flatMap pathNeeds)) := by
    refine h.flatMap fun steps hm scope h => ?_
    obtain ⟨path, -, reaches⟩ := exists_of_forall₂ resolved.relations hm
    exact reaches.unfolds h
  have shown : (r.scopes base).shown.Hung := by
    refine ((Scope.hung_base base).append (fun _ h => h.append (fun _ h => h.append
      (listed resolved.forced) index) (listed resolved.fields)) relations).hung
  refine ⟨shown, shown.rooted.addAll r.otherNeeds, ?_⟩
  rw [r.shown_whole]
  exact shown.hangs.mono (Scope.tables_prefix_addAll (r.scopes base).shown r.otherNeeds)

end Settings

namespace Query

variable {s : Settings} {q : Query}

theorem Compiles.arranged {compiled : Compiled} (h : q.Compiles s compiled)
    (apart : (q.children.map Prod.fst).Nodup) : compiled.plan.Arranged := by
  obtain ⟨base, r, resolves, -, rfl⟩ := h
  obtain ⟨-, rooted, hangs⟩ := (Settings.check_ok resolves.resolution).hung
  exact Scope.arranged_plan s.config.keepInjectedKeys (r.injected (r.scopes base))
    rooted.backed.paths rooted.first hangs apart (r.indexTarget? (r.scopes base).whole q.clauses.index)

/-! ## Runs -/

theorem Orderly.fetchable (s : Settings) : Fetchable s Orderly where
  apart orderly := orderly.mounts
  linked orderly found := orderly.linked found
  built orderly found _ built := ((orderly.child found).setOwnerKeys _ _).build built

end Query

namespace Haul

variable {s : Settings}

structure Ready (s : Settings) (h : Haul) : Prop where
  orderly : h.query.Orderly
  compiles : h.query.Compiles s h.compiled

theorem FetchedAll.ready {q : Query} {rows : List Row} {mounts : List MountPlan}
    {children : List (Mount × Haul)} (all : FetchedAll s q rows mounts children)
    (orderly : q.Orderly) : ∀ entry ∈ children, entry.2.Ready s ∧ ∃ child,
      q.children.lookup entry.1 = some child ∧ entry.2.query.clauses = child.clauses := by
  intro entry he
  obtain ⟨child, link, keys, found, -, built⟩ := all.built entry he
  obtain ⟨frames, compiles⟩ := Query.compiles_of_fresh rfl built
  exact ⟨⟨((orderly.child found).setOwnerKeys link keys).build built, compiles⟩, child, found,
    frames.clauses⟩

end Haul

namespace Query

variable {s : Settings} {q : Query}

theorem Reached.exec_hauls (reached : q.Reached s) (silent : q.listeners.any = false)
    {c : Connection} {d : Database} {output : Output} (h : (q.exec s c d).result = .ok output) :
    ∃ haul : Haul, ∃ after, q.build s = (.ok haul.compiled, haul.query) ∧
      haul.Ready s ∧ haul.Fetched s ∧ d.Answers c haul.conversation after ∧
      output.items? = some (haul.compiled.plan.mapRows (Haul.groupsOf haul.children) haul.rows) := by
  obtain ⟨-, frames, -⟩ := reached.sound.build
  obtain ⟨compiled, next, rows, groups, built, hr, items⟩ := exec_ok silent frames.listeners h
  obtain ⟨-, -, compiles⟩ := reached.build built
  have orderly := reached.orderly.build built
  obtain ⟨children, rfl, fetched, answers⟩ :=
    fetch_of_fetchable (Orderly.fetchable s) orderly compiles hr
  exact ⟨.mk next compiled rows children, _, built, ⟨orderly, compiles⟩, fetched, answers, items⟩

end Query

end RowGraph
