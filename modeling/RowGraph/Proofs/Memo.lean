import RowGraph.Proofs.Moves

/-!
# Kept compiled forms

A query that keeps a compiled form is one whose clauses still compile to exactly that form. The
one fault that can be found while a compiled form is kept is a source that is set again: it leaves
the clauses as they are, and does not drop the compiled form either, so that the query still
builds although compiling it anew reports the fault (`Reached.memo_current`).
-/

namespace RowGraph

theorem Checks.faults_of_resolution {c : Checks} {r : Resolution} (h : c.resolution = .ok r) :
    c.faults = [] := by
  rw [resolution_ok h]
  rfl

namespace Query

theorem mounts_foldl_forwardExcluded (hops : List Hop) (q : Query) :
    (hops.foldl forwardExcluded q).children.map Prod.fst = q.children.map Prod.fst := by
  induction hops generalizing q with
  | nil => rfl
  | cons hop rest ih => rw [List.foldl_cons, ih, forwardExcluded, modifyChild, Keyed.keys_modify]

theorem mounts_forward_of_mem (s : Schema) {q : Query} {r : Resolution}
    (there : ∀ hop ∈ r.hops false, hop.mount ∈ q.children.map Prod.fst) :
    (q.forward s r).children.map Prod.fst = q.children.map Prod.fst := by
  have plain : ∀ (hops : List Hop) (q : Query),
      (∀ hop ∈ hops, hop.mount ∈ q.children.map Prod.fst) →
      (hops.foldl (forwardPlain s) q).children.map Prod.fst = q.children.map Prod.fst := by
    intro hops
    induction hops with
    | nil => exact fun _ _ => rfl
    | cons hop rest ih =>
        intro q hq
        rw [List.forall_mem_cons] at hq
        have first : (q.forwardPlain s hop).children.map Prod.fst = q.children.map Prod.fst := by
          rw [forwardPlain, modifyChild, Keyed.keys_modify, mounts_openChild, if_pos hq.1]
        rw [List.foldl_cons, ih _ (by rw [first]; exact hq.2), first]
  rw [forward, mounts_foldl_forwardExcluded, plain _ q there]

/-- Compiling anew gives the compiled form of the clauses, unless a fault was recorded. -/
theorem Compiles.compile {s : Settings} {q : Query} {compiled : Compiled}
    (h : q.Compiles s compiled) :
    (q.compile s).map Prod.fst = if q.faults = [] then .ok compiled else .error q.faults := by
  obtain ⟨base, r, resolves, there, rfl⟩ := h
  by_cases faultless : q.faults = []
  · rw [compile_of_resolves resolves faultless, if_pos faultless]
    simp only [Except.map, assemble, mounts_forward_of_mem s.schema there]
  · rw [compile_of_unresolved resolves.entity (.inl faultless), if_neg faultless,
      Checks.faults_of_resolution resolves.resolution, List.append_nil]
    rfl

theorem Reached.memo_current {s : Settings} {q : Query} {compiled : Compiled} (h : q.Reached s)
    (kept : q.compiled = some compiled) :
    (∀ fault ∈ q.faults, fault = .sourceSetTwice) ∧
      (q.compile s).map Prod.fst =
        if q.faults = [] then .ok compiled else .error q.faults := by
  refine ⟨h.orderly.blamed (by rw [kept]; rfl), ?_⟩
  exact (h.sound.memo kept).compile

theorem Reached.memo_current_orders : ∃ compiled,
    (Sample.orders.build Sample.settings).2.compiled = some compiled ∧
      (((Sample.orders.build Sample.settings).2).compile Sample.settings).map Prod.fst =
        .ok compiled := by
  have reached := Reached.call Sample.orders_reached .build
  exact ⟨_, rfl, (Reached.memo_current reached rfl).2⟩

end Query

namespace Sample

def resourced : Query :=
  ((({} : Query).setSource schema "Order").build settings).2.setSource schema "Customer"

theorem resourced_reached : resourced.Reached settings :=
  .call (.call (.call .new (.setSource (s := settings) "Order")) .build)
    (.setSource (s := settings) "Customer")

end Sample

theorem Query.Reached.memo_hides_source : ∃ compiled,
    Sample.resourced.Reached Sample.settings ∧ Sample.resourced.compiled = some compiled ∧
      (Sample.resourced.build Sample.settings).1 = .ok compiled ∧
      (Sample.resourced.compile Sample.settings).map Prod.fst = .error [.sourceSetTwice] := by
  have reached := Sample.resourced_reached
  exact ⟨_, reached, rfl, rfl, (reached.sound.memo rfl).compile⟩

end RowGraph
