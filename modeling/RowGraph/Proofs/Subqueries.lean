import RowGraph.Proofs.Faults

/-!
# Faults of subqueries

A query does not build if a subquery of its filter does not, at any depth. If its filter can be read
so far that the subqueries get their places, then its faults have those of the subquery among them,
in one piece (`Query.Reached.subquery_reported`). A filter with a reference that does not resolve,
or with more values than placeholders, hides what is wrong with its subqueries
(`Query.Reached.subquery_hidden`).
-/

namespace RowGraph
namespace Query

variable {s : Settings} {p : Query → Prop} {inner q : Query} {found : List Fault}

/-- A query in the filter of another, at any depth, if the queries around it have a property. -/
inductive Within (p : Query → Prop) (inner : Query) : Query → Prop where
  | here {q : Query} (holds : p q) (member : .subquery inner ∈ q.params) : Within p inner q
  | there {q middle : Query} (holds : p q) (member : .subquery middle ∈ q.params)
      (below : Within p inner middle) : Within p inner q

def Filtered (q : Query) : Prop := q.clauses.filter.isSome

def Reads (s : Settings) (q : Query) : Prop :=
  ∃ base expression t, q.base? s.schema = some base ∧ q.clauses.filter = some expression ∧
    s.template base expression = .ok t ∧ q.params.length ≤ t.placeholders s.style

theorem Reads.filtered (h : q.Reads s) : q.Filtered := by
  obtain ⟨base, expression, t, -, given, -⟩ := h
  rw [Filtered, given]
  rfl

theorem binding_mem (member : .subquery inner ∈ q.params) :
    .statement ((inner.build s).1.map Compiled.statement) ∈ q.bindings s := by
  rw [bindings_eq_map]
  exact List.mem_map_of_mem member

theorem Resolves.subquery_builds {base : Entity} {r : Resolution} (h : q.Resolves s base r)
    (filtered : q.Filtered) (member : .subquery inner ∈ q.params) :
    ∃ compiled, (inner.build s).1 = .ok compiled := by
  have filters := (Settings.check_ok h.resolution).filter
  obtain ⟨expression, given⟩ := Option.isSome_iff_exists.mp filtered
  rw [given] at filters
  generalize r.filter = resolved at filters
  rcases filters with filters | _
  obtain ⟨bound, -, checked⟩ := exists_of_forall₂ filters.bounds.flip (binding_mem member)
  obtain ⟨statement, built, -⟩ := map_eq_ok_iff.mp checked
  obtain ⟨compiled, ok, -⟩ := map_eq_ok_iff.mp built
  exact ⟨compiled, ok⟩

theorem fails_of_subquery (h : Sound s q) (filtered : q.Filtered)
    (member : .subquery inner ∈ q.params) (fails : (inner.build s).1 = .error found) :
    ∃ faults, (q.build s).1 = .error faults := by
  cases built : (q.build s).1 with
  | error faults => exact ⟨faults, rfl⟩
  | ok compiled =>
      obtain ⟨-, frames, compiles⟩ := h.build
      obtain ⟨base, r, resolves, -⟩ := compiles compiled built
      have also : (q.build s).2.Filtered := by
        rw [Filtered, frames.clauses]
        exact filtered
      obtain ⟨other, ok⟩ := resolves.subquery_builds also (frames.params ▸ member)
      rw [fails] at ok
      cases ok

theorem faults_infix_filter {base : Entity} (reads : q.Reads s) (hb : q.base? s.schema = some base)
    (member : .subquery inner ∈ q.params) (fails : (inner.build s).1 = .error found) :
    found <:+: (s.check base q.clauses (q.bindings s)).filter.faults := by
  obtain ⟨known, expression, t, hk, given, ht, enough⟩ := reads
  obtain rfl : base = known := Option.some.inj (hb.symm.trans hk)
  have length : (q.bindings s).length = q.params.length := by rw [bindings_eq_map, List.length_map]
  have filter : (s.check base q.clauses (q.bindings s)).filter.faults =
      (q.bindings s).flatMap (·.check.faults) := by
    have faults := @Settings.faults_filter s base expression (q.bindings s)
    rw [ht, length] at faults
    dsimp only at faults
    rw [if_neg (Nat.not_lt.mpr enough)] at faults
    rw [← faults, Settings.check, given]
    exact Settings.faults_filter?_some expression _
  rw [filter]
  have own : found = (Binding.statement ((inner.build s).1.map Compiled.statement)).check.faults := by
    rw [fails]
    rfl
  rw [own]
  rw [List.flatMap_def]
  exact List.infix_of_mem_flatten (List.mem_map_of_mem (binding_mem member))

theorem reports_of_subquery (h : Sound s q) (reads : q.Reads s)
    (member : .subquery inner ∈ q.params) (fails : (inner.build s).1 = .error found) :
    ∃ faults, (q.build s).1 = .error faults ∧ found <:+: faults := by
  obtain ⟨faults, failed⟩ := fails_of_subquery h reads.filtered member fails
  refine ⟨faults, failed, ?_⟩
  obtain ⟨base, -, -, hb, -⟩ := id reads
  have fresh : q.compiled = none := by
    cases kept : q.compiled with
    | none => rfl
    | some compiled =>
        rw [build, kept] at failed
        cases failed
  have gathered := faults_build hb fresh
  rw [failed] at gathered
  rw [show faults = _ from gathered]
  exact ((faults_infix_filter reads hb member fails).trans (Checks.filter_infix _)).trans
    (List.suffix_append _ _).isInfix

theorem Within.fails (within : inner.Within Filtered q) (fails : (inner.build s).1 = .error found) :
    Sound s q → ∃ faults, (q.build s).1 = .error faults := by
  induction within with
  | here filtered member => exact fun h => fails_of_subquery h filtered member fails
  | there filtered member below ih =>
      intro h
      obtain ⟨more, failed⟩ := ih (h.subquery member)
      exact fails_of_subquery h filtered member failed

theorem Within.reports (within : inner.Within (Reads s) q)
    (fails : (inner.build s).1 = .error found) :
    Sound s q → ∃ faults, (q.build s).1 = .error faults ∧ found <:+: faults := by
  induction within with
  | here reads member => exact fun h => reports_of_subquery h reads member fails
  | there reads member below ih =>
      intro h
      obtain ⟨more, failed, inside⟩ := ih (h.subquery member)
      obtain ⟨faults, outer, part⟩ := reports_of_subquery h reads member failed
      exact ⟨faults, outer, inside.trans part⟩

/-- A query does not build if a subquery of its filter does not, at any depth; and it has all faults
of the subquery among its own, if the filters around it can be read. -/
theorem Reached.subquery_reported (h : q.Reached s) (fails : (inner.build s).1 = .error found) :
    (inner.Within Filtered q → ∃ faults, (q.build s).1 = .error faults) ∧
      (inner.Within (Reads s) q →
        ∃ faults, (q.build s).1 = .error faults ∧ found <:+: faults) :=
  ⟨fun within => within.fails fails h.sound, fun within => within.reports fails h.sound⟩

end Query

namespace Sample

def strangers : Query := (({} : Query).setSource schema "Customer").select "nope"

theorem strangers_reached : strangers.Reached settings :=
  .call (.call .new (.setSource (s := settings) "Customer")) (.select "nope")

def ordersOf (sub : Query) (expression : String) : Query :=
  (({} : Query).setSource schema "Order").filter expression [.subquery sub, .value (.ofInt64 7)]

theorem ordersOf_reached {sub : Query} (h : sub.Reached settings) (expression : String) :
    (ordersOf sub expression).Reached settings := by
  refine .call (.call .new (.setSource (s := settings) "Order")) (.filter expression _ ?_)
  intro other hm
  simp only [List.mem_cons, Param.subquery.injEq, reduceCtorEq, List.not_mem_nil, or_false] at hm
  rw [hm]
  exact h

def readable : String := "\x7bcustomerId\x7d IN ? OR \x7bcustomerId\x7d = ?"

def nested : Query := (ordersOf (ordersOf strangers readable) readable).order "\x7bwhen\x7d"

end Sample

namespace Query.Reached

theorem subquery_reported_nested :
    (Sample.nested.build Sample.settings).1 =
        .error [.unresolvedField "nope" "Customer", .unresolvedField "when" "Order"] ∧
      (∃ faults, (Sample.nested.build Sample.settings).1 = .error faults) ∧
      ∃ faults, (Sample.nested.build Sample.settings).1 = .error faults ∧
        [.unresolvedField "nope" "Customer"] <:+: faults := by
  have reached : Sample.nested.Reached Sample.settings :=
    .call (Sample.ordersOf_reached (Sample.ordersOf_reached Sample.strangers_reached _) _) (.order _)
  have reads : Sample.strangers.Within (Reads Sample.settings) Sample.nested :=
    .there ⟨_, _, _, rfl, rfl, rfl, by decide⟩ (.head _)
      (.here ⟨_, _, _, rfl, rfl, rfl, by decide⟩ (.head _))
  have filtered : Sample.strangers.Within Filtered Sample.nested :=
    .there rfl (.head _) (.here rfl (.head _))
  have fails : (Sample.strangers.build Sample.settings).1 =
      .error [.unresolvedField "nope" "Customer"] := rfl
  have reported := subquery_reported reached fails
  exact ⟨rfl, reported.1 filtered, reported.2 reads⟩

/-- A reference that does not resolve, or a value too many, hides what is wrong with a subquery. -/
theorem subquery_hidden :
    (Sample.strangers.build Sample.settings).1 = .error [.unresolvedField "nope" "Customer"] ∧
      (Sample.ordersOf Sample.strangers "\x7bnme\x7d IN ? OR 1 = ?").Reached Sample.settings ∧
      ((Sample.ordersOf Sample.strangers "\x7bnme\x7d IN ? OR 1 = ?").build Sample.settings).1 =
        .error [.unresolvedField "nme" "Order"] ∧
      ((Sample.ordersOf Sample.strangers "\x7bid\x7d IN ?").build Sample.settings).1 =
        .error [.tooManyValues "\x7bid\x7d IN ?" 1 2] :=
  ⟨rfl, Sample.ordersOf_reached Sample.strangers_reached _, rfl, rfl⟩

end Query.Reached
end RowGraph
