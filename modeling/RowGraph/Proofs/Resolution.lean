import RowGraph.Proofs.Walk
import RowGraph.Query.Resolution

/-!
# Resolved clauses

Clauses that resolve were followed one by one: every field of a list, every reference of an
expression and every toMany path has its walk (`Settings.Resolved`, `check_ok`).
-/

namespace RowGraph

/-! ## Expressions -/

inductive Settings.Replaces (s : Settings) (base : Entity) : Segment → TemplatePart → Prop where
  | literal (text : String) : Replaces s base (.literal text) (.literal text)
  | reference {field : String} {i : Item}
      (follows : s.Follows base .expression (Text.trim field) i) :
      Replaces s base (.reference field) (.field i)

def Settings.Fills (s : Settings) (base : Entity) (expression : String) (t : Template) : Prop :=
  List.Forall₂ (s.Replaces base) (segments expression) t

theorem Settings.part_ok {s : Settings} {base : Entity} {segment : Segment} {part : TemplatePart}
    (h : s.part base segment = .ok part) : s.Replaces base segment part := by
  cases segment with
  | literal text =>
      cases h
      exact .literal text
  | reference field =>
      simp only [Settings.part] at h
      obtain ⟨i, hi, rfl⟩ := map_eq_ok_iff.mp h
      exact .reference (item_ok hi)

theorem Settings.template_ok {s : Settings} {base : Entity} {expression : String} {t : Template}
    (h : s.template base expression = .ok t) : s.Fills base expression t :=
  (Checked.all_map_eq_ok_iff.mp h).imp fun _ _ hp => part_ok (Checked.ofExcept_eq_ok_iff.mp hp)

theorem Settings.template?_ok {s : Settings} {base : Entity} {expression : Option String}
    {t : Option Template} (h : s.template? base expression = .ok t) :
    Option.Rel (s.Fills base) expression t := by
  cases expression with
  | none =>
      cases h
      exact .none
  | some expression =>
      obtain ⟨found, hf, rfl⟩ := map_eq_ok_iff.mp h
      exact .some (template_ok hf)

/-! ## Filters -/

structure Settings.Filters (s : Settings) (base : Entity) (bindings : List Binding)
    (expression : String) (f : Filter) : Prop where
  fills : s.Fills base expression f.template
  enough : bindings.length ≤ f.template.placeholders s.style
  bounds : List.Forall₂ (fun binding bound => binding.check = .ok bound) bindings f.bounds

theorem Settings.passed_of_filter {s : Settings} {base : Entity} {expression : String}
    {bindings : List Binding} {f : Filter} (h : s.filter base expression bindings = .ok f) :
    s.template base expression = .ok f.template ∧
      bindings.length ≤ f.template.placeholders s.style ∧
      List.Forall₂ (fun binding bound => binding.check = .ok bound) bindings f.bounds := by
  unfold Settings.filter at h
  cases ht : s.template base expression with
  | error faults => simp [ht, bind, Except.bind] at h
  | ok t =>
      simp only [ht, bind, Except.bind] at h
      by_cases hn : bindings.length > t.placeholders s.style
      · simp [hn] at h
      · simp only [hn, if_false, pure, Except.pure] at h
        cases hb : Checked.all (bindings.map Binding.check) with
        | error faults => simp [hb] at h
        | ok bounds =>
            simp only [hb, Except.ok.injEq] at h
            subst h
            exact ⟨rfl, Nat.not_lt.mp hn, Checked.all_map_eq_ok_iff.mp hb⟩

theorem Settings.filter_ok {s : Settings} {base : Entity} {expression : String}
    {bindings : List Binding} {f : Filter} (h : s.filter base expression bindings = .ok f) :
    s.Filters base bindings expression f :=
  let ⟨found, enough, bounds⟩ := passed_of_filter h
  ⟨template_ok found, enough, bounds⟩

theorem Settings.filter?_ok {s : Settings} {base : Entity} {expression : Option String}
    {bindings : List Binding} {f : Option Filter}
    (h : s.filter? base bindings expression = .ok f) :
    Option.Rel (s.Filters base bindings) expression f := by
  cases expression with
  | none =>
      cases h
      exact .none
  | some expression =>
      obtain ⟨found, hf, rfl⟩ := map_eq_ok_iff.mp h
      exact .some (filter_ok hf)

/-! ## All clauses -/

inductive Settings.Indexes (s : Settings) (base : Entity) : Option Index → Option Item → Prop where
  | field {name : String} {i : Item} (follows : s.Follows base .index name i) :
      Indexes s base (some (.field name)) (some i)
  | computed (key : Object → Value) : Indexes s base (some (.computed key)) none
  | none : Indexes s base none none

theorem Settings.indexItem_ok {s : Settings} {base : Entity} {index : Option Index}
    {i : Option Item} (h : s.indexItem base index = .ok i) : s.Indexes base index i := by
  rcases index with _ | name | key
  · cases h
    exact .none
  · obtain ⟨items, hi, rfl⟩ := map_eq_ok_iff.mp h
    obtain ⟨item, rest, follows, -, rfl⟩ := List.forall₂_cons_left_iff.mp (items_ok hi)
    exact .field follows
  · cases h
    exact .computed key

def Settings.Reaches (s : Settings) (base : Entity) (path : Path) (steps : List Step) : Prop :=
  ∃ last final, s.schema.Chain base .root steps last final ∧
    path.bridges.filter (!·.isEmpty) = steps.map (·.bridge)

structure Settings.Resolved (s : Settings) (base : Entity) (c : Clauses) (bindings : List Binding)
    (r : Resolution) : Prop where
  forced : List.Forall₂ (s.Follows base .select) c.forced r.forced
  index : s.Indexes base c.index r.index
  fields : List.Forall₂ (s.Follows base .select) c.fields r.fields
  relations : List.Forall₂ (s.Reaches base) c.relations r.relations
  expressions : List.Forall₂ (s.Fills base) c.expressions r.expressions
  filter : Option.Rel (s.Filters base bindings) c.filter r.filter
  group : Option.Rel (s.Fills base) c.group r.group
  having : Option.Rel (s.Fills base) (c.having.map Prod.fst) r.having
  order : Option.Rel (s.Fills base) c.order r.order

theorem Checks.resolution_ok {c : Checks} {r : Resolution} (h : c.resolution = .ok r) :
    c = { forced := .ok r.forced, index := .ok r.index, fields := .ok r.fields,
          relations := .ok r.relations, expressions := .ok r.expressions, filter := .ok r.filter,
          group := .ok r.group, having := .ok r.having, order := .ok r.order } := by
  unfold Checks.resolution at h
  split at h
  · cases h
    rfl
  · cases h

theorem Checks.resolution_eq_ok_iff {c : Checks} {r : Resolution} : c.resolution = .ok r ↔
    c = { forced := .ok r.forced, index := .ok r.index, fields := .ok r.fields,
          relations := .ok r.relations, expressions := .ok r.expressions, filter := .ok r.filter,
          group := .ok r.group, having := .ok r.having, order := .ok r.order } :=
  ⟨resolution_ok, fun h => by rw [h]; rfl⟩

theorem Settings.check_ok {s : Settings} {base : Entity} {c : Clauses} {bindings : List Binding}
    {r : Resolution} (h : (s.check base c bindings).resolution = .ok r) :
    s.Resolved base c bindings r := by
  have hc := Checks.resolution_ok h
  simp only [Settings.check, Checks.mk.injEq] at hc
  obtain ⟨forced, index, fields, relations, expressions, filter, group, having, order⟩ := hc
  refine ⟨items_ok forced, indexItem_ok index, items_ok fields, ?_, ?_, filter?_ok filter,
    template?_ok group, template?_ok having, template?_ok order⟩
  · exact (Checked.all_map_eq_ok_iff.mp relations).imp fun _ _ hp =>
      walkPath_ok (Checked.ofExcept_eq_ok_iff.mp hp)
  · exact (Checked.all_map_eq_ok_iff.mp expressions).imp fun _ _ ht => template_ok ht

end RowGraph
