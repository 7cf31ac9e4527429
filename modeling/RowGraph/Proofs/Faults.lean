import RowGraph.Proofs.Memo
import RowGraph.Proofs.Selection
import RowGraph.Proofs.Settled

/-!
# Faults of single clauses

A check that fails names a fault (`Checked.Telling`), so that a query builds exactly if no fault is
found. The faults of a query are those recorded with it, and then those of its clauses in their
order, each the same as if its clause were the only one (`Query.faults_gathered`). A source
that is set again after a build is the exception: the compiled form that was kept hides the fault
(`Query.Reached.recorded_fault_hidden`).
-/

namespace RowGraph

/-! ## Checks that name their faults -/

namespace Checked

variable {α β : Type} {result : Checked α}

def Telling (result : Checked α) : Prop := result ≠ .error []

theorem telling_ok (value : α) : Telling (.ok value) := by simp [Telling]

theorem telling_error {fault : Fault} {rest : List Fault} :
    Telling (.error (fault :: rest) : Checked α) := by simp [Telling]

theorem Telling.ok_iff (h : result.Telling) :
    (∃ value, result = .ok value) ↔ result.faults = [] := by
  cases result with
  | ok value => exact iff_of_true ⟨value, rfl⟩ rfl
  | error found =>
      refine iff_of_false ?_ fun none => h (congrArg _ none)
      rintro ⟨_, ok⟩
      cases ok

theorem Telling.map (h : result.Telling) (f : α → β) : Telling (result.map f) := by
  cases result with
  | ok value => exact telling_ok _
  | error found => exact fun none => h (congrArg _ (Except.error.inj none))

theorem Telling.bind (h : result.Telling) {f : α → Checked β} (hf : ∀ value, (f value).Telling) :
    Telling (result >>= f) := by
  cases result with
  | ok value => exact hf value
  | error found => exact fun none => h (congrArg _ (Except.error.inj none))

theorem faults_map (result : Checked α) (f : α → β) : faults (result.map f) = result.faults := by
  cases result <;> rfl

theorem telling_ofExcept (result : Except Fault α) : (ofExcept result).Telling := by
  cases result with
  | ok value => exact telling_ok value
  | error fault => exact telling_error

theorem telling_all {results : List (Checked α)} (h : ∀ result ∈ results, result.Telling) :
    (all results).Telling := by
  induction results with
  | nil => exact telling_ok []
  | cons first rest ih =>
      rw [List.forall_mem_cons] at h
      cases first with
      | error found =>
          intro none
          exact h.1 (congrArg _ (List.append_eq_nil_iff.mp (Except.error.inj none)).1)
      | ok value =>
          have later := ih h.2
          unfold Telling at later ⊢
          rw [all]
          cases hr : all rest with
          | ok values => exact telling_ok _
          | error found => rwa [hr] at later

end Checked

/-! ## Checks of clauses -/

section

variable {s : Settings} {base : Entity}

theorem Settings.telling_items (place : Place) (fields : List String) :
    (s.items base place fields).Telling := by
  refine Checked.telling_all fun result hr => ?_
  obtain ⟨field, -, rfl⟩ := List.mem_map.mp hr
  exact Checked.telling_ofExcept _

theorem Settings.telling_indexItem (index : Option Index) : (s.indexItem base index).Telling := by
  rcases index with _ | name | key
  · exact Checked.telling_ok none
  · exact (telling_items .index [name]).map _
  · exact Checked.telling_ok none

theorem Settings.telling_template (expression : String) : (s.template base expression).Telling := by
  refine Checked.telling_all fun result hr => ?_
  obtain ⟨segment, -, rfl⟩ := List.mem_map.mp hr
  exact Checked.telling_ofExcept _

theorem Settings.telling_template? (expression : Option String) :
    (s.template? base expression).Telling := by
  cases expression with
  | none => exact Checked.telling_ok none
  | some expression => exact (telling_template expression).map _

theorem Settings.faults_filter (expression : String) (bindings : List Binding) :
    (s.filter base expression bindings).faults =
      match s.template base expression with
      | .error found => found
      | .ok t =>
          if t.placeholders s.style < bindings.length then
            [.tooManyValues expression (t.placeholders s.style) bindings.length]
          else bindings.flatMap (·.check.faults) := by
  unfold Settings.filter
  cases s.template base expression with
  | error found => rfl
  | ok t =>
      simp only [bind, Except.bind, gt_iff_lt]
      split
      · rfl
      · simp only [pure, Except.pure]
        have gathered := Checked.faults_all (bindings.map Binding.check)
        rw [List.flatMap_map] at gathered
        rw [← gathered]
        cases Checked.all (bindings.map Binding.check) <;> rfl

theorem Settings.faults_filter?_some (expression : String) (bindings : List Binding) :
    (s.filter? base bindings (some expression)).faults =
      (s.filter base expression bindings).faults :=
  Checked.faults_map ..

theorem Settings.telling_filter (expression : String) {bindings : List Binding}
    (h : ∀ b ∈ bindings, b.check.Telling) : (s.filter base expression bindings).Telling := by
  refine (telling_template expression).bind fun t => ?_
  have bounds : (Checked.all (bindings.map Binding.check)).Telling := by
    refine Checked.telling_all fun result hr => ?_
    obtain ⟨b, hb, rfl⟩ := List.mem_map.mp hr
    exact h b hb
  dsimp only
  split
  · exact Checked.telling_error
  · exact bounds.bind fun found => Checked.telling_ok _

theorem Settings.telling_filter? (expression : Option String) {bindings : List Binding}
    (h : ∀ b ∈ bindings, b.check.Telling) : (s.filter? base bindings expression).Telling := by
  cases expression with
  | none => exact Checked.telling_ok none
  | some expression => exact (telling_filter expression h).map _

theorem Settings.resolution_iff {c : Clauses} {bindings : List Binding}
    (h : ∀ b ∈ bindings, b.check.Telling) :
    (∃ r, (s.check base c bindings).resolution = .ok r) ↔
      (s.check base c bindings).faults = [] := by
  constructor
  · rintro ⟨r, hr⟩
    exact Checks.faults_of_resolution hr
  · intro faultless
    simp only [Checks.faults, Settings.check, List.append_eq_nil_iff] at faultless
    obtain ⟨⟨⟨⟨⟨⟨⟨⟨hforced, hindex⟩, hfields⟩, hrelations⟩, hexpressions⟩, hfilter⟩, hgroup⟩,
      hhaving⟩, horder⟩ := faultless
    obtain ⟨forced, hforced⟩ := (telling_items .select c.forced).ok_iff.mpr hforced
    obtain ⟨index, hindex⟩ := (telling_indexItem c.index).ok_iff.mpr hindex
    obtain ⟨fields, hfields⟩ := (telling_items .select c.fields).ok_iff.mpr hfields
    obtain ⟨relations, hrelations⟩ := (Checked.Telling.ok_iff (Checked.telling_all (by
      intro result hr
      obtain ⟨path, -, rfl⟩ := List.mem_map.mp hr
      exact Checked.telling_ofExcept _))).mpr hrelations
    obtain ⟨expressions, hexpressions⟩ := (Checked.Telling.ok_iff (Checked.telling_all (by
      intro result hr
      obtain ⟨expression, -, rfl⟩ := List.mem_map.mp hr
      exact telling_template expression))).mpr hexpressions
    obtain ⟨filter, hfilter⟩ := (telling_filter? c.filter h).ok_iff.mpr hfilter
    obtain ⟨group, hgroup⟩ := (telling_template? c.group).ok_iff.mpr hgroup
    obtain ⟨having, hhaving⟩ := (telling_template? (c.having.map Prod.fst)).ok_iff.mpr hhaving
    obtain ⟨order, horder⟩ := (telling_template? c.order).ok_iff.mpr horder
    refine ⟨{ forced, index, fields, relations, expressions, filter, group, having, order }, ?_⟩
    rw [Checks.resolution_eq_ok_iff, Settings.check, hforced, hindex, hfields, hrelations,
      hexpressions, hfilter, hgroup, hhaving, horder]

end

theorem Checks.filter_infix (c : Checks) : c.filter.faults <:+: c.faults := by
  refine ⟨c.forced.faults ++ c.index.faults ++ c.fields.faults ++ c.relations.faults ++
    c.expressions.faults, c.group.faults ++ c.having.faults ++ c.order.faults, ?_⟩
  simp only [Checks.faults, List.append_assoc]

/-! ## Clauses that are not given -/

section

variable (s : Settings) (base : Entity)

@[simp] theorem Settings.faults_items_nil (place : Place) :
    (s.items base place []).faults = [] := rfl

@[simp] theorem Settings.faults_indexItem_none : (s.indexItem base none).faults = [] := rfl

@[simp] theorem Settings.faults_filter?_none (bindings : List Binding) :
    (s.filter? base bindings none).faults = [] := rfl

@[simp] theorem Settings.faults_template?_none : (s.template? base none).faults = [] := rfl

theorem Settings.faults_relations_of_nil {c : Clauses} (h : c.relations = [])
    (bindings : List Binding) : (s.check base c bindings).relations.faults = [] := by
  rw [check, h]
  rfl

theorem Settings.faults_fields_of_nil {c : Clauses} (h : c.listed = []) :
    (s.items base .select c.fields).faults = [] := by
  by_cases explicit : c.Explicit
  · rw [Clauses.fields_of_explicit explicit, h, faults_items_nil]
  · rw [Clauses.fields_of_empty explicit]
    rfl

theorem Settings.faults_fields_congr {c other : Clauses} (listed : other.listed = c.listed) :
    (s.items base .select other.fields).faults = (s.items base .select c.fields).faults := by
  by_cases none : c.listed = []
  · rw [faults_fields_of_nil s base none, faults_fields_of_nil s base (listed.trans none)]
  · rw [Clauses.fields_of_explicit (.inl none), Clauses.fields_of_explicit (.inl (listed ▸ none)),
      listed]

end

theorem flatMap_toList {α β : Type} {f : Option α → List β} (none : f none = [])
    (given : Option α) : given.toList.flatMap (fun a => f (some a)) = f given := by
  cases given with
  | none => exact none.symm
  | some a => simp

theorem Settings.faults_check (s : Settings) (base : Entity) (c : Clauses)
    (bindings : List Binding) : (s.check base c bindings).faults =
      (s.items base .select c.forced).faults ++ (s.indexItem base c.index).faults ++
        (s.items base .select c.fields).faults ++ (s.check base c bindings).relations.faults ++
        c.expressions.flatMap (fun expression => (s.template base expression).faults) ++
        (s.filter? base bindings c.filter).faults ++ (s.template? base c.group).faults ++
        (s.template? base (c.having.map Prod.fst)).faults ++ (s.template? base c.order).faults := by
  have expressions := Checked.faults_all (c.expressions.map (s.template base))
  rw [List.flatMap_map] at expressions
  rw [← expressions]
  rfl

namespace Query

variable {s : Settings} {q : Query}

/-! ## Faults of a build -/

def binding (s : Settings) : Param Query → Binding
  | .value v => .value v
  | .subquery sub => .statement ((sub.build s).1.map Compiled.statement)

theorem statementWith_eq (s : Settings) (q : Query) :
    q.statementWith s (q.bindings s) = (q.build s).1.map Compiled.statement := by
  cases memo : q.compiled with
  | some compiled => rw [statementWith, build, memo]; rfl
  | none =>
      rw [statementWith, build, memo, ← compile]
      cases q.compile s <;> rfl

theorem bindings_eq_map (s : Settings) (q : Query) : q.bindings s = q.params.map (binding s) := by
  rw [bindings_eq]
  induction q.params with
  | nil => rfl
  | cons param rest ih =>
      cases param with
      | value v => rw [bindingsOf, ih]; rfl
      | subquery sub => rw [bindingsOf, ih, statementWith_eq]; rfl

theorem sizeOf_subquery {sub : Query} (h : Param.subquery sub ∈ q.params) :
    sizeOf sub < sizeOf q := by
  have member := List.sizeOf_lt_of_mem h
  cases q
  simp only [Query.mk.sizeOf_spec]
  simp only [Param.subquery.sizeOf_spec] at member
  omega

theorem telling_bindings (h : ∀ sub, Param.subquery sub ∈ q.params → (sub.build s).1.Telling) :
    ∀ b ∈ q.bindings s, b.check.Telling := by
  intro b hb
  rw [bindings_eq_map] at hb
  obtain ⟨param, hp, rfl⟩ := List.mem_map.mp hb
  cases param with
  | value v => exact Checked.telling_ok _
  | subquery sub => exact ((h sub hp).map _).map _

theorem telling_compile_of_baseless (hb : q.base? s.schema = none) : (q.compile s).Telling := by
  unfold compile compileWith
  cases hs : q.clauses.source with
  | none => simp [Checked.Telling]
  | some source =>
      have unknown : s.schema.entity? source = none := by
        rw [base?, hs] at hb
        exact hb
      simp only [unknown]
      split
      · exact Checked.telling_error
      · next some => exact fun none => some (by simpa using Except.error.inj none)

theorem resolves_or_unresolved {base : Entity} (hb : q.base? s.schema = some base) :
    (q.faults = [] ∧ ∃ r, q.Resolves s base r) ∨
      q.compile s = .error (q.faults ++ (s.check base q.clauses (q.bindings s)).faults) := by
  by_cases resolved : q.faults = [] ∧ ∃ r, q.Resolves s base r
  · exact .inl resolved
  · refine .inr (compile_of_unresolved hb ?_)
    by_contra both
    push Not at both
    exact resolved ⟨both.1, both.2.imp fun r hr => ⟨hb, hr⟩⟩

theorem telling_build (s : Settings) (q : Query) : (q.build s).1.Telling := by
  cases memo : q.compiled with
  | some compiled =>
      rw [build, memo]
      exact Checked.telling_ok compiled
  | none =>
      rw [build_fst memo]
      refine Checked.Telling.map ?_ _
      cases hb : q.base? s.schema with
      | none => exact telling_compile_of_baseless hb
      | some base =>
          have bound : ∀ b ∈ q.bindings s, b.check.Telling :=
            telling_bindings fun sub hm => telling_build s sub
          rcases resolves_or_unresolved hb with ⟨faultless, r, resolves⟩ | fails
          · rw [compile_of_resolves resolves faultless]
            exact Checked.telling_ok _
          · intro none
            obtain ⟨faultless, checked⟩ :=
              List.append_eq_nil_iff.mp (Except.error.inj (fails.symm.trans none))
            obtain ⟨r, hr⟩ := (Settings.resolution_iff bound).mpr checked
            rw [compile_of_resolves ⟨hb, hr⟩ faultless] at fails
            cases fails
termination_by sizeOf q
decreasing_by exact sizeOf_subquery hm

/-- What stands against a build: the recorded faults, and then those of the clauses. -/
theorem faults_build {base : Entity} (hb : q.base? s.schema = some base)
    (fresh : q.compiled = none) : (q.build s).1.faults =
      q.faults ++ (s.check base q.clauses (q.bindings s)).faults := by
  rw [build_fst fresh]
  rcases resolves_or_unresolved hb with ⟨faultless, r, resolves⟩ | fails
  · rw [compile_of_resolves resolves faultless, faultless,
      Checks.faults_of_resolution resolves.resolution]
    rfl
  · rw [fails]
    rfl

/-! ## One clause at a time -/

def singles (s : Schema) (source : String) (q : Query) : List Query :=
  let bare := ({} : Query).setSource s source
  let c := q.clauses
  [bare.edit ({ · with forced := c.forced })] ++ c.index.toList.map bare.index ++
    [bare.edit ({ · with selects := c.selects, selectsWith := c.selectsWith }),
      bare.edit ({ · with relations := c.relations })] ++
    c.expressions.map bare.selectExpression ++
    c.filter.toList.map (fun expression => bare.filter expression q.params) ++
    c.group.toList.map bare.group ++
    c.having.toList.map (fun clause => bare.having clause.1 clause.2) ++
    c.order.toList.map bare.order

/-- The faults that each clause of a query has alone. -/
def clauseFaults (s : Settings) (source : String) (q : Query) : List Fault :=
  (q.singles s.schema source).flatMap fun single => (single.build s).1.faults

section

variable {base : Entity} {source : String}

theorem setSource_of_known (known : s.schema.entity? source = some base) :
    ({} : Query).setSource s.schema source =
      ({} : Query).edit ({ · with source := some source }) := by
  unfold setSource
  rw [known]
  rfl

theorem faults_single (known : s.schema.entity? source = some base) {single : Query}
    (hm : single ∈ q.singles s.schema source) :
    (single.build s).1.faults = (s.check base single.clauses (single.bindings s)).faults := by
  have kept : single.clauses.source = some source ∧ single.compiled = none ∧
      single.faults = [] := by
    rw [singles, setSource_of_known known] at hm
    simp only [List.mem_append, List.mem_cons, List.mem_map, List.not_mem_nil, or_false] at hm
    rcases hm with (((((((rfl | ⟨_, -, rfl⟩) | rfl | rfl) | ⟨_, -, rfl⟩) | ⟨_, -, rfl⟩) |
      ⟨_, -, rfl⟩) | ⟨_, -, rfl⟩) | ⟨_, -, rfl⟩) <;> exact ⟨rfl, rfl, rfl⟩
  obtain ⟨named, fresh, faultless⟩ := kept
  have hb : single.base? s.schema = some base := by rw [base?, named]; exact known
  rw [faults_build hb fresh, faultless, List.nil_append]

theorem clauseFaults_eq (known : s.schema.entity? source = some base) (q : Query) :
    q.clauseFaults s source = (s.check base q.clauses (q.bindings s)).faults := by
  have each : ∀ single ∈ q.singles s.schema source, (single.build s).1.faults =
      (s.check base single.clauses (single.bindings s)).faults := fun single => faults_single known
  let lists : Clauses :=
    { source := some source, selects := q.clauses.selects, selectsWith := q.clauses.selectsWith }
  have given : (s.items base .select lists.fields).faults =
      (s.items base .select q.clauses.fields).faults := Settings.faults_fields_congr s base rfl
  rw [clauseFaults, List.flatMap_congr each, singles, setSource_of_known known,
    Settings.faults_check, ← given]
  simp only [List.flatMap_append, List.flatMap_cons, List.flatMap_nil, List.flatMap_map,
    Settings.faults_check, edit, index, selectExpression, filter, group, having, order,
    Settings.faults_items_nil, Settings.faults_indexItem_none, Settings.faults_filter?_none,
    Settings.faults_template?_none, Settings.faults_relations_of_nil, Settings.faults_fields_of_nil,
    Clauses.listed, List.append_nil, List.nil_append, Option.map_none, Option.map_some]
  have bound (c : Clauses) : bindings s { clauses := c, params := q.params } = q.bindings s := by
    rw [bindings_eq, bindings_eq]
  have having := flatMap_toList
    (f := fun given => (s.template? base (given.map Prod.fst)).faults) rfl q.clauses.having
  simp only [Option.map_some] at having
  simp only [bound]
  rw [flatMap_toList (f := fun given => (s.indexItem base given).faults) rfl,
    flatMap_toList (f := fun given => (s.filter? base (q.bindings s) given).faults) rfl,
    flatMap_toList (f := fun given => (s.template? base given).faults) rfl,
    flatMap_toList (f := fun given => (s.template? base given).faults) rfl, having]
  simp only [List.append_assoc]
  rfl

/-- The faults of a query whose entity is known are those recorded with it and then those that each
of its clauses has alone; it builds if there are none. Only a compiled form that was kept hides what
was recorded after it, a source set again. -/
theorem faults_gathered (s : Settings) (q : Query) {source : String} {base : Entity}
    (named : q.clauses.source = some source) (known : s.schema.entity? source = some base) :
    (q.compiled = none →
      (q.build s).1.faults = q.faults ++ q.clauseFaults s source ∧
        ((∃ compiled, (q.build s).1 = .ok compiled) ↔
          q.faults = [] ∧ ∀ single ∈ q.singles s.schema source, (single.build s).1.faults = [])) ∧
      (q.Reached s → ∀ compiled, q.compiled = some compiled →
        (q.build s).1 = .ok compiled ∧ q.clauseFaults s source = [] ∧
          ∀ fault ∈ q.faults, fault = .sourceSetTwice) := by
  have hb : q.base? s.schema = some base := by rw [base?, named]; exact known
  constructor
  · intro fresh
    have gathered : (q.build s).1.faults = q.faults ++ q.clauseFaults s source := by
      rw [faults_build hb fresh, clauseFaults_eq known]
    refine ⟨gathered, ?_⟩
    rw [(telling_build s q).ok_iff, gathered, List.append_eq_nil_iff, clauseFaults,
      List.flatMap_eq_nil_iff]
  · intro reached compiled kept
    obtain ⟨found, r, resolves, -, -⟩ := reached.sound.memo kept
    obtain rfl : base = found := Option.some.inj (hb.symm.trans resolves.entity)
    refine ⟨by rw [build, kept], ?_, reached.orderly.blamed (by rw [kept]; rfl)⟩
    rw [clauseFaults_eq known, Checks.faults_of_resolution resolves.resolution]

end

end Query

namespace Sample

def muddled : Query :=
  (((((({} : Query).setSource schema "Order").setSource schema "Order").select
    "id, nme").selectExpression "\x7bsum\x7d + 1").filter "\x7btotal\x7d = ?"
    [.value (.ofInt64 1), .value (.ofInt64 2)]).group "\x7bcustomer\x7d"

end Sample

theorem Query.faults_gathered_muddled :
    (Sample.muddled.build Sample.settings).1.faults =
        .sourceSetTwice :: Sample.muddled.clauseFaults Sample.settings "Order" ∧
      Sample.muddled.clauseFaults Sample.settings "Order" =
        [.unresolvedField "nme" "Order", .unresolvedField "sum" "Order",
          .tooManyValues "\x7btotal\x7d = ?" 1 2, .relationAsField "customer"] ∧
      ¬ ∃ compiled, (Sample.muddled.build Sample.settings).1 = .ok compiled := by
  have named : Sample.muddled.clauses.source = some "Order" := rfl
  have gathered := (Query.faults_gathered Sample.settings Sample.muddled named rfl).1 rfl
  exact ⟨gathered.1, by decide, fun built => nomatch (gathered.2.mp built).1⟩

theorem Query.Reached.recorded_fault_hidden : ∃ base compiled,
    Sample.resourced.Reached Sample.settings ∧ Sample.resourced.base? Sample.schema = some base ∧
      Sample.resourced.faults = [.sourceSetTwice] ∧
      (Sample.resourced.build Sample.settings).1 = .ok compiled :=
  ⟨_, _, Sample.resourced_reached, rfl, rfl, rfl⟩

end RowGraph
