import RowGraph.Proofs.Levels

/-!
# Compiling again

A compiled query has handed its fields on to its children, so that handing them on again changes
nothing (`Query.Forwarded.forward_eq`), and a subquery that has been built where it stands counts
as it did before (`Query.WarmedParams.bindings`). Hence what a build leaves behind builds to the
same compiled form and stays as it is, and a build that fails leaves everything as it was, to fail
with the same faults again (`Query.build_again`).
-/

namespace RowGraph
namespace Query

/-! ## Fields that were forwarded -/

def Lists (field : String) (q : Query) : Prop :=
  field ∈ q.clauses.selects ∨ Text.trim field = ""

theorem Lists.congr {field : String} {q next : Query} (h : q.Lists field)
    (clauses : next.clauses = q.clauses) : next.Lists field := by
  rw [Lists, clauses]
  exact h

theorem Lists.addField_eq {field : String} {q : Query} (h : q.Lists field) :
    q.addField field = q := by
  unfold addField
  split
  · rfl
  · next fresh =>
    rw [select, if_pos]
    simp [h.resolve_left fresh]

theorem Lists.addField {field : String} {q : Query} (h : q.Lists field) (other : String) :
    (q.addField other).Lists field :=
  h.imp_left selects_addField

theorem lists_addField (field : String) (q : Query) : (q.addField field).Lists field := by
  by_cases blank : Text.trim field = ""
  · exact .inr blank
  · exact .inl (mem_selects_addField blank q)

def ListsAt (mount : Mount) (field : String) (q : Query) : Prop :=
  ∀ child, q.children.lookup mount = some child → child.Lists field

structure Forwarded (r : Resolution) (q : Query) : Prop where
  plain : ∀ hop ∈ r.hops false, ∃ child, q.children.lookup hop.mount = some child ∧
    child.Lists hop.field
  excluded : ∀ hop ∈ r.hops true, q.ListsAt hop.mount ("!" ++ hop.field)

theorem listsAt_modifyChild (mount : Mount) (field : String) (q : Query) :
    (q.modifyChild mount (addField field)).ListsAt mount field := by
  intro child found
  rw [modifyChild, Keyed.lookup_modify, if_pos rfl] at found
  obtain ⟨held, -, rfl⟩ := Option.map_eq_some_iff.mp found
  exact lists_addField field held

theorem ListsAt.modifyChild {mount : Mount} {field : String} {q : Query}
    (h : q.ListsAt mount field) (other : Mount) (added : String) :
    (q.modifyChild other (addField added)).ListsAt mount field := by
  intro child found
  rw [Query.modifyChild, Keyed.lookup_modify] at found
  split at found
  · next same =>
    subst same
    obtain ⟨held, hl, rfl⟩ := Option.map_eq_some_iff.mp found
    exact (h held hl).addField added
  · exact h child found

theorem forwarded_forward (s : Schema) (r : Resolution) (q : Query) :
    (q.forward s r).Forwarded r := by
  constructor
  · intro hop hm
    by_cases blank : Text.trim hop.field = ""
    · have there := Keyed.lookup_isSome_iff_mem.mpr (mem_mounts_forward s hm q)
      obtain ⟨child, found⟩ := Option.isSome_iff_exists.mp there
      exact ⟨child, found, .inr blank⟩
    · obtain ⟨child, found, member⟩ := hasField_forward s hm blank q
      exact ⟨child, found, .inl member⟩
  · intro hop hm
    -- the hops behind do not take back what this one forwards
    obtain ⟨front, back, hops⟩ := List.append_of_mem hm
    have later : ∀ (rest : List Hop) (middle : Query),
        middle.ListsAt hop.mount ("!" ++ hop.field) →
          (rest.foldl forwardExcluded middle).ListsAt hop.mount ("!" ++ hop.field) := by
      intro rest
      induction rest with
      | nil => exact fun _ h => h
      | cons other rest ih => exact fun middle h => ih _ (h.modifyChild other.mount _)
    rw [forward, hops, List.foldl_append, List.foldl_cons]
    exact later back _ (listsAt_modifyChild hop.mount _ _)

theorem openChild_eq_self (s : Schema) {q child : Query} (fresh : q.compiled = none) {mount : Mount}
    (found : q.children.lookup mount = some child) (target foreignKey : String) :
    q.openChild s mount target foreignKey = q := by
  have held : Keyed.putNew mount (newChild s target foreignKey) q.children = q.children := by
    rw [Keyed.putNew, found, Option.isSome_some, if_pos rfl]
  rw [openChild, held, ← fresh]
  cases q
  rfl

theorem modifyChild_eq_self {q : Query} {mount : Mount} {f : Query → Query}
    (h : ∀ child, q.children.lookup mount = some child → f child = child) :
    q.modifyChild mount f = q := by
  cases found : q.children.lookup mount with
  | none =>
      rw [modifyChild, Keyed.modify_of_lookup_none f found]
      cases q
      rfl
  | some child => rw [modifyChild_of_lookup found, h child found, modifyChild_self found]

theorem Forwarded.forward_eq {r : Resolution} {q : Query} (h : q.Forwarded r)
    (fresh : q.compiled = none) (s : Schema) : q.forward s r = q := by
  have fixed : ∀ {f : Query → Hop → Query} (hops : List Hop), (∀ hop ∈ hops, f q hop = q) →
      hops.foldl f q = q := by
    intro f hops
    induction hops with
    | nil => exact fun _ => rfl
    | cons hop rest ih =>
        intro all
        rw [List.forall_mem_cons] at all
        rw [List.foldl_cons, all.1, ih all.2]
  have plain : ∀ hop ∈ r.hops false, forwardPlain s q hop = q := by
    intro hop hm
    obtain ⟨child, found, lists⟩ := h.plain hop hm
    rw [forwardPlain, openChild_eq_self s fresh found]
    refine modifyChild_eq_self fun other ho => ?_
    obtain rfl := Option.some.inj (found.symm.trans ho)
    exact lists.addField_eq
  have excluded : ∀ hop ∈ r.hops true, forwardExcluded q hop = q := fun hop hm =>
    modifyChild_eq_self fun child found => (h.excluded hop hm child found).addField_eq
  rw [forward, fixed _ plain, fixed _ excluded]

structure Paired (R : Query → Query → Prop) (a b : List (Mount × Query)) : Prop where
  mounts : b.map Prod.fst = a.map Prod.fst
  below : ∀ mount child other, a.lookup mount = some child → b.lookup mount = some other →
    R child other

namespace Paired

variable {R S : Query → Query → Prop} {a b : List (Mount × Query)} {mount : Mount}

theorem imp (h : Paired R a b) (hs : ∀ child other, R child other → S child other) :
    Paired S a b :=
  ⟨h.mounts, fun _ _ _ hc ho => hs _ _ (h.below _ _ _ hc ho)⟩

theorem isSome_lookup (h : Paired R a b) (mount : Mount) :
    (b.lookup mount).isSome = (a.lookup mount).isSome := by
  rw [Bool.eq_iff_iff, Keyed.lookup_isSome_iff_mem, Keyed.lookup_isSome_iff_mem, h.mounts]

theorem lookup_none (h : Paired R a b) (absent : a.lookup mount = none) :
    b.lookup mount = none := by
  rw [← Option.not_isSome_iff_eq_none, h.isSome_lookup, absent]
  exact Bool.false_ne_true

theorem exists_right (h : Paired R a b) {child : Query} (found : a.lookup mount = some child) :
    ∃ other, b.lookup mount = some other ∧ R child other := by
  obtain ⟨other, ho⟩ := Option.isSome_iff_exists.mp
    ((h.isSome_lookup mount).trans (Option.isSome_iff_exists.mpr ⟨child, found⟩))
  exact ⟨other, ho, h.below _ _ _ found ho⟩

theorem exists_left (h : Paired R a b) {other : Query} (found : b.lookup mount = some other) :
    ∃ child, a.lookup mount = some child ∧ R child other := by
  obtain ⟨child, hc⟩ := Option.isSome_iff_exists.mp
    ((h.isSome_lookup mount).symm.trans (Option.isSome_iff_exists.mpr ⟨other, found⟩))
  exact ⟨child, hc, h.below _ _ _ hc found⟩

theorem trans {T : Query → Query → Prop} {c : List (Mount × Query)} (h : Paired R a b)
    (hs : Paired S b c) (ht : ∀ child middle other, R child middle → S middle other →
      T child other) : Paired T a c := by
  refine ⟨hs.mounts.trans h.mounts, fun key child other hc ho => ?_⟩
  obtain ⟨middle, hm, related⟩ := hs.exists_left ho
  exact ht child middle other (h.below key child middle hc hm) related

end Paired

theorem Forwarded.congr {r : Resolution} {q next : Query} (h : q.Forwarded r)
    (children : Paired (fun child other => other.clauses = child.clauses) q.children
      next.children) : next.Forwarded r := by
  constructor
  · intro hop hm
    obtain ⟨child, found, lists⟩ := h.plain hop hm
    obtain ⟨other, ho, clauses⟩ := children.exists_right found
    exact ⟨other, ho, lists.congr clauses⟩
  · intro hop hm other ho
    obtain ⟨child, found, clauses⟩ := children.exists_left ho
    exact (h.excluded hop hm child found).congr clauses

theorem build_of_resolves {s : Settings} {q : Query} {base : Entity} {r : Resolution}
    (fresh : q.compiled = none) (resolves : q.Resolves s base r) (faultless : q.faults = []) :
    q.build s = (.ok ((q.forward s.schema r).assemble s base r),
      { q.forward s.schema r with
        compiled := some ((q.forward s.schema r).assemble s base r) }) := by
  have frames := frames_forward s.schema r q
  rw [build_of_compile fresh (compile_of_resolves resolves faultless)]
  simp only [assemble, frames.clauses, frames.link]

theorem Forwarded.compile_eq {s : Settings} {q : Query} {base : Entity} {r : Resolution}
    (h : q.Forwarded r) (resolves : q.Resolves s base r) (faultless : q.faults = [])
    (fresh : q.compiled = none) : q.compile s = .ok (q.assemble s base r, q) := by
  rw [compile_of_resolves resolves faultless, h.forward_eq fresh]
  rfl

/-! ## Queries that compile alike -/

/-- Two queries with the same clauses, subqueries that build to the same, and the same place under
an owner. -/
structure Agrees (s : Settings) (q next : Query) : Prop where
  clauses : next.clauses = q.clauses
  bindings : next.bindings s = q.bindings s
  faults : next.faults = q.faults
  link : next.link.map (·.foreignKey) = q.link.map (·.foreignKey)

namespace Agrees

variable {s : Settings} {q middle next : Query}

theorem refl (s : Settings) (q : Query) : Agrees s q q := ⟨rfl, rfl, rfl, rfl⟩

theorem trans (h : Agrees s q middle) (hn : Agrees s middle next) : Agrees s q next :=
  ⟨hn.clauses.trans h.clauses, hn.bindings.trans h.bindings, hn.faults.trans h.faults,
    hn.link.trans h.link⟩

theorem resolves (h : Agrees s q next) {base : Entity} {r : Resolution}
    (hr : q.Resolves s base r) : next.Resolves s base r := by
  refine ⟨?_, ?_⟩
  · rw [base?, h.clauses]
    exact hr.entity
  · rw [h.clauses, h.bindings]
    exact hr.resolution

theorem compile_error (h : Agrees s q next) {faults : List Fault}
    (hc : q.compile s = .error faults) : next.compile s = .error faults := by
  unfold compile compileWith at hc ⊢
  rw [h.clauses, h.bindings, h.faults]
  split at hc
  · exact hc
  · split at hc
    · exact hc
    · dsimp only at hc ⊢
      split at hc
      · cases hc
      · exact hc

theorem of_params (clauses : next.clauses = q.clauses) (params : next.params = q.params)
    (faults : next.faults = q.faults)
    (link : next.link.map (·.foreignKey) = q.link.map (·.foreignKey)) : Agrees s q next := by
  refine ⟨clauses, ?_, faults, link⟩
  rw [bindings_eq, bindings_eq, params]

theorem with_rest (h : Agrees s q next) (children : List (Mount × Query))
    (compiled : Option Compiled) : Agrees s q { next with children, compiled } :=
  h.trans (.of_params rfl rfl rfl rfl)

end Agrees

theorem agrees_forward (s : Settings) (r : Resolution) (q : Query) :
    Agrees s q (q.forward s.schema r) := by
  have frames := frames_forward s.schema r q
  exact .of_params frames.clauses frames.params (faults_forward s.schema q r) (by rw [frames.link])

theorem agrees_build (s : Settings) (q : Query) : Agrees s q (q.build s).2 := by
  unfold build
  split
  · exact .refl s q
  · split
    · next compiled built hc =>
      obtain ⟨base, r, -, -, rfl, -⟩ := compileWith_ok hc
      exact (agrees_forward s r q).with_rest _ _
    · exact .refl s q

theorem resolves_or_error (s : Settings) (q : Query) :
    (∃ base r, q.Resolves s base r ∧ q.faults = []) ∨ ∃ faults, q.compile s = .error faults := by
  cases hc : q.compile s with
  | error faults => exact .inr ⟨faults, rfl⟩
  | ok built =>
      obtain ⟨compiled, next⟩ := built
      obtain ⟨base, r, entity, resolution, -, -⟩ := compileWith_ok hc
      exact .inl ⟨base, r, ⟨entity, resolution⟩, faultless_of_compile hc⟩

/-! ## Subqueries built where they stand -/

mutual

/-- A query some of whose subqueries, or of the subqueries of its children, have been built where
they stand. -/
inductive Warmed (s : Settings) : Query → Query → Prop where
  | intro {q : Query} {params : List (Param Query)} {children : List (Mount × Query)}
      (subqueries : WarmedParams s q.params params)
      (below : WarmedChildren s q.children children) : Warmed s q { q with params, children }

inductive WarmedParams (s : Settings) : List (Param Query) → List (Param Query) → Prop where
  | nil : WarmedParams s [] []
  | same {params others : List (Param Query)} (param : Param Query)
      (rest : WarmedParams s params others) : WarmedParams s (param :: params) (param :: others)
  | built {sub warmed : Query} {params others : List (Param Query)} (inner : Warmed s sub warmed)
      (rest : WarmedParams s params others) :
      WarmedParams s (.subquery sub :: params) (.subquery (warmed.build s).2 :: others)

inductive WarmedChildren (s : Settings) : List (Mount × Query) → List (Mount × Query) → Prop where
  | nil : WarmedChildren s [] []
  | same {children others : List (Mount × Query)} (entry : Mount × Query)
      (rest : WarmedChildren s children others) :
      WarmedChildren s (entry :: children) (entry :: others)
  | warmed {mount : Mount} {child next : Query} {children others : List (Mount × Query)}
      (first : Warmed s child next) (rest : WarmedChildren s children others) :
      WarmedChildren s ((mount, child) :: children) ((mount, next) :: others)

end

section warmed

variable {s : Settings} {q next : Query}

theorem WarmedParams.refl (s : Settings) (params : List (Param Query)) :
    WarmedParams s params params := by
  induction params with
  | nil => exact .nil
  | cons param rest ih => exact .same param ih

theorem WarmedChildren.refl (s : Settings) (children : List (Mount × Query)) :
    WarmedChildren s children children := by
  induction children with
  | nil => exact .nil
  | cons entry rest ih => exact .same entry ih

theorem Warmed.refl (s : Settings) (q : Query) : Warmed s q q := by
  cases q
  exact .intro (.refl s _) (.refl s _)

theorem statementWith_congr (clauses : next.clauses = q.clauses) (faults : next.faults = q.faults)
    (link : next.link = q.link) (compiled : next.compiled = q.compiled) (bindings : List Binding) :
    next.statementWith s bindings = q.statementWith s bindings := by
  unfold statementWith compileWith
  rw [compiled, clauses, faults, link]
  split
  · rfl
  · split
    · rfl
    · split
      · rfl
      · dsimp only
        split <;> rfl

theorem statementWith_build (s : Settings) (q : Query) :
    (q.build s).2.statementWith s ((q.build s).2.bindings s) =
      q.statementWith s (q.bindings s) := by
  cases hc : q.compiled with
  | some compiled =>
      have kept : (q.build s).2 = q := by
        rw [build, hc]
      rw [kept]
  | none =>
      cases hb : q.compile s with
      | error faults => rw [build_of_error hc hb]
      | ok built =>
          obtain ⟨compiled, next⟩ := built
          rw [build_of_compile hc hb, statementWith, statementWith, hc]
          simp only
          rw [← compile, hb]
          rfl

mutual

theorem Warmed.bindings {s : Settings} : ∀ {q next : Query}, Warmed s q next →
    next.bindings s = q.bindings s
  | q, _, .intro subqueries _ => by
      rw [bindings_eq, bindings_eq]
      exact subqueries.bindings

theorem WarmedParams.bindings {s : Settings} : ∀ {params others : List (Param Query)},
    WarmedParams s params others → bindingsOf s others = bindingsOf s params
  | _, _, .nil => rfl
  | _, _, .same (.value v) rest => by rw [bindingsOf, bindingsOf, rest.bindings]
  | _, _, .same (.subquery sub) rest => by rw [bindingsOf, bindingsOf, rest.bindings]
  | _, _, @WarmedParams.built _ sub warmed _ _ inner rest => by
      have same : warmed.statementWith s (sub.bindings s) =
          sub.statementWith s (sub.bindings s) := by
        cases inner with
        | intro => refine statementWith_congr ?_ ?_ ?_ ?_ _ <;> rfl
      rw [bindingsOf, bindingsOf, rest.bindings, statementWith_build, inner.bindings, same]

end

theorem Warmed.agrees (h : Warmed s q next) : Agrees s q next := by
  have bindings := h.bindings
  cases h with
  | intro => exact ⟨rfl, bindings, rfl, rfl⟩

theorem Warmed.compiled (h : Warmed s q next) : next.compiled = q.compiled := by
  cases h
  rfl

theorem Warmed.listeners (h : Warmed s q next) : next.listeners = q.listeners := by
  cases h
  rfl

theorem WarmedChildren.mounts : ∀ {children others : List (Mount × Query)},
    WarmedChildren s children others → others.map Prod.fst = children.map Prod.fst
  | _, _, .nil => rfl
  | _, _, .same _ rest => by rw [List.map_cons, List.map_cons, rest.mounts]
  | _, _, .warmed _ rest => by rw [List.map_cons, List.map_cons, rest.mounts]

theorem WarmedChildren.lookup : ∀ {children others : List (Mount × Query)},
    WarmedChildren s children others → ∀ {mount : Mount} {child other : Query},
      children.lookup mount = some child → others.lookup mount = some other → Warmed s child other
  | _, _, .nil, _, _, _, hc, _ => by cases hc
  | _, _, .same (key, child) rest, mount, _, _, hc, ho => by
      rw [List.lookup_cons] at hc ho
      by_cases here : mount == key
      · rw [here] at hc ho
        cases hc
        cases ho
        exact .refl s child
      · rw [Bool.eq_false_iff.mpr here] at hc ho
        exact rest.lookup hc ho
  | (key, _) :: _, _ :: _, .warmed first rest, mount, _, _, hc, ho => by
      rw [List.lookup_cons] at hc ho
      by_cases here : mount == key
      · rw [here] at hc ho
        cases hc
        cases ho
        exact first
      · rw [Bool.eq_false_iff.mpr here] at hc ho
        exact rest.lookup hc ho

theorem Warmed.children (h : Warmed s q next) :
    Paired (Warmed s) q.children next.children := by
  cases h with
  | intro _ below => exact ⟨below.mounts, fun _ _ _ hc ho => below.lookup hc ho⟩

theorem Warmed.forwarded {r : Resolution} (h : Warmed s q next) (forwarded : q.Forwarded r) :
    next.Forwarded r :=
  forwarded.congr (h.children.imp fun _ _ warmed => warmed.agrees.clauses)

end warmed

/-! ## Compiling again -/

theorem Warmed.build_eq {s : Settings} {q kept : Query} {base : Entity} {r : Resolution}
    (h : Warmed s q kept) (forwarded : q.Forwarded r) (resolves : q.Resolves s base r)
    (faultless : q.faults = []) :
    { kept with compiled := none }.build s = (.ok (q.assemble s base r),
      { kept with compiled := some (q.assemble s base r) }) := by
  have agrees : Agrees s q { kept with compiled := none } := h.agrees.with_rest kept.children none
  have again : ({ kept with compiled := none } : Query).Forwarded r := by
    obtain ⟨plain, excluded⟩ := h.forwarded forwarded
    exact ⟨plain, excluded⟩
  have same : ({ kept with compiled := none } : Query).assemble s base r = q.assemble s base r := by
    have mounts := h.children.mounts
    cases h
    simp only [assemble, mounts]
  rw [build_of_compile rfl (again.compile_eq (agrees.resolves resolves)
    (agrees.faults.trans faultless) rfl), same]

/-- What a build leaves behind, whichever of its subqueries have been built meanwhile, builds to
the same compiled form and stays as it is, even if its own is dropped. A build that fails changes
nothing, and fails again with the same faults. -/
theorem build_again (s : Settings) (q : Query) (fresh : q.compiled = none) :
    (∀ compiled next, q.build s = (.ok compiled, next) → ∀ kept, Warmed s next kept →
      kept.build s = (.ok compiled, kept) ∧
        { kept with compiled := none }.build s = (.ok compiled, kept)) ∧
    ∀ faults next, q.build s = (.error faults, next) → next = q ∧
      ∀ kept, Warmed s q kept → kept.build s = (.error faults, kept) := by
  rcases resolves_or_error s q with ⟨base, r, resolves, faultless⟩ | ⟨faults, hc⟩
  · rw [build_of_resolves fresh resolves faultless]
    constructor
    · intro compiled next built kept warmed
      cases built
      have held := warmed.compiled
      have agrees := (agrees_forward s r q).with_rest (q.forward s.schema r).children
        (some ((q.forward s.schema r).assemble s base r))
      obtain ⟨plain, excluded⟩ := forwarded_forward s.schema r q
      have dropped := warmed.build_eq ⟨plain, excluded⟩ (agrees.resolves resolves)
        (agrees.faults.trans faultless)
      constructor
      · rw [build, held]
      · cases kept
        cases held
        exact dropped
    · intro faults next built
      cases built
  · rw [build_of_error fresh hc]
    constructor
    · intro compiled next built
      cases built
    · intro faults next built
      cases built
      refine ⟨rfl, fun kept warmed => build_of_error (warmed.compiled.trans fresh) ?_⟩
      exact warmed.agrees.compile_error hc

end Query

namespace Sample

def patrons : Query :=
  ((({} : Query).setSource schema "Customer").select "name, orders.total, !orders.id").filter
    "\x7bid\x7d IN ?" [.subquery customers]

theorem warmed {q : Query} (params : q.params = [.subquery customers]) :
    q.Warmed settings { q with params := [.subquery (customers.build settings).2] } := by
  refine .intro ?_ (.refl _ _)
  rw [params]
  exact .built (.refl _ _) .nil

end Sample

theorem Query.build_again_patrons : Sample.patrons.compiled = none ∧
    (∃ compiled next kept, Sample.patrons.build Sample.settings = (.ok compiled, next) ∧
      kept = { next with params := [.subquery (Sample.customers.build Sample.settings).2] } ∧
      kept.build Sample.settings = (.ok compiled, kept) ∧
      { kept with compiled := none }.build Sample.settings = (.ok compiled, kept)) ∧
    ∃ kept, kept = { Sample.patrons.select "nme" with
        params := [.subquery (Sample.customers.build Sample.settings).2] } ∧
      kept.build Sample.settings = (.error [.unresolvedField "nme" "Customer"], kept) := by
  refine ⟨rfl, ?_, ?_⟩
  · obtain ⟨again, -⟩ := build_again Sample.settings Sample.patrons rfl
    obtain ⟨compiled, next, built, params⟩ : ∃ compiled next,
        Sample.patrons.build Sample.settings = (.ok compiled, next) ∧
          next.params = [.subquery Sample.customers] := ⟨_, _, rfl, rfl⟩
    exact ⟨compiled, next, _, built, rfl, again compiled next built _ (Sample.warmed params)⟩
  · obtain ⟨-, again⟩ := build_again Sample.settings (Sample.patrons.select "nme") rfl
    have fails : (Sample.patrons.select "nme").build Sample.settings =
        (.error [.unresolvedField "nme" "Customer"], Sample.patrons.select "nme") := rfl
    exact ⟨_, rfl, (again _ _ fails).2 _ (Sample.warmed rfl)⟩

end RowGraph
