import RowGraph.Proofs.Schema
import RowGraph.Query.Compile

/-!
# Compiled forms

What the compiled form of a query is (`Query.Compiles`): the statement and the plan of its
resolved clauses, over the mounts of its children. Compiling forwards fields to children, keeps
everything else, and gives the compiled form of the query that comes of it (`compile_ok`).
-/

namespace RowGraph

namespace Query

/-! ## Compiled forms -/

def base? (s : Schema) (q : Query) : Option Entity := q.clauses.source.bind s.entity?

theorem mem_of_base? {s : Schema} {q : Query} {base : Entity} (h : q.base? s = some base) :
    base ∈ s.entities :=
  let ⟨_, _, found⟩ := Option.bind_eq_some_iff.mp h
  Schema.mem_of_entity? found

structure Resolves (s : Settings) (q : Query) (base : Entity) (r : Resolution) : Prop where
  entity : q.base? s.schema = some base
  resolution : (s.check base q.clauses (q.bindings s)).resolution = .ok r

def resolution? (s : Settings) (q : Query) : Option (Entity × Resolution) :=
  (q.base? s.schema).bind fun base =>
    match (s.check base q.clauses (q.bindings s)).resolution with
    | .ok r => some (base, r)
    | .error _ => none

theorem resolution?_eq_some_iff {s : Settings} {q : Query} {base : Entity} {r : Resolution} :
    q.resolution? s = some (base, r) ↔ q.Resolves s base r := by
  unfold resolution?
  rw [Option.bind_eq_some_iff]
  constructor
  · rintro ⟨found, hbase, h⟩
    split at h
    · next hr =>
      cases h
      exact ⟨hbase, hr⟩
    · cases h
  · rintro ⟨hbase, hr⟩
    exact ⟨base, hbase, by rw [hr]⟩

def assemble (s : Settings) (q : Query) (base : Entity) (r : Resolution) : Compiled :=
  { style := s.style
    select := r.statement s base (r.scopes base) q.clauses q.link
    counted := q.clauses.counted
    plan := r.plan s (r.scopes base) q.clauses.index (q.children.map Prod.fst) }

def Compiles (s : Settings) (q : Query) (compiled : Compiled) : Prop :=
  ∃ base r, q.Resolves s base r ∧ (∀ hop ∈ r.hops false, hop.mount ∈ q.children.map Prod.fst) ∧
    compiled = q.assemble s base r

theorem bindings_eq (s : Settings) (q : Query) : q.bindings s = bindingsOf s q.params := by
  cases q
  rfl

theorem Compiles.congr {s : Settings} {q next : Query} {compiled : Compiled}
    (h : q.Compiles s compiled) (clauses : next.clauses = q.clauses)
    (params : next.params = q.params) (link : next.link = q.link)
    (mounts : next.children.map Prod.fst = q.children.map Prod.fst) :
    next.Compiles s compiled := by
  obtain ⟨base, r, ⟨hb, hr⟩, hops, rfl⟩ := h
  refine ⟨base, r, ⟨by rw [base?, clauses]; exact hb, ?_⟩, by rw [mounts]; exact hops, ?_⟩
  · rw [clauses, bindings_eq, params, ← bindings_eq]
    exact hr
  · simp only [assemble, clauses, link, mounts]

theorem compileWith_ok {s : Settings} {q next : Query} {bindings : List Binding}
    {compiled : Compiled} (h : q.compileWith s bindings = .ok (compiled, next)) :
    ∃ base r, q.base? s.schema = some base ∧
      (s.check base q.clauses bindings).resolution = .ok r ∧
      next = q.forward s.schema r ∧
      compiled = { q with children := next.children }.assemble s base r := by
  unfold compileWith at h
  split at h
  · cases h
  · next source hsource =>
    split at h
    · cases h
    · next base hbase =>
      dsimp only at h
      split at h
      · next r _ hr =>
        simp only [Except.ok.injEq, Prod.mk.injEq] at h
        obtain ⟨rfl, rfl⟩ := h
        exact ⟨base, r, by simp [base?, hsource, hbase], hr, rfl, rfl⟩
      · cases h

/-! ## Forwarding -/

/-- What a query keeps when its children change. -/
structure Frames (q next : Query) : Prop where
  clauses : next.clauses = q.clauses
  params : next.params = q.params
  link : next.link = q.link
  listeners : next.listeners = q.listeners
  mounts : q.children.map Prod.fst ⊆ next.children.map Prod.fst

theorem Frames.refl (q : Query) : q.Frames q := ⟨rfl, rfl, rfl, rfl, fun _ h => h⟩

theorem Frames.trans {q middle next : Query} (h : q.Frames middle) (hn : middle.Frames next) :
    q.Frames next :=
  ⟨hn.clauses.trans h.clauses, hn.params.trans h.params, hn.link.trans h.link,
    hn.listeners.trans h.listeners, fun _ hm => hn.mounts (h.mounts hm)⟩

theorem frames_modifyChild (mount : Mount) (change : Query → Query) (q : Query) :
    q.Frames (q.modifyChild mount change) := by
  refine ⟨rfl, rfl, rfl, rfl, ?_⟩
  rw [modifyChild, Keyed.keys_modify]
  exact fun _ h => h

theorem mounts_openChild (s : Schema) (mount : Mount) (target foreignKey : String) (q : Query) :
    (q.openChild s mount target foreignKey).children.map Prod.fst =
      if mount ∈ q.children.map Prod.fst then q.children.map Prod.fst
      else q.children.map Prod.fst ++ [mount] := by
  rw [openChild, Keyed.keys_putNew]

theorem mem_mounts_openChild (s : Schema) (mount : Mount) (target foreignKey : String) (q : Query) :
    mount ∈ (q.openChild s mount target foreignKey).children.map Prod.fst := by
  rw [mounts_openChild]
  split
  · assumption
  · simp

theorem frames_openChild (s : Schema) (mount : Mount) (target foreignKey : String) (q : Query) :
    q.Frames (q.openChild s mount target foreignKey) := by
  refine ⟨rfl, rfl, rfl, rfl, ?_⟩
  rw [mounts_openChild]
  intro other h
  split
  · exact h
  · exact List.mem_append_left _ h

theorem frames_forwardPlain (s : Schema) (q : Query) (hop : Hop) : q.Frames (q.forwardPlain s hop) :=
  (frames_openChild s ..).trans (frames_modifyChild ..)

theorem frames_foldl {α : Type} {f : Query → α → Query} (hf : ∀ (q : Query) (a : α), q.Frames (f q a))
    (items : List α) (q : Query) : q.Frames (items.foldl f q) := by
  induction items generalizing q with
  | nil => exact .refl q
  | cons item rest ih => exact (hf q item).trans (ih _)

theorem mem_mounts_foldl_forwardPlain (s : Schema) {hops : List Hop} {hop : Hop} (h : hop ∈ hops) (q : Query) :
    hop.mount ∈ (hops.foldl (forwardPlain s) q).children.map Prod.fst := by
  induction hops generalizing q with
  | nil => cases h
  | cons first rest ih =>
      rcases List.mem_cons.mp h with rfl | hr
      · refine (frames_foldl (frames_forwardPlain s) rest _).mounts ?_
        exact (frames_modifyChild ..).mounts (mem_mounts_openChild s ..)
      · exact ih hr _

theorem frames_forwardExcluded (q : Query) (hop : Hop) : q.Frames (q.forwardExcluded hop) :=
  frames_modifyChild ..

theorem frames_forward (s : Schema) (r : Resolution) (q : Query) : q.Frames (q.forward s r) :=
  (frames_foldl (frames_forwardPlain s) _ _).trans (frames_foldl frames_forwardExcluded _ _)

theorem mem_mounts_forward (s : Schema) {r : Resolution} {hop : Hop} (h : hop ∈ r.hops false) (q : Query) :
    hop.mount ∈ (q.forward s r).children.map Prod.fst :=
  (frames_foldl frames_forwardExcluded _ _).mounts (mem_mounts_foldl_forwardPlain s h q)

theorem compile_of_resolves {s : Settings} {q : Query} {base : Entity} {r : Resolution}
    (h : q.Resolves s base r) (faultless : q.faults = []) :
    q.compile s = .ok ({ q with children := (q.forward s.schema r).children }.assemble s base r,
      q.forward s.schema r) := by
  obtain ⟨source, hsource, hentity⟩ := Option.bind_eq_some_iff.mp h.entity
  simp only [compile, compileWith, hsource, hentity, faultless, h.resolution]
  rfl

theorem compile_of_unresolved {s : Settings} {q : Query} {base : Entity}
    (hb : q.base? s.schema = some base)
    (h : q.faults ≠ [] ∨ ∀ r, (s.check base q.clauses (q.bindings s)).resolution ≠ .ok r) :
    q.compile s = .error (q.faults ++ (s.check base q.clauses (q.bindings s)).faults) := by
  obtain ⟨source, hsource, hentity⟩ := Option.bind_eq_some_iff.mp hb
  simp only [compile, compileWith, hsource, hentity]
  split
  · next r faultless resolved =>
    rcases h with hf | hr
    · exact absurd faultless hf
    · exact absurd resolved (hr r)
  · rfl

theorem compile_ok {s : Settings} {q next : Query} {compiled : Compiled}
    (h : q.compile s = .ok (compiled, next)) :
    q.Frames next ∧ next.Compiles s compiled := by
  obtain ⟨base, r, hb, hr, rfl, hc⟩ := compileWith_ok h
  have frames := frames_forward s.schema r q
  refine ⟨frames, base, r, ⟨?_, ?_⟩, fun hop hm => mem_mounts_forward s.schema hm q, ?_⟩
  · rw [base?, frames.clauses]
    exact hb
  · rw [frames.clauses, bindings_eq, frames.params, ← bindings_eq]
    exact hr
  · rw [hc]
    simp only [assemble, frames.clauses, frames.link]

theorem build_of_compile {s : Settings} {q next : Query} {compiled : Compiled}
    (fresh : q.compiled = none) (h : q.compile s = .ok (compiled, next)) :
    q.build s = (.ok compiled, { next with compiled := some compiled }) := by
  rw [build, fresh]
  simp only [h]

theorem build_fst {s : Settings} {q : Query} (fresh : q.compiled = none) :
    (q.build s).1 = (q.compile s).map Prod.fst := by
  rw [build, fresh]
  dsimp only
  cases q.compile s <;> rfl

theorem build_of_error {s : Settings} {q : Query} {faults : List Fault} (fresh : q.compiled = none)
    (h : q.compile s = .error faults) : q.build s = (.error faults, q) := by
  rw [build, fresh]
  simp only [h]

theorem resolves_of_build {s : Settings} {q next : Query} {compiled : Compiled}
    (fresh : q.compiled = none) (h : q.build s = (.ok compiled, next)) :
    ∃ base r, q.Resolves s base r ∧
      next = { q.forward s.schema r with compiled := some compiled } := by
  cases hc : q.compile s with
  | error faults =>
      simp only [build, fresh, hc] at h
      cases h
  | ok built =>
      obtain ⟨found, middle⟩ := built
      rw [build_of_compile fresh hc] at h
      obtain ⟨base, r, hbase, hr, rfl, -⟩ := compileWith_ok hc
      obtain ⟨hfound, rfl⟩ := Prod.mk.inj h
      rw [Except.ok.inj hfound]
      exact ⟨base, r, ⟨hbase, hr⟩, rfl⟩

end Query
end RowGraph
