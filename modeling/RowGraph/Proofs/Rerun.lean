import RowGraph.Proofs.Alike
import RowGraph.Proofs.Settled

/-!
# Running again

A run leaves its traces in the query: keys of owners in the links, compiled forms, and children that
were opened when their owners were built. None of them counts for the next run. A child that has
run is related to the child as it was by `Query.Worn`, and children that are worn alike fetch alike
(`Query.fetchWithin_stable`), so that a query runs the second time as it would have run the first
time (`Query.exec_again`).
-/

namespace RowGraph
namespace Query

variable {s : Settings}

/-! ## Queries that compile alike down to the leaves -/

inductive Twins (s : Settings) : Query → Query → Prop where
  | intro {q next : Query} (agrees : Agrees s q next)
      (mounts : next.children.map Prod.fst = q.children.map Prod.fst)
      (below : ∀ mount child other, q.children.lookup mount = some child →
        next.children.lookup mount = some other → Twins s child other) : Twins s q next

section twins

variable {q middle next : Query}

theorem Twins.agrees : Twins s q next → Agrees s q next
  | .intro agrees _ _ => agrees

theorem Twins.children : Twins s q next → Paired (Twins s) q.children next.children
  | .intro _ mounts below => ⟨mounts, below⟩

theorem sizeOf_child {mount : Mount} {child : Query}
    (found : q.children.lookup mount = some child) : sizeOf child < sizeOf q :=
  sizeOf_entry (Keyed.mem_of_lookup found)

theorem Twins.refl (s : Settings) (q : Query) : Twins s q q := by
  refine .intro (.refl s q) rfl fun mount child other hc ho => ?_
  rw [hc] at ho
  cases ho
  have smaller := sizeOf_child hc
  exact Twins.refl s child
termination_by sizeOf q

theorem Twins.trans (h : Twins s q middle) (hn : Twins s middle next) : Twins s q next := by
  induction h generalizing next with
  | intro agrees mounts below ih =>
      have children := hn.children
      refine .intro (agrees.trans hn.agrees) (children.mounts.trans mounts) ?_
      intro mount child last hc hl
      obtain ⟨other, ho, twins⟩ := children.exists_left hl
      exact ih mount child other hc ho twins

theorem Warmed.twins : ∀ {q next : Query}, Warmed s q next → Twins s q next
  | q, next, h => by
      have children := h.children
      refine .intro h.agrees children.mounts fun mount child other hc ho => ?_
      have smaller := sizeOf_child hc
      exact (children.below mount child other hc ho).twins
termination_by q => sizeOf q

theorem Twins.addField (h : Twins s q next) (field : String) :
    Twins s (q.addField field) (next.addField field) := by
  have agrees := h.agrees
  unfold Query.addField select
  rw [agrees.clauses]
  split
  · exact h
  · split
    · exact h
    · obtain ⟨mounts, below⟩ := h.children
      have clauses := congrArg (fun c : Clauses => { c with selects := c.selects ++ [field] })
        agrees.clauses
      refine .intro ⟨clauses, ?_, agrees.faults, agrees.link⟩ mounts below
      have bindings := agrees.bindings
      rwa [bindings_eq, bindings_eq] at bindings ⊢

end twins

namespace Paired

variable {R : Query → Query → Prop} {a b : List (Mount × Query)} {mount : Mount}

theorem refl (hr : ∀ q, R q q) (a : List (Mount × Query)) : Paired R a a := by
  refine ⟨rfl, fun mount child other hc ho => ?_⟩
  rw [hc] at ho
  cases ho
  exact hr child

theorem putNew (h : Paired R a b) {child : Query} (hr : R child child) :
    Paired R (Keyed.putNew mount child a) (Keyed.putNew mount child b) := by
  unfold Keyed.putNew
  rw [h.isSome_lookup]
  split
  · exact h
  · next absent =>
    refine ⟨by simp only [List.map_append, h.mounts], fun key first second hf hs => ?_⟩
    rw [List.lookup_append] at hf hs
    cases hc : a.lookup key with
    | some held =>
        obtain ⟨other, ho, related⟩ := h.exists_right hc
        rw [hc, Option.some_or] at hf
        rw [ho, Option.some_or] at hs
        cases hf
        cases hs
        exact related
    | none =>
        rw [hc, Option.none_or] at hf
        rw [h.lookup_none hc, Option.none_or, hf] at hs
        cases hs
        have placed := List.mem_singleton.mp (Keyed.mem_of_lookup hf)
        cases placed
        exact hr

theorem modify (h : Paired R a b) {f g : Query → Query}
    (hr : ∀ child other, R child other → R (f child) (g other)) :
    Paired R (Keyed.modify mount f a) (Keyed.modify mount g b) := by
  refine ⟨by rw [Keyed.keys_modify, Keyed.keys_modify, h.mounts], fun key first second hf hs => ?_⟩
  rw [Keyed.lookup_modify] at hf hs
  split at hf
  · next here =>
    rw [if_pos here] at hs
    obtain ⟨child, hc, rfl⟩ := Option.map_eq_some_iff.mp hf
    obtain ⟨other, ho, rfl⟩ := Option.map_eq_some_iff.mp hs
    exact hr child other (h.below _ _ _ hc ho)
  · next elsewhere =>
    rw [if_neg elsewhere] at hs
    exact h.below key first second hf hs

theorem replace (h : Paired R a b) {child next : Query} (found : a.lookup mount = some child)
    (hr : R child next) : Paired R a (Keyed.modify mount (fun _ => next) b) := by
  refine ⟨by rw [Keyed.keys_modify, h.mounts], fun key first second hf hs => ?_⟩
  rw [Keyed.lookup_modify] at hs
  split at hs
  · next here =>
    subst here
    obtain ⟨other, -, rfl⟩ := Option.map_eq_some_iff.mp hs
    rw [found] at hf
    cases hf
    exact hr
  · exact h.below key first second hf hs

theorem foldl {f : Query → Hop → Query} (hf : ∀ a b hop, Paired R a.children b.children →
      Paired R (f a hop).children (f b hop).children) (hops : List Hop) {a b : Query}
    (h : Paired R a.children b.children) :
    Paired R (hops.foldl f a).children (hops.foldl f b).children := by
  induction hops generalizing a b with
  | nil => exact h
  | cons hop rest ih => exact ih (hf a b hop h)

theorem forwardPlain (refl : ∀ q, R q q)
    (addField : ∀ field q next, R q next → R (q.addField field) (next.addField field)) (s : Schema)
    (hops : List Hop) {a b : Query} (h : Paired R a.children b.children) :
    Paired R (hops.foldl (forwardPlain s) a).children (hops.foldl (forwardPlain s) b).children :=
  foldl (fun _ _ _ h => (h.putNew (refl _)).modify (addField _)) hops h

end Paired

theorem paired_forward {a b : Query} (h : Paired (Twins s) a.children b.children)
    (r : Resolution) :
    Paired (Twins s) (a.forward s.schema r).children (b.forward s.schema r).children := by
  apply Paired.foldl fun _ _ _ h => h.modify fun _ _ twins => twins.addField _
  exact h.forwardPlain (.refl s) (fun field _ _ twins => twins.addField field) s.schema (r.hops false)

/-! ## Queries that have run -/

theorem Resolves.unique {q : Query} {base other : Entity} {r found : Resolution}
    (h : q.Resolves s base r) (ho : q.Resolves s other found) : base = other ∧ r = found := by
  have same := (resolution?_eq_some_iff.mpr h).symm.trans (resolution?_eq_some_iff.mpr ho)
  exact Prod.mk.inj (Option.some.inj same)

/-- A query and what runs may have made of it: its fields were forwarded to its children, and these
have run or not. -/
inductive Worn (s : Settings) : Query → Query → Prop where
  | unused {q next : Query} (twins : Twins s q next) : Worn s q next
  | used {q next : Query} {base : Entity} {r : Resolution} (resolves : q.Resolves s base r)
      (faultless : q.faults = []) (agrees : Agrees s q next)
      (mounts : next.children.map Prod.fst = (q.forward s.schema r).children.map Prod.fst)
      (below : ∀ mount child other, (q.forward s.schema r).children.lookup mount = some child →
        next.children.lookup mount = some other → Worn s child other) : Worn s q next

namespace Worn

variable {q next : Query}

theorem refl (s : Settings) (q : Query) : Worn s q q := .unused (.refl s q)

theorem agrees : Worn s q next → Agrees s q next
  | .unused twins => twins.agrees
  | .used _ _ agrees _ _ => agrees

theorem twins {last : Query} (h : Worn s q next) (ht : Twins s next last) : Worn s q last := by
  induction h generalizing last with
  | unused before => exact .unused (before.trans ht)
  | used resolves faultless agrees mounts below ih =>
      have children := ht.children
      refine .used resolves faultless (agrees.trans ht.agrees) (children.mounts.trans mounts) ?_
      intro mount child other hc hl
      obtain ⟨middle, hm, twins⟩ := children.exists_left hl
      exact ih mount child middle hc hm twins

end Worn

theorem Agrees.isSome_link {q next : Query} (h : Agrees s q next) :
    next.link.isSome = q.link.isSome := by
  rw [← Option.isSome_map, h.link, Option.isSome_map]

theorem Agrees.setOwnerKeys {q next : Query} {link : Link} (h : Agrees s q next)
    (hl : next.link = some link) (keys : List Value) :
    Agrees s q (next.setOwnerKeys link keys) :=
  h.trans (.of_params rfl rfl rfl (by rw [hl]; rfl))

theorem Worn.build_error {q next : Query} {link : Link} {faults : List Fault} (h : Worn s q next)
    (hl : next.link = some link) (hc : q.compile s = .error faults) (keys : List Value) :
    (next.setOwnerKeys link keys).build s = (.error faults, next.setOwnerKeys link keys) :=
  build_of_error rfl ((h.agrees.setOwnerKeys hl keys).compile_error hc)

theorem assemble_congr {a b : Query} {base : Entity} {r : Resolution}
    (clauses : b.clauses = a.clauses) (link : b.link = a.link)
    (mounts : b.children.map Prod.fst = a.children.map Prod.fst) :
    b.assemble s base r = a.assemble s base r := by
  simp only [assemble, clauses, link, mounts]

theorem Worn.build_ok {q next : Query} {link : Link} {base : Entity} {r : Resolution}
    (h : Worn s q next) (hl : next.link = some link) (resolves : q.Resolves s base r)
    (faultless : q.faults = []) (keys : List Value) :
    ∃ built, (next.setOwnerKeys link keys).build s =
        (.ok (((q.forward s.schema r).setOwnerKeys link keys).assemble s base r), built) ∧
      Agrees s q built ∧ Paired (Worn s) (q.forward s.schema r).children built.children := by
  have agrees := h.agrees.setOwnerKeys hl keys
  have clauses : (next.setOwnerKeys link keys).clauses = (q.forward s.schema r).clauses :=
    agrees.clauses.trans (frames_forward s.schema r q).clauses.symm
  cases h with
  -- a child that has not run is given its fields now, one that has run holds them
  | unused twins =>
      have children := paired_forward (s := s) (b := next.setOwnerKeys link keys) twins.children r
      have frames := frames_forward s.schema r (next.setOwnerKeys link keys)
      have built := build_of_resolves rfl (agrees.resolves resolves)
        (agrees.faults.trans faultless)
      have compiled : ((next.setOwnerKeys link keys).forward s.schema r).assemble s base r =
          ((q.forward s.schema r).setOwnerKeys link keys).assemble s base r :=
        assemble_congr (frames.clauses.trans clauses) frames.link children.mounts
      rw [compiled] at built
      exact ⟨_, built, (agrees.trans (agrees_forward s r _)).with_rest _ _,
        children.imp fun _ _ => .unused⟩
  | used found _ _ mounts below =>
      obtain ⟨rfl, rfl⟩ := resolves.unique found
      have children : Paired (Worn s) (q.forward s.schema r).children
          (next.setOwnerKeys link keys).children := ⟨mounts, below⟩
      have forwarded : (next.setOwnerKeys link keys).Forwarded r :=
        (forwarded_forward s.schema r q).congr
          (children.imp fun _ _ worn => worn.agrees.clauses)
      have built := build_of_compile rfl (forwarded.compile_eq (agrees.resolves resolves)
        (agrees.faults.trans faultless) rfl)
      have compiled : (next.setOwnerKeys link keys).assemble s base r =
          ((q.forward s.schema r).setOwnerKeys link keys).assemble s base r :=
        assemble_congr clauses rfl mounts
      rw [compiled] at built
      exact ⟨_, built, agrees.with_rest _ _, children⟩

theorem Worn.congr {q next last : Query} (h : Worn s q next) (agrees : Agrees s q last)
    (children : last.children = next.children) : Worn s q last := by
  cases h with
  | unused twins =>
      obtain ⟨mounts, below⟩ := twins.children
      rw [← children] at mounts below
      exact .unused (.intro agrees mounts below)
  | used resolves faultless _ mounts below =>
      rw [← children] at mounts below
      exact .used resolves faultless agrees mounts below

/-! ## Fetching again -/

/-- Two parts of runs that come to the same, and that have changed nothing in their queries but the
children, which have run or not. -/
structure Matched {α : Type} (s : Settings) (children : List (Mount × Query)) (a b : Query)
    (first second : Ran α) : Prop where
  result : first.result = second.result
  database : first.database = second.database
  left : ∃ below, first.query = { a with children := below } ∧ Paired (Worn s) children below
  right : ∃ below, second.query = { b with children := below } ∧ Paired (Worn s) children below

theorem matched_unchanged {α : Type} {children : List (Mount × Query)} {a b : Query}
    (ha : Paired (Worn s) children a.children) (hb : Paired (Worn s) children b.children)
    (result : Except Failure α) (d : Database) :
    Matched s children a b ⟨result, a, d⟩ ⟨result, b, d⟩ :=
  ⟨rfl, rfl, ⟨a.children, by cases a; rfl, ha⟩, ⟨b.children, by cases b; rfl, hb⟩⟩

def Fetch.Stable (s : Settings) (fetch : Fetch) : Prop :=
  ∀ (children : List (Mount × Query)) (compiled : Compiled) (a b : Query) (d : Database),
    Paired (Worn s) children a.children → Paired (Worn s) children b.children →
      Matched s children a b (fetch compiled a d) (fetch compiled b d)

theorem fetchChild_stable {fetch : Fetch} (stable : fetch.Stable s) {q a b : Query}
    {link other : Link} (ha : Worn s q a) (hb : Worn s q b) (la : a.link = some link)
    (lb : b.link = some other) (keys : List Value) (d : Database) :
    (fetchChild s fetch link keys a d).result = (fetchChild s fetch other keys b d).result ∧
      (fetchChild s fetch link keys a d).database = (fetchChild s fetch other keys b d).database ∧
      Worn s q (fetchChild s fetch link keys a d).query ∧
      Worn s q (fetchChild s fetch other keys b d).query := by
  have foreignKey : link.foreignKey = other.foreignKey := by
    have same := ha.agrees.link.trans hb.agrees.link.symm
    rw [la, lb] at same
    exact Option.some.inj same
  have restricted (q : Query) : q.setOwnerKeys other keys = q.setOwnerKeys link keys := by
    rw [setOwnerKeys, setOwnerKeys, foreignKey]
  rcases resolves_or_error s q with ⟨base, r, resolves, faultless⟩ | ⟨faults, hc⟩
  · obtain ⟨nextA, builtA, agreesA, childrenA⟩ := ha.build_ok la resolves faultless keys
    obtain ⟨nextB, builtB, agreesB, childrenB⟩ := hb.build_ok lb resolves faultless keys
    rw [restricted (q.forward s.schema r)] at builtB
    obtain ⟨result, database, ⟨belowA, queryA, wornA⟩, belowB, queryB, wornB⟩ :=
      stable _ _ nextA nextB d childrenA childrenB
    simp only [fetchChild, builtA, builtB]
    refine ⟨by rw [result, foreignKey], database, ?_, ?_⟩
    · rw [queryA]
      exact .used resolves faultless (agreesA.with_rest _ _) wornA.mounts wornA.below
    · rw [queryB]
      exact .used resolves faultless (agreesB.with_rest _ _) wornB.mounts wornB.below
  · simp only [fetchChild, ha.build_error la hc, hb.build_error lb hc]
    exact ⟨trivial, trivial, ha.congr (ha.agrees.setOwnerKeys la keys) rfl,
      hb.congr (hb.agrees.setOwnerKeys lb keys) rfl⟩

theorem fetchMounts_stable {fetch : Fetch} (stable : fetch.Stable s) (rows : List Row)
    (mounts : List MountPlan) (groups : Groups) {children : List (Mount × Query)} {a b : Query}
    (ha : Paired (Worn s) children a.children) (hb : Paired (Worn s) children b.children)
    (d : Database) :
    Matched s children a b (fetchMounts s fetch rows mounts groups a d)
      (fetchMounts s fetch rows mounts groups b d) := by
  induction mounts generalizing groups a b d with
  | nil => exact matched_unchanged ha hb _ d
  | cons m rest ih =>
      cases hc : children.lookup m.mount with
      | none =>
          simp only [fetchMounts, ha.lookup_none hc, hb.lookup_none hc]
          exact ih groups ha hb d
      | some child =>
          obtain ⟨first, foundA, wornA⟩ := ha.exists_right hc
          obtain ⟨second, foundB, wornB⟩ := hb.exists_right hc
          have linked := wornA.agrees.link.trans wornB.agrees.link.symm
          cases hk : ownerKeys m.keyLabel rows with
          | nil =>
              simp only [fetchMounts, foundA, foundB, hk]
              exact ih groups ha hb d
          | cons key keys =>
              cases la : first.link with
              | none =>
                  have lb : second.link = none := by
                    rw [la] at linked
                    exact Option.map_eq_none_iff.mp linked.symm
                  simp only [fetchMounts, foundA, foundB, hk, la, lb]
                  exact ih groups ha hb d
              | some link =>
                  rw [la] at linked
                  obtain ⟨other, lb, -⟩ := Option.map_eq_some_iff.mp linked.symm
                  simp only [fetchMounts, foundA, foundB, hk, la, lb]
                  obtain ⟨result, database, ranA, ranB⟩ :=
                    fetchChild_stable stable wornA wornB la lb (key :: keys) d
                  have replacedA : Paired (Worn s) children (a.modifyChild m.mount fun _ =>
                      (fetchChild s fetch link (key :: keys) first d).query).children :=
                    ha.replace hc ranA
                  have replacedB : Paired (Worn s) children (b.modifyChild m.mount fun _ =>
                      (fetchChild s fetch other (key :: keys) second d).query).children :=
                    hb.replace hc ranB
                  rw [result, database]
                  -- a failure stops both, and otherwise both go on with worn children
                  cases (fetchChild s fetch other (key :: keys) second d).result with
                  | error f => exact ⟨rfl, rfl, ⟨_, rfl, replacedA⟩, _, rfl, replacedB⟩
                  | ok group =>
                      obtain ⟨same, databases, left, right⟩ :=
                        ih (Keyed.put m.mount group groups) replacedA replacedB
                          (fetchChild s fetch other (key :: keys) second d).database
                      exact ⟨same, databases, left, right⟩

theorem fetchWithin_stable (s : Settings) (c : Connection) (depth : Nat) :
    (fetchWithin s c depth).Stable s := by
  induction depth with
  | zero =>
      intro children compiled a b d ha hb
      unfold fetchWithin
      cases d.query c compiled.statement with
      | mk reply next => cases reply <;> exact matched_unchanged ha hb _ next
  | succ depth ih =>
      intro children compiled a b d ha hb
      unfold fetchWithin
      cases d.query c compiled.statement with
      | mk reply next =>
          cases reply with
          | error f => exact matched_unchanged ha hb _ next
          | ok rows =>
              obtain ⟨result, database, left, right⟩ :=
                fetchMounts_stable ih rows compiled.plan.mounts [] ha hb next
              refine ⟨?_, database, left, right⟩
              simp only [result]

/-! ## Running again -/

theorem sameRuns_of_worn {a b nextA nextB : Query} {compiled : Compiled}
    (builtA : a.build s = (.ok compiled, nextA)) (builtB : b.build s = (.ok compiled, nextB))
    (link : a.link.isSome = b.link.isSome) (listeners : nextA.listeners = nextB.listeners)
    {children : List (Mount × Query)} (ha : Paired (Worn s) children nextA.children)
    (hb : Paired (Worn s) children nextB.children) : SameRuns s a b := by
  have childless : nextA.children.isEmpty = nextB.children.isEmpty := by
    rw [← List.isEmpty_map, ha.mounts, ← hb.mounts, List.isEmpty_map]
  refine sameRuns_of_fetch builtA builtB link listeners childless fun c d => ?_
  obtain ⟨result, database, -, -⟩ :=
    fetchWithin_stable s c d.replies.length children compiled nextA nextB d ha hb
  exact ⟨result, database⟩

theorem compiled_of_build {q next : Query} {compiled : Compiled}
    (h : q.build s = (.ok compiled, next)) : next.compiled = some compiled := by
  unfold build at h
  split at h
  · next held =>
    cases h
    exact held
  · split at h
    · cases h
      rfl
    · cases h

theorem compile_of_build_error {q next : Query} {faults : List Fault}
    (h : q.build s = (.error faults, next)) :
    next = q ∧ q.compiled = none ∧ q.compile s = .error faults := by
  unfold build at h
  split at h
  · cases h
  · next fresh =>
    split at h
    · cases h
    · next failed =>
      cases h
      exact ⟨rfl, fresh, failed⟩

theorem query_exec {q next : Query} {compiled : Compiled} (root : q.link.isSome = false)
    (h : q.build s = (.ok compiled, next)) (c : Connection) (d : Database) :
    ∃ below, (q.exec s c d).query = { next with children := below } ∧
      Paired (Worn s) next.children below := by
  have unchanged : Paired (Worn s) next.children next.children := .refl (.refl s) _
  have kept : ∃ below, next = { next with children := below } ∧
      Paired (Worn s) next.children below := ⟨next.children, by cases next; rfl, unchanged⟩
  rw [exec, root, if_neg Bool.false_ne_true, h]
  dsimp only
  split
  · split
    · rw [query_stream]
      exact kept
    · exact kept
  · rw [query_collect]
    exact (fetchWithin_stable s c _ _ compiled next next d unchanged unchanged).left

theorem exec_of_build_error {q : Query} {c : Connection} {faults : List Fault}
    (root : q.link = none) (unbuilt : (q.build s).1 = .error faults) (d : Database) :
    (q.exec s c d).result = .error (.build faults) ∧ (q.exec s c d).events = [] ∧
      (q.exec s c d).database = d := by
  unfold exec
  rw [root]
  cases hb : q.build s with
  | mk result next =>
      rw [hb] at unbuilt
      subst unbuilt
      exact ⟨rfl, rfl, rfl⟩

/-- What a run leaves behind, whichever of its subqueries have been built meanwhile, runs as the
query would have run the first time. -/
theorem exec_again (s : Settings) (q : Query) (c : Connection) (d : Database) (kept : Query)
    (warmed : Warmed s (q.exec s c d).query kept) : SameRuns s kept q := by
  cases root : q.link.isSome with
  | true =>
      have query : (q.exec s c d).query = q := by
        rw [exec, if_pos root]
      rw [query] at warmed
      have link : kept.link.isSome = true := warmed.agrees.isSome_link.trans root
      intro c d
      rw [exec, exec, if_pos root, if_pos link]
      exact ⟨rfl, rfl, rfl⟩
  | false =>
      cases hb : q.build s with
      | mk result next =>
          cases result with
          | error faults =>
              obtain ⟨rfl, fresh, failed⟩ := compile_of_build_error hb
              have query : (next.exec s c d).query = next := by
                rw [exec, root, if_neg Bool.false_ne_true, hb]
              rw [query] at warmed
              have link : kept.link.isSome = false := warmed.agrees.isSome_link.trans root
              have again := build_of_error (warmed.compiled.trans fresh)
                (warmed.agrees.compile_error failed)
              intro c d
              rw [exec, exec, root, link, if_neg Bool.false_ne_true, if_neg Bool.false_ne_true, hb,
                again]
              exact ⟨rfl, rfl, rfl⟩
          | ok compiled =>
              obtain ⟨below, query, children⟩ := query_exec root hb c d
              rw [query] at warmed
              have agrees := agrees_build s q
              have memo := compiled_of_build hb
              rw [hb] at agrees
              have built : kept.build s = (.ok compiled, kept) := by
                rw [build, warmed.compiled.trans memo]
              have worn : Paired (Worn s) next.children kept.children :=
                children.trans warmed.twins.children fun _ _ _ worn twins => worn.twins twins
              exact sameRuns_of_worn built hb
                (warmed.agrees.isSome_link.trans agrees.isSome_link) warmed.listeners worn
                (.refl (.refl s) _)

end Query

namespace Sample

def outage : Database :=
  { replies := [.rows [[("#0.name", .text "?"), ("#0.id", .ofInt64 7)]], .failure [] (.raised "")] }

def worn : Query :=
  { (patrons.exec settings {} outage).query with
    params := [.subquery (customers.build settings).2] }

end Sample

theorem Query.exec_again_patrons :
    (Sample.patrons.exec Sample.settings {} Sample.outage).database.calls.length = 2 ∧
      (Sample.worn.children.map fun (_, child) => child.link.bind fun link =>
        link.ownerKeys.map List.length) = [some 1] ∧
      SameRuns Sample.settings Sample.worn Sample.patrons := by
  obtain ⟨compiled, next, built, params⟩ : ∃ compiled next,
      Sample.patrons.build Sample.settings = (.ok compiled, next) ∧
        next.params = [.subquery Sample.customers] := ⟨_, _, rfl, rfl⟩
  obtain ⟨below, query, -⟩ := query_exec rfl built {} Sample.outage
  refine ⟨by decide +kernel, by decide +kernel, ?_⟩
  refine exec_again Sample.settings Sample.patrons {} Sample.outage _ ?_
  rw [Sample.worn, query]
  exact Sample.warmed params

end RowGraph
