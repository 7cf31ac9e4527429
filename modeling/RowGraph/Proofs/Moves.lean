import Mathlib.Logic.Relation
import RowGraph.Proofs.Reached

/-!
# Moves

Every call comes down to a few moves: a clause is changed, a source set, a child opened or
restricted to the keys of its owners, a compiled form kept, and the same inside a child
(`Query.Move`). What each move keeps, every query that calls lead to has (`Query.Reached.keeps`).
That way a compiled form is kept only by a query whose one fault can be a second source, and
children are linked and stand under mounts of their own, whatever the schema (`Query.Orderly`).
-/

namespace RowGraph
namespace Query

inductive Move (s : Schema) : Query → Query → Prop where
  | edit {q : Query} (change : Clauses → Clauses)
      (source : (change q.clauses).source = q.clauses.source) : Move s q (q.edit change)
  | setSource {q : Query} (entity : String) : Move s q (q.setSource s entity)
  | filter {q : Query} (expression : String) (params : List (Param Query)) :
      Move s q (q.filter expression params)
  | listen {q : Query} (change : Listeners → Listeners) : Move s q (q.listen change)
  | openChild {q : Query} (mount : Mount) (target foreignKey : String) :
      Move s q (q.openChild s mount target foreignKey)
  | restrict {q : Query} {link : Link} (linked : q.link = some link) (keys : List Value) :
      Move s q (q.setOwnerKeys link keys)
  | remember {q : Query} (compiled : Compiled) (faultless : q.faults = []) :
      Move s q { q with compiled := some compiled }
  | child {q child next : Query} {mount : Mount} (found : q.children.lookup mount = some child)
      (move : Move s child next) : Move s q (q.modifyChild mount fun _ => next)

abbrev Moves (s : Schema) : Query → Query → Prop := Relation.ReflTransGen (Move s)

/-! ## Moves of children -/

theorem sizeOf_entry {q : Query} {entry : Mount × Query} (held : entry ∈ q.children) :
    sizeOf entry.2 < sizeOf q := by
  have member := List.sizeOf_lt_of_mem held
  cases q
  cases entry
  simp only [Query.mk.sizeOf_spec, Prod.mk.sizeOf_spec] at member ⊢
  omega

theorem modifyChild_of_lookup {q child : Query} {mount : Mount}
    (found : q.children.lookup mount = some child) (change : Query → Query) :
    q.modifyChild mount change = q.modifyChild mount fun _ => change child := by
  have same : Keyed.modify mount change q.children =
      Keyed.modify mount (fun _ => change child) q.children := Keyed.modify_congr found rfl
  rw [modifyChild, same]
  rfl

theorem modifyChild_self {q child : Query} {mount : Mount}
    (found : q.children.lookup mount = some child) : (q.modifyChild mount fun _ => child) = q := by
  rw [← modifyChild_of_lookup found fun held => held, modifyChild, Keyed.modify_id]
  cases q
  rfl

theorem lookup_modifyChild {q child : Query} {mount : Mount}
    (found : q.children.lookup mount = some child) (change : Query → Query) :
    (q.modifyChild mount change).children.lookup mount = some (change child) := by
  rw [modifyChild, Keyed.lookup_modify, if_pos rfl, found]
  rfl

namespace Moves

variable {s : Schema} {q next : Query}

theorem child {child : Query} {mount : Mount} (found : q.children.lookup mount = some child)
    (h : Moves s child next) : Moves s q (q.modifyChild mount fun _ => next) := by
  induction h with
  | refl =>
      rw [modifyChild_self found]
  | @tail middle _ _ move ih =>
      refine ih.tail ?_
      have step := Move.child (lookup_modifyChild found fun _ => middle) move
      rwa [Query.modifyChild, Query.modifyChild, Keyed.modify_modify] at step

theorem modifyChild {mount : Mount} {f : Query → Query}
    (h : ∀ child, q.children.lookup mount = some child → Moves s child (f child)) :
    Moves s q (q.modifyChild mount f) := by
  cases hc : q.children.lookup mount with
  | none =>
      rw [Query.modifyChild, Keyed.modify_of_lookup_none f hc]
      cases q
      exact .refl
  | some child =>
      rw [modifyChild_of_lookup hc]
      exact Moves.child hc (h child hc)

/-! ## Calls as moves -/

theorem edit (q : Query) (change : Clauses → Clauses)
    (source : (change q.clauses).source = q.clauses.source) : Moves s q (q.edit change) :=
  .single (.edit change source)

theorem select (q : Query) (fields : String) : Moves s q (q.select fields) := by
  unfold Query.select
  split
  · exact .refl
  · exact edit q _ rfl

theorem addField (q : Query) (field : String) : Moves s q (q.addField field) := by
  unfold Query.addField
  split
  · exact .refl
  · exact select q field

theorem addRelation (q : Query) (path : Path) : Moves s q (q.addRelation path) := by
  unfold Query.addRelation
  split
  · exact .refl
  · exact edit q _ rfl

theorem openLevels (q : Query) (levels : List Level) : Moves s q (q.openLevels s levels) := by
  induction levels generalizing q with
  | nil => exact .refl
  | cons level rest ih =>
      have opened : Moves s q (((q.addRelation level.mount.owner)).openChild s level.mount
          level.target level.foreignKey) :=
        (addRelation q level.mount.owner).tail (.openChild ..)
      exact opened.trans (modifyChild fun child _ => ih child)

theorem foldl {α : Type} {f : Query → α → Query} (hf : ∀ q a, Moves s q (f q a)) (items : List α)
    (q : Query) : Moves s q (items.foldl f q) := by
  induction items generalizing q with
  | nil => exact .refl
  | cons item rest ih => exact (hf q item).trans (ih _)

theorem forward (q : Query) (r : Resolution) : Moves s q (q.forward s r) := by
  refine (foldl (fun q hop => ?_) _ q).trans (foldl (fun q hop => ?_) _ _)
  · have opened : Moves s q _ := .single (.openChild hop.mount hop.target hop.foreignKey)
    exact opened.trans (modifyChild fun child _ => addField child _)
  · exact modifyChild fun child _ => addField child _

end Moves

theorem faults_forward (s : Schema) (q : Query) (r : Resolution) :
    (q.forward s r).faults = q.faults := by
  have keeps : ∀ (f : Query → Hop → Query) (_ : ∀ q hop, (f q hop).faults = q.faults)
      (hops : List Hop) (q : Query), (hops.foldl f q).faults = q.faults := by
    intro f hf hops
    induction hops with
    | nil => exact fun q => rfl
    | cons hop rest ih => exact fun q => (ih _).trans (hf q hop)
  rw [Query.forward, keeps forwardExcluded fun _ _ => rfl, keeps (forwardPlain s) fun _ _ => rfl]

theorem faultless_of_compile {s : Settings} {q : Query} {built : Compiled × Query}
    (h : q.compile s = .ok built) : q.faults = [] := by
  unfold compile compileWith at h
  split at h
  · cases h
  · split at h
    · cases h
    · dsimp only at h
      split at h
      · assumption
      · cases h

namespace Moves

variable {s : Settings} {q next : Query}

theorem build (q : Query) : Moves s.schema q (q.build s).2 := by
  unfold Query.build
  split
  · exact .refl
  · split
    · next compiled next hc =>
      obtain ⟨base, r, -, -, rfl, -⟩ := compileWith_ok hc
      have faultless : (q.forward s.schema r).faults = [] := by
        rw [faults_forward, faultless_of_compile hc]
      exact (forward q r).tail (.remember compiled faultless)
    · exact .refl

theorem fetchChild {fetch : Fetch} (hf : ∀ compiled q d, Moves s.schema q (fetch compiled q d).query)
    {link : Link} {child : Query} (linked : child.link = some link) (keys : List Value)
    (d : Database) : Moves s.schema child (fetchChild s fetch link keys child d).query := by
  have built := (Relation.ReflTransGen.single (Move.restrict linked keys)).trans (build (s := s) _)
  unfold Query.fetchChild
  cases hb : (child.setOwnerKeys link keys).build s with
  | mk result next =>
      rw [hb] at built
      cases result with
      | error faults => exact built
      | ok compiled => exact built.trans (hf compiled next d)

theorem fetchMounts {fetch : Fetch}
    (hf : ∀ compiled q d, Moves s.schema q (fetch compiled q d).query) (rows : List Row)
    (mounts : List MountPlan) (groups : Groups) (q : Query) (d : Database) :
    Moves s.schema q (fetchMounts s fetch rows mounts groups q d).query := by
  induction mounts generalizing groups q d with
  | nil => exact .refl
  | cons m rest ih =>
      rcases fetchMounts_cons s rows m rest q with
        skip | ⟨child, link, keys, found, linked, stopped, went⟩
      · rw [skip]
        exact ih ..
      · have ran := Moves.child found (fetchChild hf linked keys d)
        cases hr : (Query.fetchChild s fetch link keys child d).result with
        | error f =>
            rw [stopped hr]
            exact ran
        | ok group =>
            rw [went hr]
            exact ran.trans (ih ..)

theorem fetchWithin (c : Connection) (depth : Nat) (compiled : Compiled) (q : Query)
    (d : Database) : Moves s.schema q (fetchWithin s c depth compiled q d).query := by
  induction depth generalizing compiled q d with
  | zero =>
      unfold Query.fetchWithin
      split <;> exact .refl
  | succ depth ih =>
      unfold Query.fetchWithin
      split
      · exact .refl
      · exact fetchMounts ih ..

theorem exec (q : Query) (c : Connection) (d : Database) :
    Moves s.schema q (q.exec s c d).query := by
  have built := build (s := s) q
  unfold Query.exec
  split
  · exact .refl
  · cases hb : q.build s with
    | mk result next =>
        rw [hb] at built
        cases result with
        | error faults => exact built
        | ok compiled =>
            dsimp only
            split
            · split
              · rwa [query_stream]
              · exact built
            · rw [query_collect]
              exact built.trans (fetchWithin ..)

end Moves

theorem Call.moves {s : Settings} : ∀ {q next : Query}, Call s q next → Moves s.schema q next
  | _, _, .setSource entity => .single (.setSource entity)
  | _, _, .select fields => .select _ fields
  | _, _, .filter expression params _ => .single (.filter expression params)
  | _, _, .listen change => .single (.listen change)
  | _, _, .toMany path => by
      unfold Query.toMany
      dsimp only
      split <;> exact .openLevels ..
  | _, _, .build => .build _
  | _, _, .exec c d => .exec _ c d
  | _, _, .child found call => .child found call.moves
  | _, _, .selectWith .. => .edit _ _ rfl
  | _, _, .selectExpression _ => .edit _ _ rfl
  | _, _, .having .. => .edit _ _ rfl
  | _, _, .order _ => .edit _ _ rfl
  | _, _, .group _ => .edit _ _ rfl
  | _, _, .limitWith .. => .edit _ _ rfl
  | _, _, .limit _ => by
      unfold Query.limit
      exact .edit _ _ rfl
  | _, _, .distinct => .edit _ _ rfl
  | _, _, .options _ => .edit _ _ rfl
  | _, _, .index _ => .edit _ _ rfl
  | _, _, .countWithoutLimit => .edit _ _ rfl

theorem Moves.keeps {s : Schema} {P : Query → Prop}
    (move : ∀ {q next : Query}, Move s q next → P q → P next) {q next : Query}
    (h : Moves s q next) (hq : P q) : P next := by
  induction h with
  | refl => exact hq
  | tail _ step ih => exact move step ih

/-- What a new query has and moves keep, every query has that calls lead to. -/
theorem Reached.keeps {s : Settings} {P : Query → Prop} (new : P {})
    (move : ∀ {q next : Query}, Move s.schema q next → P q → P next)
    (child : ∀ {q child : Query} {mount : Mount}, P q → q.children.lookup mount = some child →
      P child) : ∀ {q : Query}, Reached s q → P q
  | _, .child reached found => child (reached.keeps new move child) found
  | _, .call reached step => step.moves.keeps move (reached.keeps new move child)
  | _, .new => new

/-! ## Orderly queries -/

inductive Orderly : Query → Prop where
  | intro {q : Query}
      (blamed : q.compiled.isSome → ∀ fault ∈ q.faults, fault = .sourceSetTwice)
      (mounts : (q.children.map Prod.fst).Nodup)
      (linked : ∀ entry ∈ q.children, entry.2.link.isSome)
      (children : ∀ entry ∈ q.children, Orderly entry.2) : Orderly q

namespace Orderly

variable {q next : Query}

theorem blamed (h : q.Orderly) (hc : q.compiled.isSome) :
    ∀ fault ∈ q.faults, fault = .sourceSetTwice := by
  cases h with
  | intro blamed => exact blamed hc

theorem mounts (h : q.Orderly) : (q.children.map Prod.fst).Nodup := by
  cases h with
  | intro _ mounts => exact mounts

theorem linked (h : q.Orderly) {mount : Mount} {child : Query}
    (found : q.children.lookup mount = some child) : child.link.isSome := by
  cases h with
  | intro _ _ linked => exact linked _ (Keyed.mem_of_lookup found)

theorem child (h : q.Orderly) {mount : Mount} {child : Query}
    (found : q.children.lookup mount = some child) : child.Orderly := by
  cases h with
  | intro _ _ _ children => exact children _ (Keyed.mem_of_lookup found)

theorem congr (h : q.Orderly) (children : next.children = q.children)
    (blamed : next.compiled.isSome → ∀ fault ∈ next.faults, fault = .sourceSetTwice) :
    next.Orderly := by
  cases h with
  | intro _ mounts linked held =>
      exact .intro blamed (by rwa [children]) (by rwa [children]) (by rwa [children])

theorem newChild (s : Schema) (target foreignKey : String) :
    (Query.newChild s target foreignKey).Orderly ∧
      (Query.newChild s target foreignKey).link.isSome := by
  refine ⟨.intro ?_ ?_ ?_ ?_, rfl⟩ <;> simp [Query.newChild, Query.setSource, Query.edit]

theorem openChild (h : q.Orderly) (s : Schema) (mount : Mount) (target foreignKey : String) :
    (q.openChild s mount target foreignKey).Orderly := by
  obtain ⟨orderly, linked⟩ := newChild s target foreignKey
  cases h with
  | intro _ mounts held children =>
      refine .intro (fun hc => absurd hc Bool.false_ne_true) ?_ ?_ ?_
      · rw [mounts_openChild]
        split
        · exact mounts
        · next hnew =>
          rw [← List.concat_eq_append, List.nodup_concat]
          exact ⟨hnew, mounts⟩
      · intro entry he
        rcases Keyed.mem_putNew he with hold | rfl
        · exact held entry hold
        · exact linked
      · intro entry he
        rcases Keyed.mem_putNew he with hold | rfl
        · exact children entry hold
        · exact orderly

theorem setSource (h : q.Orderly) (s : Schema) (entity : String) :
    (q.setSource s entity).Orderly := by
  unfold Query.setSource
  split
  · refine h.congr rfl fun hc fault hf => ?_
    rcases List.mem_append.mp hf with hold | hnew
    · exact h.blamed hc fault hold
    · exact List.mem_singleton.mp hnew
  · exact h.congr rfl fun hc => absurd hc Bool.false_ne_true

theorem move {s : Schema} (step : Move s q next) (h : q.Orderly) :
    next.Orderly ∧ (q.link.isSome → next.link.isSome) := by
  induction step with
  | setSource entity =>
      refine ⟨h.setSource s entity, fun hl => ?_⟩
      unfold Query.setSource
      split <;> exact hl
  | edit | filter => exact ⟨h.congr rfl fun hc => absurd hc Bool.false_ne_true, id⟩
  | restrict => exact ⟨h.congr rfl fun hc => absurd hc Bool.false_ne_true, fun _ => rfl⟩
  | listen => exact ⟨h.congr rfl fun hc => h.blamed hc, id⟩
  | remember compiled faultless => exact ⟨h.congr rfl fun _ => by simp [faultless], id⟩
  | openChild mount target foreignKey => exact ⟨h.openChild s mount target foreignKey, id⟩
  | @child q child next mount found _ ih =>
      obtain ⟨orderly, linked⟩ := ih (h.child found)
      have own := h.linked found
      refine ⟨?_, id⟩
      cases h with
      | intro blamed mounts held children =>
          refine .intro blamed ?_ ?_ ?_
          · rw [modifyChild, Keyed.keys_modify]
            exact mounts
          · intro entry he
            rcases Keyed.mem_modify he with hold | ⟨_, -, rfl⟩
            · exact held entry hold
            · exact linked own
          · intro entry he
            rcases Keyed.mem_modify he with hold | ⟨_, -, rfl⟩
            · exact children entry hold
            · exact orderly

theorem setOwnerKeys (h : q.Orderly) (link : Link) (keys : List Value) :
    (q.setOwnerKeys link keys).Orderly :=
  h.congr rfl fun hc => absurd hc Bool.false_ne_true

theorem build (h : q.Orderly) {s : Settings} {compiled : Compiled}
    (built : q.build s = (.ok compiled, next)) : next.Orderly := by
  have moves : Moves s.schema q _ := .build (s := s) q
  rw [built] at moves
  exact moves.keeps (fun step h => (move step h).1) h

end Orderly

theorem Reached.orderly {s : Settings} {q : Query} (h : Reached s q) : q.Orderly := by
  refine h.keeps ?_ (fun step orderly => (orderly.move step).1) fun orderly => orderly.child
  exact .intro (by simp) (by simp) (by simp) (by simp)

end Query
end RowGraph
