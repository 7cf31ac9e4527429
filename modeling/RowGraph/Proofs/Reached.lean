import RowGraph.Proofs.Sound
import RowGraph.Run

/-!
# Queries that calls lead to

A caller makes a query and its children by calls one after another (`Query.Call`,
`Query.Reached`). Every call keeps the query sound (`Query.Call.sound`), so that what building
gives is the compiled form of the clauses (`Reached.build`), however the query was used before.
-/

namespace RowGraph
namespace Query

variable {s : Settings} {q next : Query}

/-! ## Runs -/

def Fetch.Keeps (s : Settings) (fetch : Fetch) : Prop :=
  ∀ compiled q d, Sound s q →
    Sound s (fetch compiled q d).query ∧ q.Evolves (fetch compiled q d).query

theorem Sound.setOwnerKeys {link : Link} {child : Query} (h : Sound s child)
    (hl : child.link = some link) (keys : List Value) :
    Sound s (child.setOwnerKeys link keys) ∧ child.Evolves (child.setOwnerKeys link keys) := by
  have evolves : child.Evolves (child.setOwnerKeys link keys) :=
    ⟨fun _ he => he, rfl, by simp [Query.setOwnerKeys, hl]⟩
  refine ⟨?_, evolves⟩
  exact h.change evolves rfl (fun _ h => h) rfl (by simp [Query.setOwnerKeys])
    fun sub hm => h.subquery hm

theorem Sound.buildFor {child : Query} (h : Sound s child) {link : Link} (hl : child.link = some link)
    {keys : List Value} {compiled : Compiled}
    (built : (child.setOwnerKeys link keys).build s = (.ok compiled, next)) :
    Sound s next ∧ next.Compiles s compiled ∧ child.Evolves next ∧
      next.link.map (·.foreignKey) = some link.foreignKey := by
  obtain ⟨restricted, evolves⟩ := h.setOwnerKeys hl keys
  obtain ⟨sound, frames, compiles⟩ := restricted.build
  rw [built] at sound frames compiles
  have through := evolves.trans frames.evolves
  exact ⟨sound, compiles compiled rfl, through, by rw [through.link, hl]; rfl⟩

theorem fetchChild_keeps {fetch : Fetch} (hf : Fetch.Keeps s fetch) {link : Link}
    (keys : List Value) {child : Query} (hl : child.link = some link) (h : Sound s child)
    (d : Database) : Sound s (fetchChild s fetch link keys child d).query ∧
      child.Evolves (fetchChild s fetch link keys child d).query := by
  obtain ⟨sound, evolves⟩ := h.setOwnerKeys hl keys
  obtain ⟨built, frames, -⟩ := sound.build
  unfold fetchChild
  cases hb : (child.setOwnerKeys link keys).build s with
  | mk result next =>
      rw [hb] at built frames
      cases result with
      | error faults => exact ⟨built, evolves.trans frames.evolves⟩
      | ok compiled =>
          obtain ⟨kept, fetched⟩ := hf compiled next d built
          exact ⟨kept, evolves.trans (frames.evolves.trans fetched)⟩

theorem fetchMounts_cons (s : Settings) (rows : List Row) (m : MountPlan) (rest : List MountPlan)
    (q : Query) :
    (∀ fetch groups d, fetchMounts s fetch rows (m :: rest) groups q d =
      fetchMounts s fetch rows rest groups q d) ∨
    ∃ child link keys, q.children.lookup m.mount = some child ∧ child.link = some link ∧
      (∀ {fetch groups d f}, (fetchChild s fetch link keys child d).result = .error f →
        fetchMounts s fetch rows (m :: rest) groups q d =
          ⟨.error f, q.modifyChild m.mount fun _ => (fetchChild s fetch link keys child d).query,
            (fetchChild s fetch link keys child d).database⟩) ∧
      ∀ {fetch groups d group}, (fetchChild s fetch link keys child d).result = .ok group →
        fetchMounts s fetch rows (m :: rest) groups q d =
          fetchMounts s fetch rows rest (Keyed.put m.mount group groups)
            (q.modifyChild m.mount fun _ => (fetchChild s fetch link keys child d).query)
            (fetchChild s fetch link keys child d).database := by
  cases found : q.children.lookup m.mount with
  | none => exact .inl fun fetch groups d => by simp only [fetchMounts, found]
  | some child =>
      cases keys : ownerKeys m.keyLabel rows with
      | nil => exact .inl fun fetch groups d => by simp only [fetchMounts, found, keys]
      | cons first others =>
          cases linked : child.link with
          | none => exact .inl fun fetch groups d => by simp only [fetchMounts, found, keys, linked]
          | some link =>
              refine .inr ⟨child, link, first :: others, rfl, linked, fun hr => ?_, fun hr => ?_⟩
              all_goals simp only [fetchMounts, found, keys, linked, hr]

theorem fetchMounts_keeps {fetch : Fetch} (hf : Fetch.Keeps s fetch) (rows : List Row)
    (mounts : List MountPlan) (groups : Groups) (h : Sound s q) (d : Database) :
    Sound s (fetchMounts s fetch rows mounts groups q d).query ∧
      q.Evolves (fetchMounts s fetch rows mounts groups q d).query := by
  induction mounts generalizing groups q d with
  | nil => exact ⟨h, .refl q⟩
  | cons m rest ih =>
      rcases fetchMounts_cons s rows m rest q with
        skip | ⟨child, link, keys, found, linked, stopped, went⟩
      · rw [skip]
        exact ih _ h _
      · have kept : Sound s (q.modifyChild m.mount fun _ =>
            (fetchChild s fetch link keys child d).query) := by
          refine h.modifyChild fun held there hs => ?_
          rw [found, Option.some.injEq] at there
          subst there
          exact fetchChild_keeps hf keys linked hs d
        have evolves := (frames_modifyChild m.mount (fun _ =>
          (fetchChild s fetch link keys child d).query) q).evolves
        cases hr : (fetchChild s fetch link keys child d).result with
        | error f =>
            rw [stopped hr]
            exact ⟨kept, evolves⟩
        | ok group =>
            rw [went hr]
            obtain ⟨sound, more⟩ := ih _ kept _
            exact ⟨sound, evolves.trans more⟩

theorem fetchWithin_keeps (s : Settings) (c : Connection) (depth : Nat) :
    Fetch.Keeps s (fetchWithin s c depth) := by
  induction depth with
  | zero =>
      intro compiled q d h
      unfold fetchWithin
      split <;> exact ⟨h, .refl q⟩
  | succ depth ih =>
      intro compiled q d h
      unfold fetchWithin
      split
      · exact ⟨h, .refl q⟩
      · exact fetchMounts_keeps ih _ _ _ h _

theorem query_stream (c : Connection) (compiled : Compiled) (q : Query) (d : Database) :
    (q.stream c compiled d).query = q := by
  unfold stream
  dsimp only
  repeat' split
  all_goals rfl

theorem query_collect (s : Settings) (c : Connection) (compiled : Compiled) (q : Query)
    (d : Database) : (q.collect s c compiled d).query = (fetch s c compiled q d).query := by
  unfold collect
  dsimp only
  repeat' split
  all_goals rfl

theorem Sound.exec (h : Sound s q) (c : Connection) (d : Database) :
    Sound s (q.exec s c d).query ∧ q.Evolves (q.exec s c d).query := by
  unfold Query.exec
  split
  · exact ⟨h, .refl q⟩
  · obtain ⟨built, frames, -⟩ := h.build
    cases hb : q.build s with
    | mk result next =>
        rw [hb] at built frames
        cases result with
        | error faults => exact ⟨built, frames.evolves⟩
        | ok compiled =>
            obtain ⟨fetched, more⟩ := fetchWithin_keeps s c d.replies.length compiled next d built
            dsimp only
            split
            · split
              · rw [query_stream]
                exact ⟨built, frames.evolves⟩
              · exact ⟨built, frames.evolves⟩
            · rw [query_collect]
              exact ⟨fetched, frames.evolves.trans more⟩

/-! ## Calls -/

mutual

/-- One call on a query or on a child of it. -/
inductive Call (s : Settings) : Query → Query → Prop where
  | setSource {q : Query} (entity : String) : Call s q (q.setSource s.schema entity)
  | select {q : Query} (fields : String) : Call s q (q.select fields)
  | selectWith {q : Query} (path fields : String) : Call s q (q.selectWith path fields)
  | selectExpression {q : Query} (expression : String) :
      Call s q (q.selectExpression expression)
  | filter {q : Query} (expression : String) (params : List (Param Query))
      (subqueries : ∀ sub, Param.subquery sub ∈ params → Reached s sub) :
      Call s q (q.filter expression params)
  | having {q : Query} (expression : String) (params : List Value) :
      Call s q (q.having expression params)
  | order {q : Query} (expression : String) : Call s q (q.order expression)
  | group {q : Query} (expression : String) : Call s q (q.group expression)
  | limitWith {q : Query} (expression : String) (params : List Value) :
      Call s q (q.limitWith expression params)
  | limit {q : Query} (rows : UInt64) : Call s q (q.limit rows)
  | distinct {q : Query} : Call s q q.distinct
  | options {q : Query} (text : String) : Call s q (q.options text)
  | index {q : Query} (target : Index) : Call s q (q.index target)
  | countWithoutLimit {q : Query} : Call s q q.countWithoutLimit
  | listen {q : Query} (change : Listeners → Listeners) : Call s q (q.listen change)
  | toMany {q : Query} (path : String) : Call s q (q.toMany s path).2
  | build {q : Query} : Call s q (q.build s).2
  | exec {q : Query} (c : Connection) (d : Database) : Call s q (q.exec s c d).query
  | child {q child next : Query} {mount : Mount} (found : q.children.lookup mount = some child)
      (call : Call s child next) : Call s q (q.modifyChild mount fun _ => next)

/-- The queries that calls lead to: one made anew, and the children of another. -/
inductive Reached (s : Settings) : Query → Prop where
  | new : Reached s {}
  | call {q next : Query} (reached : Reached s q) (call : Call s q next) : Reached s next
  | child {q child : Query} {mount : Mount} (reached : Reached s q)
      (found : q.children.lookup mount = some child) : Reached s child

end

theorem Sound.setSource (h : Sound s q) (entity : String) :
    Sound s (q.setSource s.schema entity) ∧ q.Evolves (q.setSource s.schema entity) := by
  unfold Query.setSource
  split
  · exact ⟨h.change ⟨fun _ he => he, rfl, rfl⟩ rfl (fun _ h => h) rfl
      (fun _ hc => (h.memo hc).congr rfl rfl rfl rfl) fun sub hm => h.subquery hm,
      fun _ he => he, rfl, rfl⟩
  · next hnone =>
    have evolves : q.Evolves (q.setSource s.schema entity) := by
      refine ⟨fun other ho => ?_, ?_, ?_⟩
      · simp [ho] at hnone
      · simp [Query.setSource, Query.edit, hnone]
      · simp [Query.setSource, Query.edit, hnone]
    rw [Query.setSource, if_neg hnone] at evolves
    exact ⟨h.change evolves rfl (fun _ h => h) rfl (by simp [Query.edit])
      fun sub hm => h.subquery hm, evolves⟩

mutual

theorem Call.sound {s : Settings} : ∀ {q next : Query}, Call s q next → Sound s q →
    Sound s next ∧ q.Evolves next
  | _, _, .setSource entity, h => h.setSource entity
  | _, _, .select fields, h => h.select fields
  | _, _, .selectWith path fields, h => by
      refine h.edit (fun _ he => he) rfl rfl ?_
      intro field hf
      simp only [Clauses.listed, List.flatMap_append, List.mem_append] at hf ⊢
      tauto
  | _, _, .selectExpression _, h => h.edit (fun _ he => he) rfl rfl fun _ hf => hf
  | q, _, .filter expression params subqueries, h => by
      have sound : ∀ sub, Param.subquery sub ∈ params → Sound s sub :=
        fun sub hm => (subqueries sub hm).sound
      have evolves : q.Evolves (q.filter expression params) := ⟨fun _ he => he, rfl, rfl⟩
      exact ⟨h.change evolves rfl (fun _ hf => hf) rfl (by simp [Query.filter, Query.edit]) sound,
        evolves⟩
  | _, _, .having _ _, h => h.edit (fun _ he => he) rfl rfl fun _ hf => hf
  | _, _, .order _, h => h.edit (fun _ he => he) rfl rfl fun _ hf => hf
  | _, _, .group _, h => h.edit (fun _ he => he) rfl rfl fun _ hf => hf
  | _, _, .limitWith _ _, h => h.edit (fun _ he => he) rfl rfl fun _ hf => hf
  | _, _, .limit _, h => by
      unfold Query.limit
      exact h.edit (fun _ he => he) rfl rfl fun _ hf => hf
  | _, _, .distinct, h => h.edit (fun _ he => he) rfl rfl fun _ hf => hf
  | _, _, .options _, h => h.edit (fun _ he => he) rfl rfl fun _ hf => hf
  | _, _, .index _, h => h.edit (fun _ he => he) rfl rfl fun _ hf => hf
  | _, _, .countWithoutLimit, h => h.edit (fun _ he => he) rfl rfl fun _ hf => hf
  | q, _, .listen change, h => by
      have evolves : q.Evolves (q.listen change) := ⟨fun _ he => he, rfl, rfl⟩
      exact ⟨h.change evolves rfl (fun _ hf => hf) rfl
        (fun _ hc => (h.memo hc).congr rfl rfl rfl rfl) fun sub hm => h.subquery hm, evolves⟩
  | _, _, .toMany path, h => h.toMany path
  | _, _, .build, h => by
      obtain ⟨sound, frames, -⟩ := h.build
      exact ⟨sound, frames.evolves⟩
  | _, _, .exec c d, h => h.exec c d
  | _, _, .child found call, h => by
      refine ⟨h.modifyChild fun other ho hs => ?_, (frames_modifyChild ..).evolves⟩
      rw [found, Option.some.injEq] at ho
      subst ho
      exact call.sound hs

theorem Reached.sound {s : Settings} : ∀ {q : Query}, Reached s q → Sound s q
  | _, .new => .new s
  | _, .call reached call => (call.sound reached.sound).1
  | _, .child reached found => reached.sound.child (Keyed.mem_of_lookup found)

end

theorem Reached.build {compiled : Compiled} (h : Reached s q)
    (hb : q.build s = (.ok compiled, next)) :
    Sound s next ∧ q.Frames next ∧ next.Compiles s compiled := by
  obtain ⟨sound, frames, compiles⟩ := h.sound.build
  rw [hb] at sound frames compiles
  exact ⟨sound, frames, compiles compiled rfl⟩

end Query

namespace Sample

def settings : Settings := { schema }

def customers : Query :=
  (((({} : Query).setSource schema "Customer").select "id").filter "\x7bname\x7d = ?"
    [.value (.text "?")])

def orders : Query :=
  ((((({} : Query).setSource schema "Order").select "total, customer.name").filter
    "\x7bcustomer.id\x7d IN ? AND \x7btotal\x7d > ?"
    [.subquery customers, .value (.ofInt64 100)]).limit 10).countWithoutLimit

theorem customers_reached : customers.Reached settings :=
  .call (.call (.call .new (.setSource (s := settings) "Customer")) (.select "id"))
    (.filter _ _ (by simp))

theorem orders_reached : orders.Reached settings := by
  refine .call (.call (.call (.call (.call .new (.setSource (s := settings) "Order"))
    (.select "total, customer.name")) (.filter _ _ ?_)) (.limit 10)) .countWithoutLimit
  intro sub hm
  simp only [List.mem_cons, Param.subquery.injEq, reduceCtorEq, List.not_mem_nil, or_false] at hm
  rw [hm]
  exact customers_reached

end Sample
end RowGraph
