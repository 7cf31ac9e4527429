import RowGraph.Proofs.Depth
import RowGraph.Proofs.Unbuilt

/-!
# Runs come to an end

While a query runs, the tree that the run goes through grows, and the schema is usually cyclic. What
bounds the run is how deep the tree can still go: that depth is enough for a fetch
(`Query.fetch_eq`), whatever the database answers. So a run reads finitely many of any sequence of
answers (`Query.Undotted.settles_exec`), and sends the statement of each query of the tree that it
leaves once at most (`Reached.exec_terminates`).
-/

namespace RowGraph

/-! ## Replies left -/

namespace Query

variable {s : Settings} {c : Connection} {n depth : Nat} {q : Query}

section replies

variable {fetch : Fetch}
  (hf : ∀ compiled q d, (fetch compiled q d).database.replies <:+ d.replies)

include hf

theorem replies_fetchChild (link : Link) (keys : List Value) (child : Query) (d : Database) :
    (fetchChild s fetch link keys child d).database.replies <:+ d.replies := by
  unfold fetchChild
  split
  · exact List.suffix_refl _
  · exact hf ..

theorem replies_fetchMounts (rows : List Row) (mounts : List MountPlan) (groups : Groups)
    (q : Query) (d : Database) :
    (fetchMounts s fetch rows mounts groups q d).database.replies <:+ d.replies := by
  induction mounts generalizing groups q d with
  | nil => exact List.suffix_refl _
  | cons m rest ih =>
      rcases fetchMounts_cons s rows m rest q with skip | ⟨child, link, keys, -, -, stopped, went⟩
      · rw [skip]
        exact ih ..
      · have ran := replies_fetchChild (s := s) hf link keys child d
        cases hr : (fetchChild s fetch link keys child d).result with
        | error f =>
            rw [stopped hr]
            exact ran
        | ok group =>
            rw [went hr]
            exact (ih ..).trans ran

end replies

theorem replies_fetchWithin (s : Settings) (c : Connection) (depth : Nat) (compiled : Compiled)
    (q : Query) (d : Database) :
    (fetchWithin s c depth compiled q d).database.replies <:+ d.replies := by
  induction depth generalizing compiled q d with
  | zero =>
      have replies := Database.replies_query d c compiled.statement
      unfold fetchWithin
      split <;> next h => rwa [h] at replies
  | succ depth ih =>
      have replies := Database.replies_query d c compiled.statement
      unfold fetchWithin
      split
      · next h => rwa [h] at replies
      · next h =>
        rw [h] at replies
        exact (replies_fetchMounts ih ..).trans replies

/-! ## Depth enough -/

theorem fetchMounts_childless (fetch : Fetch) (rows : List Row) (mounts : List MountPlan)
    (groups : Groups) (childless : q.children = []) (d : Database) :
    fetchMounts s fetch rows mounts groups q d = ⟨.ok groups, q, d⟩ := by
  induction mounts with
  | nil => rfl
  | cons m rest ih =>
      simp only [fetchMounts, childless, List.lookup_nil]
      exact ih

section enough

variable (undotted : s.schema.Undotted)

include undotted

theorem fetchChild_succ (same : ∀ {compiled : Compiled} {q : Query} {d : Database},
      q.Fits depth ∨ d.replies.length ≤ depth →
      fetchWithin s c (depth + 1) compiled q d = fetchWithin s c depth compiled q d)
    (link : Link) (keys : List Value) {child : Query} {d : Database}
    (enough : child.Fits depth ∨ d.replies.length ≤ depth) :
    fetchChild s (fetchWithin s c (depth + 1)) link keys child d =
      fetchChild s (fetchWithin s c depth) link keys child d := by
  have built := enough.imp_left fun fits => fits.buildFor undotted link keys
  unfold fetchChild
  cases hb : (child.setOwnerKeys link keys).build s with
  | mk result next =>
      rw [hb] at built
      cases result with
      | error faults => rfl
      | ok compiled =>
          dsimp only
          rw [same built]

theorem fetchMounts_succ (same : ∀ {compiled : Compiled} {q : Query} {d : Database},
      q.Fits depth ∨ d.replies.length ≤ depth →
      fetchWithin s c (depth + 1) compiled q d = fetchWithin s c depth compiled q d)
    (rows : List Row) (mounts : List MountPlan) (groups : Groups) {d : Database}
    (enough : q.Fits (depth + 1) ∨ d.replies.length ≤ depth) :
    fetchMounts s (fetchWithin s c (depth + 1)) rows mounts groups q d =
      fetchMounts s (fetchWithin s c depth) rows mounts groups q d := by
  induction mounts generalizing groups q d with
  | nil => rfl
  | cons m rest ih =>
      rcases fetchMounts_cons s rows m rest q with
        skip | ⟨child, link, keys, found, -, stopped, went⟩
      · rw [skip, skip]
        exact ih groups enough
      · have inner : child.Fits depth ∨ d.replies.length ≤ depth := by
          refine enough.imp_left fun fits => ?_
          obtain ⟨below, room, inside⟩ := fits.child found
          obtain rfl := Nat.succ.inj room
          exact inside
        have ran := fetchChild_succ undotted same link keys inner
        cases hr : (fetchChild s (fetchWithin s c depth) link keys child d).result with
        | error f => rw [stopped hr, stopped (by rw [ran]; exact hr), ran]
        | ok group =>
            rw [went hr, went (by rw [ran]; exact hr), ran]
            refine ih _ (enough.imp (fun fits => ?_) fun few => ?_)
            · refine fits.modifyChild fun held below there _ inside => ?_
              rw [found, Option.some.injEq] at there
              subst there
              exact inside.fetchChild undotted (fun fits => fits.fetchWithin undotted c depth _ _)
                link keys d
            · exact (replies_fetchChild (replies_fetchWithin s c depth) link keys child
                d).length_le.trans few

theorem fetchWithin_succ {compiled : Compiled} {d : Database}
    (enough : q.Fits depth ∨ d.replies.length ≤ depth) :
    fetchWithin s c (depth + 1) compiled q d = fetchWithin s c depth compiled q d := by
  induction depth generalizing compiled q d with
  | zero =>
      unfold fetchWithin
      cases hq : d.query c compiled.statement with
      | mk reply after =>
          cases reply with
          | error f => rfl
          | ok rows =>
              dsimp only
              rcases enough with fits | none
              · have childless : q.children = [] := by
                  refine List.eq_nil_iff_forall_not_mem.mpr fun entry held => ?_
                  obtain ⟨below, room, -⟩ := (fits_iff.mp fits).2.2 entry held
                  cases room
                rw [fetchMounts_childless _ _ _ _ childless]
              · rcases Database.query_ok hq with ⟨rfl, -⟩ | replied
                · rw [fetchMounts_no_rows]
                · rw [replied] at none
                  cases none
  | succ depth ih =>
      rw [fetchWithin, fetchWithin]
      cases hq : d.query c compiled.statement with
      | mk reply after =>
          cases reply with
          | error f => rfl
          | ok rows =>
              dsimp only
              rcases Database.query_ok hq with ⟨rfl, -⟩ | replied
              · rw [fetchMounts_no_rows, fetchMounts_no_rows]
              · rw [fetchMounts_succ undotted ih]
                refine enough.imp_right fun few => ?_
                rw [replied, List.length_cons] at few
                exact Nat.le_of_succ_le_succ few

theorem fetchWithin_of_le {compiled : Compiled} {d : Database}
    (enough : q.Fits n ∨ d.replies.length ≤ n) (more : n ≤ depth) :
    fetchWithin s c depth compiled q d = fetchWithin s c n compiled q d := by
  induction more with
  | refl => rfl
  | @step most below ih =>
      have still : q.Fits most ∨ d.replies.length ≤ most :=
        enough.imp (fun fits => ⟨fits.1, fits.2.trans below⟩) fun few => few.trans below
      rw [Nat.succ_eq_add_one, fetchWithin_succ undotted still, ih]

/-- A fetch goes no deeper than the tree can, however many replies there are. -/
theorem fetch_eq (fits : q.Fits n) (c : Connection) (compiled : Compiled) (d : Database) :
    fetch s c compiled q d = fetchWithin s c n compiled q d := by
  have long : fetchWithin s c (d.replies.length + n) compiled q d =
      fetchWithin s c d.replies.length compiled q d :=
    fetchWithin_of_le undotted (.inr (Nat.le_refl _)) (Nat.le_add_right ..)
  have deep : fetchWithin s c (d.replies.length + n) compiled q d =
      fetchWithin s c n compiled q d :=
    fetchWithin_of_le undotted (.inl fits) (Nat.le_add_left ..)
  rw [fetch, ← long, deep]

end enough

end Query

/-! ## Sequences of answers -/

def Database.answering (d : Database) (replies : List Reply) : Database := { d with replies }

def Ran.answering {α : Type} (r : Ran α) (replies : List Reply) : Ran α :=
  { r with database := r.database.answering replies }

def Run.answering (r : Run) (replies : List Reply) : Run :=
  { r with database := r.database.answering replies }

def Listeners.action (l : Listeners) : Action := if l.any then .stream else .query

/-- Something that reads replies is done after finitely many of a sequence of answers: it comes out
the same whatever follows, and leaves what follows to be read. -/
def Settles {α : Type} (leaving : α → List Reply → α) (answers : Nat → Reply)
    (run : List Reply → α) : Prop :=
  ∃ n outcome, ∀ more, run ((List.range n).map answers ++ more) = leaving outcome more

theorem answers_add (answers : Nat → Reply) (n m : Nat) (more : List Reply) :
    (List.range (n + m)).map answers ++ more =
      (List.range n).map answers ++ ((List.range m).map (fun i => answers (n + i)) ++ more) := by
  rw [List.range_add, List.map_append, List.map_map, List.append_assoc]
  rfl

abbrev leavingSecond {α : Type} (answer : α × Database) (replies : List Reply) : α × Database :=
  (answer.1, answer.2.answering replies)

namespace Database

theorem settles_reply (d : Database) (c : Connection) (answers : Nat → Reply) :
    Settles leavingSecond answers fun replies => (d.answering replies).reply c := by
  by_cases own : c.acquired
  · refine ⟨0, (.rows [], d), fun more => ?_⟩
    dsimp only
    rw [reply, if_pos own]
    rfl
  · refine ⟨1, (answers 0, d), fun more => ?_⟩
    dsimp only
    rw [reply, if_neg own]
    rfl

theorem settles_query (d : Database) (c : Connection) (statement : Sql.Statement)
    (answers : Nat → Reply) :
    Settles leavingSecond answers fun replies => (d.answering replies).query c statement := by
  obtain ⟨n, ⟨reply, after⟩, first⟩ := (d.record c .query statement).settles_reply c answers
  have record : ∀ replies, (d.answering replies).record c .query statement =
      (d.record c .query statement).answering replies := fun _ => rfl
  cases reply with
  | rows rows => exact ⟨n, (.ok rows, after), fun more => by simp only [query, record, first]⟩
  | failure delivered f =>
      exact ⟨n, (.error f, after), fun more => by simp only [query, record, first]⟩

theorem settles_stream (d : Database) (c : Connection) (statement : Sql.Statement)
    (answers : Nat → Reply) :
    Settles (fun reply more => (reply.1, leavingSecond reply.2 more)) answers fun replies =>
      (d.answering replies).stream c statement := by
  obtain ⟨n, ⟨reply, after⟩, first⟩ := (d.record c .stream statement).settles_reply c answers
  have record : ∀ replies, (d.answering replies).record c .stream statement =
      (d.record c .stream statement).answering replies := fun _ => rfl
  cases reply with
  | rows rows => exact ⟨n, (rows, none, after), fun more => by simp only [stream, record, first]⟩
  | failure rows f =>
      exact ⟨n, (rows, some f, after), fun more => by simp only [stream, record, first]⟩

theorem settles_count (d : Database) (c : Connection) (statement : Sql.Statement)
    (answers : Nat → Reply) :
    Settles leavingSecond answers fun replies => (d.answering replies).count c statement := by
  obtain ⟨n, ⟨reply, after⟩, first⟩ := d.settles_query c statement answers
  cases reply with
  | error f =>
      exact ⟨n, (.error (.database f), after), fun more => by simp only [count, first]⟩
  | ok rows => exact ⟨n, (countOf rows, after), fun more => by simp only [count, first]⟩

end Database

namespace Query

variable {s : Settings} {c : Connection} {answers : Nat → Reply}

def Fetch.Settles (fetch : Fetch) : Prop :=
  ∀ (compiled : Compiled) (q : Query) (d : Database) (answers : Nat → Reply),
    RowGraph.Settles Ran.answering answers fun replies => fetch compiled q (d.answering replies)

theorem settles_fetchChild {fetch : Fetch} (hf : fetch.Settles) (s : Settings) (link : Link)
    (keys : List Value) (child : Query) (d : Database) (answers : Nat → Reply) :
    Settles Ran.answering answers fun replies =>
      fetchChild s fetch link keys child (d.answering replies) := by
  unfold fetchChild
  cases (child.setOwnerKeys link keys).build s with
  | mk result next =>
      cases result with
      | error faults => exact ⟨0, ⟨.error (.build faults), next, d⟩, fun _ => rfl⟩
      | ok compiled =>
          obtain ⟨n, r, fetched⟩ := hf compiled next d answers
          exact ⟨n, { r with
            result := r.result.map fun found =>
              grouped compiled.plan link.foreignKey found.1 found.2 }, fun more => by
            simp only [fetched]
            rfl⟩

theorem settles_fetchMounts {fetch : Fetch} (hf : fetch.Settles) (s : Settings) (rows : List Row)
    (mounts : List MountPlan) (groups : Groups) (q : Query) (d : Database)
    (answers : Nat → Reply) : Settles Ran.answering answers fun replies =>
      fetchMounts s fetch rows mounts groups q (d.answering replies) := by
  induction mounts generalizing groups q d answers with
  | nil => exact ⟨0, ⟨.ok groups, q, d⟩, fun _ => rfl⟩
  | cons m rest ih =>
      rcases fetchMounts_cons s rows m rest q with skip | ⟨child, link, keys, -, -, stopped, went⟩
      · simp only [skip]
        exact ih ..
      · obtain ⟨n, ⟨result, ran, after⟩, fetched⟩ :=
          settles_fetchChild hf s link keys child d answers
        dsimp only at fetched
        cases result with
        | error f =>
            refine ⟨n, ⟨.error f, q.modifyChild m.mount fun _ => ran, after⟩, fun more => ?_⟩
            dsimp only
            rw [stopped (congrArg Ran.result (fetched more)), fetched]
            rfl
        | ok group =>
            obtain ⟨k, r, later⟩ := ih (Keyed.put m.mount group groups)
              (q.modifyChild m.mount fun _ => ran) after fun i => answers (n + i)
            refine ⟨n + k, r, fun more => ?_⟩
            dsimp only
            rw [answers_add, went (congrArg Ran.result (fetched _)), fetched]
            exact later more

theorem settles_fetchWithin (s : Settings) (c : Connection) (depth : Nat) :
    (fetchWithin s c depth).Settles := by
  induction depth with
  | zero =>
      intro compiled q d answers
      obtain ⟨n, ⟨reply, after⟩, first⟩ := d.settles_query c compiled.statement answers
      cases reply with
      | error f =>
          refine ⟨n, ⟨.error (.database f), q, after⟩, fun more => ?_⟩
          simp only [fetchWithin, first]
          rfl
      | ok rows =>
          refine ⟨n, ⟨.ok (rows, []), q, after⟩, fun more => ?_⟩
          simp only [fetchWithin, first]
          rfl
  | succ depth ih =>
      intro compiled q d answers
      obtain ⟨n, ⟨reply, after⟩, first⟩ := d.settles_query c compiled.statement answers
      cases reply with
      | error f =>
          refine ⟨n, ⟨.error (.database f), q, after⟩, fun more => ?_⟩
          simp only [fetchWithin, first]
          rfl
      | ok rows =>
          obtain ⟨k, r, fetched⟩ := settles_fetchMounts ih s rows compiled.plan.mounts [] q after
            fun i => answers (n + i)
          refine ⟨n + k, { r with result := r.result.map fun groups => (rows, groups) },
            fun more => ?_⟩
          simp only [fetchWithin, answers_add, first, fetched]
          rfl

theorem settles_collect (undotted : s.schema.Undotted) {q : Query} {n : Nat} (fits : q.Fits n)
    (c : Connection) (compiled : Compiled) (d : Database) (answers : Nat → Reply) :
    Settles Run.answering answers fun replies => q.collect s c compiled (d.answering replies) := by
  obtain ⟨n, ⟨result, ran, after⟩, fetched⟩ := settles_fetchWithin s c n compiled q d answers
  simp only [collect, fetch_eq undotted fits]
  cases result with
  | error f =>
      refine ⟨n, ⟨.error f, [], ran, after⟩, fun more => ?_⟩
      simp only [fetched]
      rfl
  | ok found =>
      obtain ⟨rows, groups⟩ := found
      cases counts : compiled.countStatement with
      | none =>
          refine ⟨n, ⟨.ok (.items (compiled.plan.mapRows groups rows)), [], ran, after⟩,
            fun more => ?_⟩
          simp only [fetched]
          rfl
      | some statement =>
          obtain ⟨k, ⟨total, last⟩, counted⟩ :=
            after.settles_count c statement fun i => answers (n + i)
          refine ⟨n + k, ⟨total.map (.counted (compiled.plan.mapRows groups rows)), [], ran, last⟩,
            fun more => ?_⟩
          simp only [answers_add, fetched, Ran.answering, counted]
          rfl

theorem settles_stream (c : Connection) (compiled : Compiled) (q : Query) (d : Database)
    (answers : Nat → Reply) :
    Settles Run.answering answers fun replies => q.stream c compiled (d.answering replies) := by
  obtain ⟨n, ⟨rows, failure, after⟩, found⟩ := d.settles_stream c compiled.statement answers
  cases failure with
  | some f =>
      exact ⟨n, ⟨.error (.database f), _, q, after⟩, fun more => by
        simp only [stream, found]
        rfl⟩
  | none =>
      cases counts : compiled.countStatement with
      | none =>
          exact ⟨n, ⟨.ok (.streamed none), _, q, after⟩, fun more => by
            simp only [stream, found, counts]
            rfl⟩
      | some statement =>
          obtain ⟨k, ⟨total, last⟩, counted⟩ :=
            after.settles_count c statement fun i => answers (n + i)
          cases total with
          | error f =>
              exact ⟨n + k, ⟨.error f, _, q, last⟩, fun more => by
                simp only [answers_add, stream, found, counts, counted]
                rfl⟩
          | ok total =>
              exact ⟨n + k, ⟨.ok (.streamed (some total)), _, q, last⟩, fun more => by
                simp only [answers_add, stream, found, counts, counted]
                rfl⟩

theorem Undotted.settles_exec (schema : s.schema.Undotted) {q : Query} (undotted : q.Undotted)
    (c : Connection) (d : Database) (answers : Nat → Reply) :
    Settles Run.answering answers fun replies => q.exec s c (d.answering replies) := by
  have fits := undotted.fits.build schema
  unfold exec
  split
  · exact ⟨0, ⟨_, [], q, d⟩, fun _ => rfl⟩
  · cases hb : q.build s with
    | mk result next =>
        rw [hb] at fits
        cases result with
        | error faults => exact ⟨0, ⟨_, [], next, d⟩, fun _ => rfl⟩
        | ok compiled =>
            dsimp only
            split
            · split
              · exact settles_stream c compiled next d answers
              · exact ⟨0, ⟨_, [], next, d⟩, fun _ => rfl⟩
            · exact settles_collect schema fits c compiled d answers

/-! ## Statements of the tree -/

def statementAt? (q : Query) (path : List Mount) : Option Sql.Statement :=
  ((q.child? path).bind (·.compiled)).map (·.statement)

/-- The calls made between two databases: each sends the statement of a query in a tree, and no
query's statement is sent twice. -/
structure Visits (c : Connection) (action : Action) (before : Database) (q : Query)
    (after : Database) (visits : List (List Mount × Sql.Statement)) : Prop where
  once : (visits.map Prod.fst).Nodup
  held : ∀ visit ∈ visits, q.statementAt? visit.1 = some visit.2
  calls : after.calls = before.calls ++ visits.map fun visit => ⟨c.acquired, action, visit.2⟩

theorem Visits.none (c : Connection) (action : Action) (d : Database) (q : Query) :
    Visits c action d q d [] :=
  ⟨.nil, by simp, by simp⟩

theorem Visits.root {action : Action} {before after : Database} {q : Query} {compiled : Compiled}
    (held : q.compiled = some compiled)
    (calls : after.calls = before.calls ++ [⟨c.acquired, action, compiled.statement⟩]) :
    Visits c action before q after [([], compiled.statement)] := by
  refine ⟨List.nodup_singleton _, fun visit only => ?_, calls⟩
  rw [List.mem_singleton.mp only]
  simp [statementAt?, child?, held]

theorem statementAt?_cons {q child : Query} {mount : Mount}
    (found : q.children.lookup mount = some child) (path : List Mount) :
    q.statementAt? (mount :: path) = child.statementAt? path := by
  rw [statementAt?, child?, found]
  rfl

def Under (mounts : List Mount) (visits : List (List Mount × Sql.Statement)) : Prop :=
  ∀ visit ∈ visits, ∃ mount ∈ mounts, ∃ rest, visit.1 = mount :: rest

theorem Under.mono {mounts others : List Mount} {visits : List (List Mount × Sql.Statement)}
    (h : Under mounts visits) (subset : mounts ⊆ others) : Under others visits := by
  intro visit held
  obtain ⟨mount, hm, path⟩ := h visit held
  exact ⟨mount, subset hm, path⟩

def within (mount : Mount) (visit : List Mount × Sql.Statement) : List Mount × Sql.Statement :=
  (mount :: visit.1, visit.2)

theorem under_within (mount : Mount) (visits : List (List Mount × Sql.Statement)) :
    Under [mount] (visits.map (within mount)) := by
  intro visit held
  obtain ⟨inner, -, rfl⟩ := List.mem_map.mp held
  exact ⟨mount, List.mem_singleton_self _, inner.1, rfl⟩

section visits

variable {action : Action} {before middle after : Database} {q child : Query} {mount : Mount}
  {visits front back : List (List Mount × Sql.Statement)}

theorem Visits.within (h : Visits c action before child after visits)
    (found : q.children.lookup mount = some child) :
    Visits c action before q after (visits.map (within mount)) := by
  refine ⟨?_, fun visit held => ?_, ?_⟩
  · have paths := h.once.map (List.cons_injective (a := mount))
    rwa [List.map_map] at paths ⊢
  · obtain ⟨inner, hi, rfl⟩ := List.mem_map.mp held
    rw [Query.within, statementAt?_cons found]
    exact h.held inner hi
  · rw [h.calls, List.map_map]
    rfl

theorem Visits.append (h : Visits c action before q middle front)
    (hb : Visits c action middle q after back)
    (apart : ∀ visit ∈ front, ∀ other ∈ back, visit.1 ≠ other.1) :
    Visits c action before q after (front ++ back) := by
  refine ⟨?_, fun visit held => ?_, ?_⟩
  · rw [List.map_append, List.nodup_append]
    refine ⟨h.once, hb.once, fun path hf other ho => ?_⟩
    obtain ⟨visit, hv, rfl⟩ := List.mem_map.mp hf
    obtain ⟨later, hl, rfl⟩ := List.mem_map.mp ho
    exact apart visit hv later hl
  · exact (List.mem_append.mp held).elim (h.held visit) (hb.held visit)
  · rw [hb.calls, h.calls, List.map_append, List.append_assoc]

theorem Under.apart {mounts others : List Mount} (hf : Under mounts front)
    (hb : Under others back) (disjoint : mounts.Disjoint others) :
    ∀ visit ∈ front, ∀ other ∈ back, visit.1 ≠ other.1 := by
  intro visit hv other ho same
  obtain ⟨mount, hm, rest, path⟩ := hf visit hv
  obtain ⟨mount', hm', rest', path'⟩ := hb other ho
  rw [path, path'] at same
  exact disjoint hm ((List.cons.inj same).1 ▸ hm')

end visits

theorem compiled_fetchMounts (fetch : Fetch) (rows : List Row) (mounts : List MountPlan)
    (groups : Groups) (q : Query) (d : Database) :
    (fetchMounts s fetch rows mounts groups q d).query.compiled = q.compiled := by
  induction mounts generalizing groups q d with
  | nil => rfl
  | cons m rest ih =>
      rcases fetchMounts_cons s rows m rest q with skip | ⟨child, link, keys, -, -, stopped, went⟩
      · rw [skip]
        exact ih ..
      · cases hr : (fetchChild s fetch link keys child d).result with
        | error f => rw [stopped hr]; rfl
        | ok group =>
            rw [went hr]
            exact ih ..

theorem lookup_fetchMounts (fetch : Fetch) (rows : List Row) {mounts : List MountPlan}
    {other : Mount} (apart : other ∉ mounts.map (·.mount)) (groups : Groups) (q : Query)
    (d : Database) : (fetchMounts s fetch rows mounts groups q d).query.children.lookup other =
      q.children.lookup other := by
  induction mounts generalizing groups q d with
  | nil => rfl
  | cons m rest ih =>
      rw [List.map_cons, List.mem_cons, not_or] at apart
      rcases fetchMounts_cons s rows m rest q with skip | ⟨child, link, keys, -, -, stopped, went⟩
      · rw [skip]
        exact ih apart.2 ..
      · have changed : ∀ ran : Query, (q.modifyChild m.mount fun _ => ran).children.lookup other =
            q.children.lookup other := by
          intro ran
          rw [modifyChild, Keyed.lookup_modify, if_neg apart.1]
        cases hr : (fetchChild s fetch link keys child d).result with
        | error f =>
            rw [stopped hr]
            exact changed _
        | ok group =>
            rw [went hr]
            exact (ih apart.2 ..).trans (changed _)

def Fetch.Once (s : Settings) (c : Connection) (fetch : Fetch) : Prop :=
  ∀ {compiled : Compiled} {q : Query}, Sound s q → q.Orderly → q.Compiles s compiled →
    q.compiled = some compiled → ∀ d : Database, ∃ visits,
      Visits c .query d (fetch compiled q d).query (fetch compiled q d).database visits

theorem fetchChild_once {fetch : Fetch} (hf : fetch.Once s c) {link : Link} {child : Query}
    (linked : child.link = some link) (keys : List Value) (sound : Sound s child)
    (orderly : child.Orderly) (d : Database) : ∃ visits,
      Visits c .query d (fetchChild s fetch link keys child d).query
        (fetchChild s fetch link keys child d).database visits := by
  unfold fetchChild
  cases hb : (child.setOwnerKeys link keys).build s with
  | mk result next =>
      cases result with
      | error faults => exact ⟨[], .none ..⟩
      | ok compiled =>
          obtain ⟨built, compiles, -, -⟩ := sound.buildFor linked hb
          have tidy := (orderly.setOwnerKeys link keys).build hb
          exact hf built tidy compiles (compiled_of_build hb) d

theorem fetchMounts_once {fetch : Fetch} (hf : fetch.Once s c) {rows : List Row}
    {mounts : List MountPlan} (apart : (mounts.map (·.mount)).Nodup) {q : Query}
    (ready : ∀ m ∈ mounts, ∀ child, q.children.lookup m.mount = some child →
      Sound s child ∧ child.Orderly) (groups : Groups) (d : Database) :
    ∃ visits, Visits c .query d (fetchMounts s fetch rows mounts groups q d).query
        (fetchMounts s fetch rows mounts groups q d).database visits ∧
      Under (mounts.map (·.mount)) visits := by
  induction mounts generalizing q groups d with
  | nil => exact ⟨[], .none .., by simp [Under]⟩
  | cons m rest ih =>
      rw [List.map_cons, List.nodup_cons] at apart
      rw [List.forall_mem_cons] at ready
      rw [List.map_cons]
      rcases fetchMounts_cons s rows m rest q with
        skip | ⟨child, link, keys, found, linked, stopped, went⟩
      · rw [skip]
        obtain ⟨visits, later, below⟩ := ih apart.2 ready.2 groups d
        exact ⟨visits, later, below.mono (List.subset_cons_self ..)⟩
      · obtain ⟨sound, orderly⟩ := ready.1 child found
        obtain ⟨inner, ran⟩ := fetchChild_once hf linked keys sound orderly d
        have here := lookup_modifyChild found fun _ => (fetchChild s fetch link keys child d).query
        have under := under_within m.mount inner
        have first : [m.mount] ⊆ m.mount :: rest.map (·.mount) := by simp
        cases hr : (fetchChild s fetch link keys child d).result with
        | error f =>
            rw [stopped hr]
            exact ⟨_, ran.within here, under.mono first⟩
        | ok group =>
            rw [went hr]
            generalize fetchChild s fetch link keys child d = r at ran here ⊢
            -- the child that ran is left as it is by the fetches of the others
            have readyLater : ∀ other ∈ rest, ∀ child,
                (q.modifyChild m.mount fun _ => r.query).children.lookup other.mount = some child →
                Sound s child ∧ child.Orderly := by
              intro other ho child held
              rw [lookup_ran apart.1 (fun _ _ => rfl) r.query other ho] at held
              exact ready.2 other ho child held
            obtain ⟨visits, later, below⟩ :=
              ih apart.2 readyLater (Keyed.put m.mount group groups) r.database
            have kept := lookup_fetchMounts (s := s) fetch rows apart.1
              (Keyed.put m.mount group groups) (q.modifyChild m.mount fun _ => r.query) r.database
            have disjoint : [m.mount].Disjoint (rest.map (·.mount)) :=
              List.singleton_disjoint.mpr apart.1
            refine ⟨_, (ran.within (kept.trans here)).append later (under.apart below disjoint),
              fun visit held => ?_⟩
            exact (List.mem_append.mp held).elim (under.mono first visit)
              (below.mono (List.subset_cons_self ..) visit)

theorem fetchWithin_once (s : Settings) (c : Connection) (depth : Nat) :
    (fetchWithin s c depth).Once s c := by
  -- the query itself comes first, and the visits below it have longer paths
  induction depth with
  | zero =>
      intro compiled q sound orderly compiles held d
      have calls := Database.calls_query d c compiled.statement
      unfold fetchWithin
      split <;> next h =>
        rw [h] at calls
        exact ⟨_, .root held calls⟩
  | succ depth ih =>
      intro compiled q sound orderly compiles held d
      have calls := Database.calls_query d c compiled.statement
      unfold fetchWithin
      split
      · next h =>
        rw [h] at calls
        exact ⟨_, .root held calls⟩
      · next rows after h =>
        rw [h] at calls
        have ready : ∀ m ∈ compiled.plan.mounts, ∀ child,
            q.children.lookup m.mount = some child → Sound s child ∧ child.Orderly :=
          fun m _ child found => ⟨sound.child (Keyed.mem_of_lookup found), orderly.child found⟩
        obtain ⟨visits, later, below⟩ :=
          fetchMounts_once ih (orderly.mounts.sublist compiles.mounts) ready [] after
        have kept := compiled_fetchMounts (s := s) (fetchWithin s c depth) rows
          compiled.plan.mounts [] q after
        refine ⟨_, (Visits.root (kept.trans held) calls).append later fun visit first other ho => ?_⟩
        obtain ⟨m, -, rest, path⟩ := below other ho
        rw [List.mem_singleton.mp first, path]
        exact (List.cons_ne_nil _ _).symm

/-! ## Whole runs -/

theorem compiled_fetchWithin (s : Settings) (c : Connection) (depth : Nat) (compiled : Compiled)
    (q : Query) (d : Database) :
    (fetchWithin s c depth compiled q d).query.compiled = q.compiled := by
  unfold fetchWithin
  split
  · rfl
  · cases depth with
    | zero => rfl
    | succ depth => exact compiled_fetchMounts ..

def Counts (c : Connection) (q : Query) (fetched after : Database) : Prop :=
  ∃ counts : List Sql.Statement,
    counts.Sublist (q.compiled.bind Compiled.countStatement).toList ∧
      after.calls = fetched.calls ++ counts.map fun statement => ⟨c.acquired, .query, statement⟩

section counts

variable {q : Query} {compiled : Compiled} {fetched after : Database}

theorem Counts.none (calls : after.calls = fetched.calls) : Counts c q fetched after :=
  ⟨[], List.nil_sublist _, by rw [calls, List.map_nil, List.append_nil]⟩

theorem Counts.one (held : q.compiled = some compiled) {statement : Sql.Statement}
    (counted : compiled.countStatement = some statement)
    (calls : after.calls = fetched.calls ++ [⟨c.acquired, .query, statement⟩]) :
    Counts c q fetched after := by
  refine ⟨[statement], ?_, calls⟩
  rw [held, Option.bind_some, counted]
  exact List.Sublist.refl _

theorem Ends.counts {failure : Option Failure} {run : Run} (h : Ends c compiled fetched failure run)
    (held : q.compiled = some compiled) : Counts c q fetched run.database := by
  cases h with
  | failed _ database | uncounted _ _ database => exact .none (by rw [database])
  | counted counted _ _ database calls | uncountable counted _ _ database calls =>
      exact .one held counted (by rw [database]; exact calls)

theorem counts_stream (held : q.compiled = some compiled) (d : Database) :
    ∃ fetched : Database,
      fetched.calls = d.calls ++ [⟨c.acquired, .stream, compiled.statement⟩] ∧
        Counts c q fetched (q.stream c compiled d).database := by
  have streamed : (d.stream c compiled.statement).2.2.calls =
      d.calls ++ [⟨c.acquired, .stream, compiled.statement⟩] := by
    have reply := (d.record c .stream compiled.statement).calls_reply c
    unfold Database.stream
    split <;> next h =>
      rw [h] at reply
      exact reply
  refine ⟨_, streamed, ?_⟩
  unfold stream
  cases hs : d.stream c compiled.statement with
  | mk rows rest =>
      obtain ⟨failure, after⟩ := rest
      cases failure with
      | some f => exact .none rfl
      | none =>
          cases hc : compiled.countStatement with
          | none => exact .none rfl
          | some statement =>
              have calls := Database.calls_query after c statement
              refine .one held hc ?_
              dsimp only [Database.count]
              cases hq : after.query c statement with
              | mk reply last =>
                  rw [hq] at calls
                  cases reply with
                  | error f => exact calls
                  | ok rows =>
                      dsimp only
                      cases countOf rows <;> exact calls

end counts

/-- What the calls of a run are: the statements of queries of the tree that the run leaves, each
once at most, and then the counting statement if that was asked for. -/
def Rounds (c : Connection) (action : Action) (before : Database) (q : Query)
    (after : Database) : Prop :=
  ∃ visits fetched, Visits c action before q fetched visits ∧ Counts c q fetched after

theorem Rounds.none (c : Connection) (action : Action) (d : Database) (q : Query) :
    Rounds c action d q d :=
  ⟨[], d, .none .., .none rfl⟩

theorem exec_rounds {q : Query} (sound : Sound s q) (orderly : q.Orderly) (c : Connection)
    (d : Database) :
    Rounds c q.listeners.action d (q.exec s c d).query (q.exec s c d).database := by
  obtain ⟨kept, frames, compiles⟩ := sound.build
  unfold exec
  split
  · exact .none ..
  · cases hb : q.build s with
    | mk result next =>
        rw [hb] at kept frames compiles
        cases result with
        | error faults => exact .none ..
        | ok compiled =>
            have held := compiled_of_build hb
            dsimp only
            rw [frames.listeners]
            split
            · next any =>
              split
              · obtain ⟨fetched, calls, counts⟩ := counts_stream (c := c) held d
                rw [query_stream, Listeners.action, if_pos any]
                exact ⟨_, fetched, .root held calls, counts⟩
              · exact .none ..
            · next none =>
              obtain ⟨visits, visited⟩ := fetchWithin_once s c d.replies.length kept
                (orderly.build hb) (compiles compiled rfl) held d
              have same := compiled_fetchWithin s c d.replies.length compiled next d
              rw [query_collect, Listeners.action, if_neg none]
              exact ⟨visits, _, visited,
                (collect_ends s c compiled next d).counts (same.trans held)⟩

/-! ## Termination -/

/-- A run comes to an end: whatever the database answers, it reads finitely many answers; the tree
gets no deeper than it was and its longest field allow; and no statement is sent twice. -/
structure Terminates (s : Settings) (c : Connection) (q : Query) (d : Database) : Prop where
  settles : ∀ answers, Settles Run.answering answers fun replies =>
    q.exec s c (d.answering replies)
  built : (q.build s).2.depth ≤ q.depth + q.longest
  ran : (q.exec s c d).query.depth ≤ q.depth + q.longest
  rounds : Rounds c q.listeners.action d (q.exec s c d).query (q.exec s c d).database

/-- Building and running a query terminates, as what a compiled query gives to its children is
shorter than what it was given. -/
theorem Reached.exec_terminates {q : Query} (schema : s.schema.Undotted) (reached : q.Reached s)
    (c : Connection) (d : Database) :
    (∀ compiled : Query, compiled.Shortens s) ∧ q.Terminates s c d := by
  have undotted := reached.undotted schema
  have fits : q.Fits (q.depth + q.longest) := ⟨undotted, q.reach_bounds.2⟩
  refine ⟨shortens s, undotted.settles_exec schema c d, ?_, ?_, ?_⟩
  · exact (fits.build schema).depth_le
  · exact (fits.exec schema c d).depth_le
  · exact exec_rounds reached.sound reached.orderly c d

end Query

namespace Sample

def circle : Query :=
  (({} : Query).setSource schema "Customer").select "name, orders.customer.orders.total"

theorem circle_reached : circle.Reached settings :=
  .call (.call .new (.setSource (s := settings) "Customer")) (.select _)

def circleReplies : Database :=
  { replies := [
      .rows [[("#0.name", .text "Ada"), ("#0.id", .ofInt64 7)]],
      .rows [[("#0.customerId", .ofInt64 7), ("#1.id", .ofInt64 7)]],
      .rows [[("#0.total", .ofInt64 150), ("#0.customerId", .ofInt64 7)]]] }

end Sample

theorem Query.Reached.exec_terminates_circle :
    Sample.circle.depth = 0 ∧ Sample.circle.longest = 4 ∧
      ((∀ compiled : Query, compiled.Shortens Sample.settings) ∧
        Sample.circle.Terminates Sample.settings {} Sample.circleReplies) ∧
      (Sample.circle.exec Sample.settings {} Sample.circleReplies).query.depth = 2 ∧
      (Sample.circle.exec Sample.settings {} Sample.circleReplies).database.calls.length = 3 :=
  ⟨by decide +kernel, by decide +kernel,
    Reached.exec_terminates
      (Schema.wellFormed_ofDeclarations Sample.declared Sample.plain).undotted
      Sample.circle_reached {} Sample.circleReplies,
    by decide +kernel, by decide +kernel⟩

namespace Sample

def nodeDeclarations : List Declaration :=
  [{ name := "Node"
     parts := [.column "id", .column "next.id", .toMany "next" "Node" "next.id"] }]

def nodeSchema : Schema :=
  match Schema.ofDeclarations nodeDeclarations with
  | .ok s => s
  | .error _ => { entities := [] }

def nodeSettings : Settings := { schema := nodeSchema }

def nodes : Query := (({} : Query).setSource nodeSchema "Node").select "next.id"

theorem nodes_reached : nodes.Reached nodeSettings :=
  .call (.call .new (.setSource (s := nodeSettings) "Node")) (.select _)

def nodeReplies : Database := { replies := List.replicate 4 (.rows [[("#0.id", .ofInt64 1)]]) }

end Sample

/-- The foreign key that a child is forced to select is read as a field, and a dot in its name
leads on to a child of the child, as long as rows are found. -/
theorem Query.Reached.exec_deepens :
    Schema.ofDeclarations Sample.nodeDeclarations = .ok Sample.nodeSchema ∧
      Sample.nodes.Reached Sample.nodeSettings ∧ Sample.nodes.depth = 0 ∧ Sample.nodes.longest = 2 ∧
      (Sample.nodes.exec Sample.nodeSettings {} Sample.nodeReplies).query.depth = 5 ∧
      ¬(Sample.nodes.exec Sample.nodeSettings {} Sample.nodeReplies).query.depth ≤
        Sample.nodes.depth + Sample.nodes.longest :=
  ⟨rfl, Sample.nodes_reached, by decide +kernel, by decide +kernel, by decide +kernel,
    by decide +kernel⟩

end RowGraph
