import RowGraph.Proofs.Fetching
import RowGraph.Proofs.Rerun

/-!
# Delivering and collecting

A query without children can deliver its objects one by one or collect them. What is collected can
be read off the deliveries (`Items.ofEvents`). A failure ends a run of either kind; what was
delivered before it are the objects of the rows that had arrived (`Query.Streams`,
`Query.Reached.exec_streams`).
-/

namespace RowGraph

/-! ## Deliveries -/

def Plan.delivery (p : Plan) (row : Row) : Event :=
  .object (p.mapRow [] row).1 (p.mapRow [] row).2

def Event.object? : Event → Option (Object × Option Value)
  | .object found index => some (found, index)
  | .count _ => none
  | .finish => none

def Items.ofEvents (indexed : Bool) (events : List Event) : Items :=
  let delivered := events.filterMap Event.object?
  if indexed then
    .indexed (Keyed.ofPairs (delivered.filterMap fun (object, index) => index.map (·, object)))
  else .list (delivered.map Prod.fst)

namespace Plan

variable (p : Plan) (rows : List Row)

theorem isSome_mapRow (groups : Groups) (row : Row) :
    (p.mapRow groups row).2.isSome = p.isIndexed := Option.isSome_map ..

theorem filterMap_delivery :
    (rows.map p.delivery).filterMap Event.object? = rows.map (p.mapRow []) := by
  rw [List.filterMap_map, ← List.filterMap_eq_map]
  rfl

theorem ofEvents_delivery {others : List Event} (none : ∀ event ∈ others, event.object? = none) :
    Items.ofEvents p.isIndexed (rows.map p.delivery ++ others) = p.mapRows [] rows := by
  have nothing : others.filterMap Event.object? = [] := List.filterMap_eq_nil_iff.mpr none
  rw [Items.ofEvents, mapRows, List.filterMap_append, nothing, List.append_nil, filterMap_delivery]
  cases indexed : p.isIndexed with
  | false =>
      simp only [Bool.false_eq_true, if_false, List.map_map]
      rfl
  | true =>
      have keyed :
          (rows.map (p.mapRow [])).filterMap (fun (object, index) => index.map (·, object)) =
            rows.map fun row => ((p.mapRow [] row).2.getD .null, (p.mapRow [] row).1) := by
        rw [List.filterMap_map, ← List.filterMap_eq_map]
        refine List.filterMap_congr fun row _ => ?_
        obtain ⟨index, hi⟩ := Option.isSome_iff_exists.mp ((p.isSome_mapRow [] row).trans indexed)
        simp [hi]
      simp only [if_true, keyed]

end Plan

/-! ## Replies to streams -/

namespace Database

variable {d after : Database} {c : Connection} {statement : Sql.Statement} {rows : List Row}

theorem reply_congr {a b : Database} (h : a.replies = b.replies) (c : Connection) :
    (a.reply c).1 = (b.reply c).1 ∧ (a.reply c).2.replies = (b.reply c).2.replies := by
  unfold reply
  split
  · exact ⟨rfl, h⟩
  · rw [h]
    split
    · exact ⟨rfl, h⟩
    · exact ⟨rfl, rfl⟩

theorem query_of_stream (h : d.stream c statement = (rows, none, after)) :
    ∃ other, d.query c statement = (.ok rows, other) ∧ other.replies = after.replies := by
  obtain ⟨same, left⟩ := reply_congr (a := d.record c .query statement)
    (b := d.record c .stream statement) rfl c
  unfold stream at h
  unfold query
  cases hs : (d.record c .stream statement).reply c with
  | mk streamed database =>
      cases hq : (d.record c .query statement).reply c with
      | mk queried other =>
          rw [hs, hq] at same left
          rw [hs] at h
          subst same
          cases queried with
          | rows found =>
              cases h
              exact ⟨other, rfl, left⟩
          | failure found f => cases h

theorem query_of_stream_failed {f : DatabaseFailure}
    (h : d.stream c statement = (rows, some f, after)) :
    ∃ other, d.query c statement = (.error f, other) := by
  obtain ⟨same, -⟩ := reply_congr (a := d.record c .query statement)
    (b := d.record c .stream statement) rfl c
  unfold stream at h
  unfold query
  cases hs : (d.record c .stream statement).reply c with
  | mk streamed database =>
      cases hq : (d.record c .query statement).reply c with
      | mk queried other =>
          rw [hs, hq] at same
          rw [hs] at h
          subst same
          cases queried with
          | rows found => cases h
          | failure found failed =>
              cases h
              exact ⟨other, rfl⟩

theorem count_congr {a b : Database} (h : a.replies = b.replies) (c : Connection)
    (statement : Sql.Statement) : (a.count c statement).1 = (b.count c statement).1 := by
  obtain ⟨same, -⟩ := reply_congr (a := a.record c .query statement)
    (b := b.record c .query statement) h c
  unfold count query
  cases ha : (a.record c .query statement).reply c with
  | mk replyA afterA =>
      cases hb : (b.record c .query statement).reply c with
      | mk replyB afterB =>
          rw [ha, hb] at same
          subst same
          cases replyA <;> rfl

end Database

/-! ## Both ways of running -/

def Listeners.all : Listeners := ⟨true, true, true⟩

namespace Query

variable {s : Settings} {c : Connection} {q next : Query} {compiled : Compiled}

theorem Compiles.isIndexed (h : q.Compiles s compiled) :
    compiled.plan.isIndexed = q.clauses.index.isSome := by
  obtain ⟨base, r, -, -, resolved, rfl⟩ := h.resolved
  show (r.indexTarget? (r.scopes base).whole q.clauses.index).isSome = _
  have index := resolved.index
  cases hc : q.clauses.index with
  | none => rfl
  | some target =>
      rw [hc] at index
      cases target with
      | computed key => rfl
      | field name =>
          cases hi : r.index with
          | none =>
              rw [hi] at index
              cases index
          | some item =>
              rw [hi] at index
              cases index with
              | field follows =>
                  obtain ⟨reference, hr⟩ := follows.reference (by decide)
                  simp [Resolution.indexTarget?, hi, Item.reference?, hr]

theorem Compiles.mounts_eq_nil (h : q.Compiles s compiled) (childless : q.children = []) :
    compiled.plan.mounts = [] := by
  have sublist := h.mounts
  rw [childless] at sublist
  exact List.map_eq_nil_iff.mp (List.sublist_nil.mp sublist)

theorem Compiles.counted (h : q.Compiles s compiled) : compiled.counted = q.clauses.counted := by
  obtain ⟨base, r, -, -, rfl⟩ := h
  rfl

theorem build_listen (s : Settings) (q : Query) (change : Listeners → Listeners) :
    (∀ faults, (q.build s).1 = .error faults → ((q.listen change).build s).1 = .error faults) ∧
    ∀ compiled next, q.build s = (.ok compiled, next) → ∃ heard,
      (q.listen change).build s = (.ok compiled, heard) ∧ heard.listeners = change q.listeners ∧
        heard.children.map Prod.fst = next.children.map Prod.fst := by
  have agrees : Agrees s q (q.listen change) := .of_params rfl rfl rfl rfl
  cases memo : q.compiled with
  | some kept =>
      have held : (q.listen change).compiled = some kept := memo
      simp only [build, memo, held]
      refine ⟨fun faults failed => (by cases failed), fun compiled next built => ?_⟩
      cases built
      exact ⟨_, rfl, rfl, rfl⟩
  | none =>
      have fresh : (q.listen change).compiled = none := memo
      rcases resolves_or_error s q with ⟨base, r, resolves, faultless⟩ | ⟨faults, hc⟩
      · rw [build_of_resolves memo resolves faultless,
          build_of_resolves fresh (agrees.resolves resolves) (agrees.faults.trans faultless)]
        refine ⟨fun faults failed => (by cases failed), fun compiled next built => ?_⟩
        cases built
        have frames := frames_forward s.schema r q
        have heard := frames_forward s.schema r (q.listen change)
        have children := paired_forward (s := s) (a := q) (b := q.listen change)
          (.refl (.refl s) _) r
        have compiled : ((q.listen change).forward s.schema r).assemble s base r =
            (q.forward s.schema r).assemble s base r :=
          assemble_congr (heard.clauses.trans frames.clauses.symm)
            (heard.link.trans frames.link.symm) children.mounts
        rw [compiled]
        exact ⟨_, rfl, heard.listeners, children.mounts⟩
      · rw [build_of_error memo hc, build_of_error fresh (agrees.compile_error hc)]
        exact ⟨fun _ failed => failed, fun compiled next built => (by cases built)⟩

theorem fetch_childless (s : Settings) (c : Connection) (mounts : compiled.plan.mounts = [])
    (q : Query) (d : Database) :
    (fetch s c compiled q d).result = ((d.query c compiled.statement).1.map fun rows =>
        (rows, ([] : Groups))).mapError .database ∧
      (fetch s c compiled q d).database = (d.query c compiled.statement).2 := by
  unfold fetch fetchWithin
  cases d.query c compiled.statement with
  | mk reply after =>
      cases reply with
      | error f => exact ⟨rfl, rfl⟩
      | ok rows =>
          cases d.replies.length with
          | zero => exact ⟨rfl, rfl⟩
          | succ depth =>
              rw [mounts]
              exact ⟨rfl, rfl⟩

/-- What a query without children delivers when it is listened to, and what it returns then and
when it collects its objects. -/
inductive Streams (s : Settings) (c : Connection) (q : Query) (d : Database)
    (streaming collecting : Run) : Prop where
  | unbuilt {faults : List Fault} (unbuilt : (q.build s).1 = .error faults)
      (events : streaming.events = []) (result : streaming.result = .error (.build faults))
      (collected : collecting.result = .error (.build faults))
  | interrupted {compiled : Compiled} {rows : List Row} {f : DatabaseFailure} {after : Database}
      (built : (q.build s).1 = .ok compiled)
      (found : d.stream c compiled.statement = (rows, some f, after))
      (events : streaming.events = rows.map compiled.plan.delivery)
      (result : streaming.result = .error (.database f))
      (collected : collecting.result = .error (.database f))
  | uncounted {compiled : Compiled} {rows : List Row} {after : Database}
      (built : (q.build s).1 = .ok compiled) (uncounted : q.clauses.counted = false)
      (found : d.stream c compiled.statement = (rows, none, after))
      (events : streaming.events = rows.map compiled.plan.delivery ++ [.finish])
      (result : streaming.result = .ok (.streamed none))
      (collected : collecting.result =
        .ok (.items (.ofEvents q.clauses.index.isSome streaming.events)))
  | uncountable {compiled : Compiled} {rows : List Row} {statement : Sql.Statement} {f : Failure}
      {after : Database} (built : (q.build s).1 = .ok compiled) (counted : q.clauses.counted = true)
      (found : d.stream c compiled.statement = (rows, none, after))
      (counts : compiled.countStatement = some statement)
      (failed : (after.count c statement).1 = .error f)
      (events : streaming.events = rows.map compiled.plan.delivery)
      (result : streaming.result = .error f) (collected : collecting.result = .error f)
  | counted {compiled : Compiled} {rows : List Row} {statement : Sql.Statement} {total : Int}
      {after : Database} (built : (q.build s).1 = .ok compiled) (counted : q.clauses.counted = true)
      (found : d.stream c compiled.statement = (rows, none, after))
      (counts : compiled.countStatement = some statement)
      (found_total : (after.count c statement).1 = .ok total)
      (events : streaming.events = rows.map compiled.plan.delivery ++ [.count total, .finish])
      (result : streaming.result = .ok (.streamed (some total)))
      (collected : collecting.result =
        .ok (.counted (.ofEvents q.clauses.index.isSome streaming.events) total))

theorem result_collect {rows : List Row} {groups : Groups} {q : Query} {d : Database}
    (fetched : (fetch s c compiled q d).result = .ok (rows, groups)) :
    (compiled.countStatement = none → (q.collect s c compiled d).result =
      .ok (.items (compiled.plan.mapRows groups rows))) ∧
    ∀ statement, compiled.countStatement = some statement → (q.collect s c compiled d).result =
      ((fetch s c compiled q d).database.count c statement).1.map
        (.counted (compiled.plan.mapRows groups rows)) := by
  unfold collect
  dsimp only
  rw [fetched]
  constructor
  · intro uncounted
    simp only [uncounted]
  · intro statement counts
    simp only [counts]

theorem streams_of_build {heard mute : Query} (built : (q.build s).1 = .ok compiled)
    (wanted : compiled.counted = q.clauses.counted)
    (indexed : compiled.plan.isIndexed = q.clauses.index.isSome)
    (mounts : compiled.plan.mounts = []) (listeners : heard.listeners = .all) (d : Database) :
    Streams s c q d (heard.stream c compiled d) (mute.collect s c compiled d) := by
  obtain ⟨fetched, database⟩ := fetch_childless s c mounts mute d
  cases hs : d.stream c compiled.statement with
  | mk rows rest =>
      obtain ⟨failure, after⟩ := rest
      cases failure with
      | some f =>
          obtain ⟨other, hq⟩ := Database.query_of_stream_failed hs
          rw [hq] at fetched
          refine .interrupted built hs ?_ ?_ ?_
          · simp only [stream, hs, listeners]
            rfl
          · simp only [stream, hs]
          · rw [collect, fetched]
            rfl
      | none =>
          obtain ⟨other, hq, left⟩ := Database.query_of_stream hs
          rw [hq] at fetched database
          obtain ⟨uncounted, counted⟩ := result_collect fetched
          cases hc : compiled.countStatement with
          | none =>
              have off : q.clauses.counted = false := by
                rw [← wanted]
                simpa [Compiled.countStatement] using hc
              have events : (heard.stream c compiled d).events =
                  rows.map compiled.plan.delivery ++ [.finish] := by
                simp only [stream, hs, listeners, hc]
                rfl
              refine .uncounted built off hs events (by simp only [stream, hs, hc]) ?_
              rw [uncounted hc, events, ← indexed,
                compiled.plan.ofEvents_delivery rows (by simp [Event.object?])]
          | some statement =>
              have on : q.clauses.counted = true := by
                rw [← wanted]
                by_contra off
                simp [Compiled.countStatement, off] at hc
              have count : ((fetch s c compiled mute d).database.count c statement).1 =
                  (after.count c statement).1 :=
                Database.count_congr ((congrArg _ database).trans left) c statement
              cases ht : after.count c statement with
              | mk total last =>
                  cases total with
                  | error f =>
                      refine .uncountable built on hs hc (by rw [ht]) ?_ ?_ ?_
                      · simp only [stream, hs, listeners, hc, ht]
                        rfl
                      · simp only [stream, hs, hc, ht]
                      · rw [counted statement hc, count, ht]
                        rfl
                  | ok total =>
                      have events : (heard.stream c compiled d).events =
                          rows.map compiled.plan.delivery ++ [.count total, .finish] := by
                        simp only [stream, hs, listeners, hc, ht, Listeners.all, if_true,
                          List.append_assoc, List.singleton_append]
                        rfl
                      refine .counted built on hs hc (by rw [ht]) events ?_ ?_
                      · simp only [stream, hs, hc, ht]
                      · rw [counted statement hc, count, ht, events, ← indexed,
                          compiled.plan.ofEvents_delivery rows (by simp [Event.object?])]
                        rfl

theorem Streams.events_eq {d : Database} {streaming collecting : Run}
    (h : Streams s c q d streaming collecting) (built : (q.build s).1 = .ok compiled) :
    ∃ (rows : List Row) (others : List Event),
      streaming.events = rows.map compiled.plan.delivery ++ others ∧
        ∀ event ∈ others, event.object? = none := by
  cases h with
  | unbuilt unbuilt =>
      rw [built] at unbuilt
      cases unbuilt
  | interrupted found _ events | uncountable found _ _ _ _ events =>
      obtain rfl := Except.ok.inj (built.symm.trans found)
      exact ⟨_, [], by rw [events, List.append_nil], by simp⟩
  | uncounted found _ _ events | counted found _ _ _ _ events =>
      obtain rfl := Except.ok.inj (built.symm.trans found)
      exact ⟨_, _, events, by simp [Event.object?]⟩

theorem Streams.isSome_index {d : Database} {streaming collecting : Run}
    (h : Streams s c q d streaming collecting) (built : (q.build s).1 = .ok compiled)
    {object : Object} {index : Option Value} (delivered : .object object index ∈ streaming.events) :
    index.isSome = compiled.plan.isIndexed := by
  obtain ⟨rows, others, events, none⟩ := h.events_eq built
  rw [events, List.mem_append] at delivered
  rcases delivered with here | there
  · obtain ⟨row, -, same⟩ := List.mem_map.mp here
    cases same
    exact compiled.plan.isSome_mapRow [] row
  · cases none _ there

theorem exec_of_build (root : q.link = none) (built : q.build s = (.ok compiled, next))
    (childless : next.children = []) (d : Database) :
    q.exec s c d = if next.listeners.any then next.stream c compiled d
      else next.collect s c compiled d := by
  simp only [exec, root, built, childless]
  rfl

/-- What a query without children delivers is what it collects, and both runs fail alike. -/
theorem Reached.exec_streams (reached : q.Reached s) (root : q.link = none)
    (childless : (q.build s).2.children = []) (c : Connection) (d : Database) :
    Streams s c q d ((q.listen fun _ => Listeners.all).exec s c d)
        ((q.listen fun _ => {}).exec s c d) ∧
      ∀ object index, .object object index ∈ ((q.listen fun _ => Listeners.all).exec s c d).events →
        index.isSome = q.clauses.index.isSome := by
  obtain ⟨loudError, loudOk⟩ := build_listen s q fun _ => .all
  obtain ⟨muteError, muteOk⟩ := build_listen s q fun _ => {}
  cases hb : q.build s with
  | mk result next =>
      cases result with
      | error faults =>
          have unbuilt : (q.build s).1 = .error faults := by rw [hb]
          obtain ⟨result, events, -⟩ :=
            exec_of_build_error (q := q.listen _) (c := c) root (loudError faults unbuilt) d
          obtain ⟨collected, -⟩ :=
            exec_of_build_error (q := q.listen _) (c := c) root (muteError faults unbuilt) d
          refine ⟨.unbuilt unbuilt events result collected, fun object index member => ?_⟩
          rw [events] at member
          cases member
      | ok compiled =>
          obtain ⟨heard, builtLoud, loud, mountsLoud⟩ := loudOk compiled next hb
          obtain ⟨mute, builtMute, silent, mountsMute⟩ := muteOk compiled next hb
          rw [hb] at childless
          have emptied {children : List (Mount × Query)}
              (mounts : children.map Prod.fst = next.children.map Prod.fst) : children = [] := by
            rw [childless] at mounts
            exact List.map_eq_nil_iff.mp mounts
          obtain ⟨-, frames, compiles⟩ := reached.build hb
          have wanted := compiles.counted
          have indexed := compiles.isIndexed
          rw [frames.clauses] at wanted indexed
          have built : (q.build s).1 = .ok compiled := by rw [hb]
          rw [exec_of_build (q := q.listen _) root builtLoud (emptied mountsLoud),
            exec_of_build (q := q.listen _) root builtMute (emptied mountsMute), loud, silent]
          have streams : Streams s c q d (heard.stream c compiled d)
              (mute.collect s c compiled d) :=
            streams_of_build built wanted indexed (compiles.mounts_eq_nil childless) loud d
          exact ⟨streams, fun _ _ delivered => (streams.isSome_index built delivered).trans indexed⟩

end Query

namespace Sample

def receipts : Database :=
  { replies := [
      .rows [
        [("#0.total", .ofInt64 150), ("#1.name", .text "?"), ("#1.id", .ofInt64 7)],
        [("#0.total", .ofInt64 120), ("#1.name", .text "?"), ("#1.id", .ofInt64 7)]],
      .rows [[("count", .ofInt64 5)]]] }

def ledger : Query := orders.index (.field "total")

theorem ledger_reached : ledger.Reached settings := .call orders_reached (.index _)

end Sample

theorem Query.Reached.exec_streams_ledger :
    Streams Sample.settings {} Sample.ledger Sample.receipts
        ((Sample.ledger.listen fun _ => .all).exec Sample.settings {} Sample.receipts)
        ((Sample.ledger.listen fun _ => {}).exec Sample.settings {} Sample.receipts) ∧
      ((Sample.ledger.listen fun _ => .all).exec Sample.settings {}
        Sample.receipts).events.length = 4 :=
  ⟨(Reached.exec_streams Sample.ledger_reached rfl rfl {} Sample.receipts).1, by decide +kernel⟩

end RowGraph
