import RowGraph.Proofs.Arranged
import RowGraph.Proofs.Streaming
import RowGraph.Proofs.Trimming

/-!
# Runs without injected keys

A query that runs in a session that keeps injected keys and in one that removes them sends the same
statements and gives the same results, but for the keys (`Query.Reached.exec_trimmed`): the second
results are the first ones trimmed along the plans of the run (`Haul.trim`), which remove at each
level the keys of the attached objects that only the builder has selected (`Haul.Injected`). The
keys of results must not be computed, as a computed key may look at the injected ones.
-/

namespace RowGraph

theorem Scopes.neededKeys_inj {scopes : Scopes} {key other : Reference}
    (h : key ∈ scopes.neededKeys) (ho : other ∈ scopes.neededKeys) (same : key.path = other.path) :
    key = other := by
  obtain ⟨path, -, h⟩ := List.mem_filterMap.mp h
  obtain ⟨e, found, rfl⟩ := Option.map_eq_some_iff.mp h
  obtain ⟨_, -, ho⟩ := List.mem_filterMap.mp ho
  obtain ⟨f, there, rfl⟩ := Option.map_eq_some_iff.mp ho
  obtain rfl : path = _ := same
  rw [found, Option.some.injEq] at there
  rw [there]

/-! ## Queries without computed indexes -/

namespace Query

inductive Uncomputed : Query → Prop where
  | intro {q : Query} (index : ∀ key, q.clauses.index ≠ some (.computed key))
      (children : ∀ entry ∈ q.children, Uncomputed entry.2) : Uncomputed q

namespace Uncomputed

variable {q next : Query}

theorem index (h : q.Uncomputed) : ∀ key, q.clauses.index ≠ some (.computed key) := by
  cases h with
  | intro index => exact index

theorem child (h : q.Uncomputed) {mount : Mount} {child : Query}
    (found : q.children.lookup mount = some child) : child.Uncomputed := by
  cases h with
  | intro _ children => exact children _ (Keyed.mem_of_lookup found)

theorem congr (h : q.Uncomputed) (index : next.clauses.index = q.clauses.index)
    (children : next.children = q.children) : next.Uncomputed := by
  cases h with
  | intro own below => exact .intro (by rwa [index]) (by rwa [children])

theorem setOwnerKeys (h : q.Uncomputed) (link : Link) (keys : List Value) :
    (q.setOwnerKeys link keys).Uncomputed :=
  h.congr rfl rfl

theorem openChild (h : q.Uncomputed) (s : Schema) (mount : Mount) (target foreignKey : String) :
    (q.openChild s mount target foreignKey).Uncomputed := by
  cases h with
  | intro index children =>
      refine .intro index fun entry he => ?_
      rcases Keyed.mem_putNew he with old | rfl
      · exact children entry old
      · refine .intro ?_ ?_ <;> simp [Query.newChild, Query.setSource, Query.edit]

theorem modifyChild (h : q.Uncomputed) (mount : Mount) {change : Query → Query}
    (keeps : ∀ child : Query, child.Uncomputed → (change child).Uncomputed) :
    (q.modifyChild mount change).Uncomputed := by
  have own := h
  cases h with
  | intro index children =>
      refine .intro index fun entry he => ?_
      rcases Keyed.mem_modify he with old | ⟨child, found, rfl⟩
      · exact children entry old
      · exact keeps child (own.child found)

theorem addField (h : q.Uncomputed) (field : String) : (q.addField field).Uncomputed := by
  unfold Query.addField Query.select
  split
  · exact h
  · split
    · exact h
    · exact h.congr rfl rfl

theorem foldl {α : Type} {f : Query → α → Query}
    (keeps : ∀ (q : Query) (a : α), q.Uncomputed → (f q a).Uncomputed) (items : List α)
    (h : q.Uncomputed) : (items.foldl f q).Uncomputed := by
  induction items generalizing q with
  | nil => exact h
  | cons item rest ih => exact ih (keeps q item h)

theorem forward (h : q.Uncomputed) (s : Schema) (r : Resolution) : (q.forward s r).Uncomputed := by
  refine foldl (fun q hop h => ?_) _ (foldl (fun q hop h => ?_) _ h)
  · exact h.modifyChild _ fun child h => h.addField _
  · exact (h.openChild s ..).modifyChild _ fun child h => h.addField _

theorem build (h : q.Uncomputed) {s : Settings} {compiled : Compiled}
    (built : q.build s = (.ok compiled, next)) : next.Uncomputed := by
  cases memo : q.compiled with
  | some held =>
      rw [Query.build, memo] at built
      cases built
      exact h
  | none =>
      obtain ⟨base, r, -, rfl⟩ := resolves_of_build memo built
      exact (h.forward s.schema r).congr rfl rfl

end Uncomputed

variable {s : Settings} {q : Query} {compiled : Compiled}

theorem Compiles.index_ne_computed (h : q.Compiles s compiled) (uncomputed : q.Uncomputed) :
    ∀ key, compiled.plan.index ≠ some (.computed key) := by
  obtain ⟨base, r, -, -, rfl⟩ := h
  intro key
  show r.indexTarget? (r.scopes base).whole q.clauses.index ≠ some (.computed key)
  cases index : q.clauses.index with
  | none => simp [Resolution.indexTarget?]
  | some target =>
      cases target with
      | computed other => exact absurd index (uncomputed.index other)
      | field name =>
          intro same
          obtain ⟨reference, -, label⟩ := Option.map_eq_some_iff.mp same
          cases label

theorem Compiles.name_of_head? (h : q.Compiles s compiled) :
    ∀ root ∈ compiled.plan.aliases.head?, root.name = .root := by
  obtain ⟨base, r, resolves, -, rfl⟩ := h
  obtain ⟨-, rooted, hangs⟩ := (Settings.check_ok resolves.resolution).hung
  obtain ⟨entity, rest, shown, -⟩ := hangs.eq_cons
  have names : ((r.scopes base).whole.aliasPlans s.config.keepInjectedKeys
      (r.injected (r.scopes base))).map (·.name) = (r.scopes base).whole.shown.map Prod.fst :=
    Scope.names_aliasPlans_of_hangs rooted.first hangs
  rw [shown, List.map_cons] at names
  intro root hr
  obtain ⟨others, aliases⟩ := List.head?_eq_some_iff.mp hr
  rw [show (r.scopes base).whole.aliasPlans _ _ = root :: others from aliases, List.map_cons,
    List.cons.injEq] at names
  exact names.1

def Injects (s : Settings) (q : Query) (p : Plan) : Prop :=
  ∃ base r, q.Resolves s base r ∧ ∀ a ∈ p.aliases, ∃ path e,
    (r.scopes base).whole.table? a.name = some (path, e) ∧ a.primaryKey = e.primaryKey ∧
      (a.stripKey = true ↔ a.attachment.isSome ∧
        ∀ reference ∈ r.requested, ¬ (reference.path = path ∧ reference.column = e.primaryKey))

theorem Compiles.injects (h : q.Compiles s compiled) (removes : s.config.keepInjectedKeys = false) :
    q.Injects s compiled.plan := by
  obtain ⟨base, r, resolves, -, rfl⟩ := h
  refine ⟨base, r, resolves, fun a ha => ?_⟩
  obtain ⟨shown, path, e, hm, there, -, key, place, strip⟩ := Scope.mem_aliasPlans.mp ha
  refine ⟨path, e, there, key, ?_⟩
  rw [strip, removes, place, Bool.not_false, Bool.and_true, Bool.and_eq_true]
  refine and_congr_right fun attached => ?_
  obtain ⟨found, f, hf, needed⟩ := Resolution.needed_of_shown hm attached
  rw [there, Option.some.injEq, Prod.mk.injEq] at hf
  obtain ⟨rfl, rfl⟩ := hf
  rw [List.any_eq_true]
  constructor
  · rintro ⟨injected, hi, same⟩ reference hr ⟨hpath, column⟩
    obtain ⟨own, unasked⟩ := List.mem_filter.mp hi
    obtain rfl := Scopes.neededKeys_inj own needed (eq_of_beq same)
    have asked : r.requested.any (·.sameColumn (.plain path e.primaryKey)) = true :=
      List.any_eq_true.mpr ⟨reference, hr, by simp [Reference.sameColumn, Reference.plain, *]⟩
    rw [asked] at unasked
    cases unasked
  · intro unasked
    refine ⟨_, List.mem_filter.mpr ⟨needed, ?_⟩, by simp [Reference.plain]⟩
    simp only [Bool.not_eq_true', List.any_eq_false]
    intro reference hr same
    obtain ⟨hpath, column⟩ := Bool.and_eq_true_iff.mp same
    exact unasked reference hr ⟨of_decide_eq_true hpath, of_decide_eq_true column⟩

end Query

/-! ## Hauls -/

namespace Haul

mutual

def trim : Haul → Value → Value
  | .mk _ compiled _ children => compiled.plan.trim (trimMembers children) .root

def trimMembers : List (Mount × Haul) → Mount → Value → Value
  | [], _, value => value
  | (place, haul) :: rest, mount, value =>
      if mount = place then value.mapMembers haul.trim else trimMembers rest mount value

end

def trimObject (h : Haul) (o : Object) : Object :=
  h.compiled.plan.trimObject (trimMembers h.children) .root o

/-- The plans of a haul remove at every level the keys that only the builder has selected. -/
inductive Injected (s : Settings) : Haul → Prop where
  | intro {h : Haul} (own : h.query.Injects s h.compiled.plan)
      (below : ∀ entry ∈ h.children, Injected s entry.2) : Injected s h

variable {s : Settings} {h : Haul}

theorem isNull_trimMembers (children : List (Mount × Haul)) (mount : Mount) (value : Value) :
    (trimMembers children mount value).isNull = value.isNull := by
  induction children with
  | nil => rfl
  | cons entry rest ih =>
      rw [trimMembers]
      split
      · cases value <;> rfl
      · exact ih

theorem of_groupsOf_trimmed {children : List (Mount × Haul)}
    (each : ∀ entry ∈ children,
      entry.2.group = (entry.2.through Compiled.keepingKeys).group.mapMembers entry.2.trim)
    (mount : Mount) (key : Value) : (groupsOf children).of mount key =
      trimMembers children mount
        ((groupsOf (throughAll Compiled.keepingKeys children)).of mount key) := by
  induction children with
  | nil => rfl
  | cons entry rest ih =>
      obtain ⟨place, haul⟩ := entry
      rw [List.forall_mem_cons] at each
      rw [throughAll, groupsOf, groupsOf, trimMembers]
      by_cases here : mount = place
      · rw [if_pos here, here, Groups.of, Groups.of, List.lookup_cons_self, List.lookup_cons_self,
          each.1]
        exact Group.of_mapMembers haul.trim _ key
      · have skip (group : Group) (groups : Groups) :
            Groups.of ((place, group) :: groups) mount key = groups.of mount key := by
          rw [Groups.of, Groups.of, List.lookup_cons, beq_eq_false_iff_ne.mpr here]
        rw [if_neg here, skip, skip, ih each.2]

theorem map_of_groups (ready : h.Ready s) (uncomputed : h.query.Uncomputed)
    (each : ∀ entry ∈ h.children,
      entry.2.group = (entry.2.through Compiled.keepingKeys).group.mapMembers entry.2.trim)
    (row : Row) : h.map row =
      (h.trimObject ((h.through Compiled.keepingKeys).map row).1,
        ((h.through Compiled.keepingKeys).map row).2) := by
  obtain ⟨root, hr, mapped⟩ := Plan.mapRow_trimmed
    (ready.compiles.arranged ready.orderly.mounts) (isNull_trimMembers h.children) row
    (fun m _ => of_groupsOf_trimmed each m.mount (row.cell m.keyLabel))
    (ready.compiles.index_ne_computed uncomputed)
  rw [ready.compiles.name_of_head? root hr] at mapped
  cases h
  exact mapped

theorem group_of_map (mapped : ∀ row, h.map row =
      (h.trimObject ((h.through Compiled.keepingKeys).map row).1,
        ((h.through Compiled.keepingKeys).map row).2)) :
    h.group = (h.through Compiled.keepingKeys).group.mapMembers h.trim := by
  obtain ⟨query, compiled, rows, children⟩ := h
  rw [Haul.group, Haul.through, Haul.group]
  refine Group.grouped_mapMembers ?_ (fun row _ => ?_) query.foreignKey
  · rfl
  · rw [show compiled.plan.mapRow (groupsOf children) row = _ from mapped row]
    exact ⟨rfl, rfl⟩

theorem Fetched.map_trimmed (fetched : h.Fetched s) : h.Ready s → h.query.Uncomputed → ∀ row,
    h.map row = (h.trimObject ((h.through Compiled.keepingKeys).map row).1,
      ((h.through Compiled.keepingKeys).map row).2) := by
  apply fetched.induction
  intro h all below ready uncomputed
  refine map_of_groups ready uncomputed fun entry he => group_of_map ?_
  obtain ⟨child, link, keys, found, -, built⟩ := all.built entry he
  exact below entry he (all.ready ready.orderly entry he).1
    (((uncomputed.child found).setOwnerKeys link keys).build built)

theorem Fetched.injected (removes : s.config.keepInjectedKeys = false) (fetched : h.Fetched s) :
    h.Ready s → h.Injected s := by
  apply fetched.induction
  intro h all below ready
  exact .intro (ready.compiles.injects removes) fun entry he =>
    below entry he (all.ready ready.orderly entry he).1

end Haul

/-! ## Results -/

def Items.mapObjects (change : Object → Object) : Items → Items
  | .list objects => .list (objects.map change)
  | .indexed entries => .indexed (entries.map fun entry => (entry.1, change entry.2))

def Output.mapObjects (change : Object → Object) : Output → Output
  | .items found => .items (found.mapObjects change)
  | .counted found total => .counted (found.mapObjects change) total
  | .streamed total => .streamed total

def Event.mapObject (change : Object → Object) : Event → Event
  | .object found index => .object (change found) index
  | .count total => .count total
  | .finish => .finish

theorem Plan.mapRows_mapObjects {p other : Plan} {groups others : Groups} {rows : List Row}
    {change : Object → Object} (indexed : p.isIndexed = other.isIndexed)
    (same : ∀ row, p.mapRow groups row =
      (change (other.mapRow others row).1, (other.mapRow others row).2)) :
    p.mapRows groups rows = (other.mapRows others rows).mapObjects change := by
  simp only [mapRows, indexed, same]
  split
  · simp only [Items.mapObjects, ← Keyed.ofPairs_map_snd, List.map_map]
    rfl
  · simp [Items.mapObjects]

namespace Query

variable {s : Settings} {q next : Query} {compiled : Compiled} {c : Connection}

/-- How a run without injected keys comes out, given the run that keeps them. -/
inductive Trims (s : Settings) (c : Connection) (q : Query) (d : Database) (whole trimmed : Run) :
    Prop where
  | failed {f : Failure} (result : whole.result = .error f) (same : trimmed.result = .error f)
      (silent : whole.events = [] ∧ trimmed.events = [])
  | collected (haul : Haul) {after : Database} {output : Output}
      (built : q.build s = (.ok haul.compiled, haul.query)) (fetched : haul.Fetched s)
      (answers : d.Answers c haul.conversation after) (injected : haul.Injected s)
      (result : whole.result = .ok output)
      (same : trimmed.result = .ok (output.mapObjects haul.trimObject))
      (silent : whole.events = [] ∧ trimmed.events = [])
  | streamed (haul : Haul) (built : q.build s = (.ok haul.compiled, haul.query))
      (childless : haul.children = []) (injected : haul.Injected s)
      (result : trimmed.result = whole.result)
      (events : trimmed.events = whole.events.map (·.mapObject haul.trimObject))

theorem stream_trimmed {change : Object → Object}
    (mapped : ∀ row, compiled.plan.mapRow [] row =
      (change (compiled.keepingKeys.plan.mapRow [] row).1,
        (compiled.keepingKeys.plan.mapRow [] row).2))
    {other : Query} (listeners : other.listeners = q.listeners) (d : Database) :
    (q.stream c compiled d).database = (other.stream c compiled.keepingKeys d).database ∧
      (q.stream c compiled d).result = (other.stream c compiled.keepingKeys d).result ∧
      (q.stream c compiled d).events =
        (other.stream c compiled.keepingKeys d).events.map (·.mapObject change) := by
  have statement : compiled.keepingKeys.statement = compiled.statement := rfl
  have count : compiled.keepingKeys.countStatement = compiled.countStatement := rfl
  have told (on : Bool) (event : Event) (same : event.mapObject change = event) :
      (if on then [event] else []).map (·.mapObject change) = if on then [event] else [] := by
    cases on
    · rfl
    · simp [same]
  simp only [stream, statement, count, mapped, listeners]
  cases d.stream c compiled.statement with
  | mk rows rest =>
      obtain ⟨failure, after⟩ := rest
      have objects : (if q.listeners.objects then rows.map fun row =>
            Event.object (change (compiled.keepingKeys.plan.mapRow [] row).1)
              (compiled.keepingKeys.plan.mapRow [] row).2 else []) =
          (if q.listeners.objects then rows.map fun row =>
            Event.object (compiled.keepingKeys.plan.mapRow [] row).1
              (compiled.keepingKeys.plan.mapRow [] row).2 else []).map (·.mapObject change) := by
        split
        · rw [List.map_map]
          rfl
        · rfl
      cases failure with
      | some f => exact ⟨rfl, rfl, objects⟩
      | none =>
          cases compiled.countStatement with
          | none => exact ⟨rfl, rfl, by rw [List.map_append, told _ .finish rfl, ← objects]⟩
          | some statement =>
              dsimp only
              cases after.count c statement with
              | mk total last =>
                  cases total with
                  | error f => exact ⟨rfl, rfl, objects⟩
                  | ok total =>
                      refine ⟨rfl, rfl, ?_⟩
                      simp only [List.map_append, told _ .finish rfl, told _ (.count total) rfl,
                        ← objects]

theorem collect_trimmed (built : q.build (s.keeping false) = (.ok compiled, next))
    (orderly : next.Orderly) (compiles : next.Compiles (s.keeping false) compiled)
    (uncomputed : next.Uncomputed) (d : Database) :
    (next.collect (s.keeping false) c compiled d).database =
        ((next.recompiled Compiled.keepingKeys).collect (s.keeping true) c compiled.keepingKeys
          d).database ∧
      Trims (s.keeping false) c q d
        ((next.recompiled Compiled.keepingKeys).collect (s.keeping true) c compiled.keepingKeys d)
        (next.collect (s.keeping false) c compiled d) := by
  have count : compiled.keepingKeys.countStatement = compiled.countStatement := rfl
  obtain ⟨database, result⟩ := fetchWithin_abreast (lockstep_keeping s)
    (Orderly.fetchable (s.keeping false)) c d.replies.length orderly compiles (Nat.le_refl _)
  rcases result with ⟨f, first, second⟩ | ⟨_, _, first, second, rows, children, rfl, rfl, fetched,
    answers⟩
  · simp only [collect, Query.fetch, first, second]
    exact ⟨database.symm, .failed rfl rfl ⟨rfl, rfl⟩⟩
  · have ready : Haul.Ready (s.keeping false) (.mk next compiled rows children) :=
      ⟨orderly, compiles⟩
    have mapped : compiled.plan.mapRows (Haul.groupsOf children) rows =
        (compiled.keepingKeys.plan.mapRows
          (Haul.groupsOf (Haul.throughAll Compiled.keepingKeys children)) rows).mapObjects
            (Haul.mk next compiled rows children).trimObject :=
      Plan.mapRows_mapObjects rfl (fetched.map_trimmed ready uncomputed)
    have injected := fetched.injected rfl ready
    simp only [collect, Query.fetch, first, second, database, count]
    cases compiled.countStatement with
    | none =>
        refine ⟨rfl, .collected (.mk next compiled rows children) built fetched answers injected rfl ?_
          ⟨rfl, rfl⟩⟩
        rw [mapped]
        rfl
    | some statement =>
        refine ⟨rfl, ?_⟩
        dsimp only
        generalize (Database.count _ c statement).1 = total
        cases total with
        | error f => exact .failed rfl rfl ⟨rfl, rfl⟩
        | ok total =>
            refine .collected (.mk next compiled rows children) built fetched answers injected rfl ?_
              ⟨rfl, rfl⟩
            rw [mapped]
            rfl

/-- A query runs in a session that removes injected keys and in one that keeps them; if it has been
built before, its compiled form is that of the session. Both runs send the same statements and end
alike, and what they return or deliver differs in the injected keys only. -/
theorem Reached.exec_trimmed (reached : q.Reached (s.keeping false)) (uncomputed : q.Uncomputed)
    (c : Connection) (d : Database) :
    (q.exec (s.keeping false) c d).database =
        ((q.recompiled Compiled.keepingKeys).exec (s.keeping true) c d).database ∧
      Trims (s.keeping false) c q d ((q.recompiled Compiled.keepingKeys).exec (s.keeping true) c d)
        (q.exec (s.keeping false) c d) := by
  have link : (q.recompiled Compiled.keepingKeys).link = q.link := rfl
  have kept := build_keeping s q
  unfold exec
  rw [link, kept]
  by_cases linked : q.link.isSome
  · rw [if_pos linked, if_pos linked]
    exact ⟨rfl, .failed rfl rfl ⟨rfl, rfl⟩⟩
  · rw [if_neg linked, if_neg linked]
    cases built : q.build (s.keeping false) with
    | mk result next =>
        cases result with
        | error faults => exact ⟨rfl, .failed rfl rfl ⟨rfl, rfl⟩⟩
        | ok compiled =>
            have listeners : (next.recompiled Compiled.keepingKeys).listeners = next.listeners := rfl
            have children : (next.recompiled Compiled.keepingKeys).children = next.children := rfl
            obtain ⟨-, -, compiles⟩ := reached.build built
            have orderly := reached.orderly.build built
            have bare := uncomputed.build built
            simp only [Except.map, listeners, children]
            split
            · split
              · next childless =>
                have ready : Haul.Ready (s.keeping false) (.mk next compiled [] []) :=
                  ⟨orderly, compiles⟩
                have mounts := compiles.mounts_eq_nil (List.isEmpty_iff.mp childless)
                have fetched : Haul.Fetched (s.keeping false) (.mk next compiled [] []) :=
                  .intro (by rw [mounts]; exact .nil)
                have mapped : ∀ row, compiled.plan.mapRow [] row = _ :=
                  fetched.map_trimmed ready bare
                obtain ⟨database, result, events⟩ := stream_trimmed (c := c) mapped listeners d
                exact ⟨database, .streamed (.mk next compiled [] []) built rfl
                  (fetched.injected rfl ready) result events⟩
              · exact ⟨rfl, .failed rfl rfl ⟨rfl, rfl⟩⟩
            · exact collect_trimmed built orderly compiles bare d

end Query

namespace Sample

theorem history_uncomputed : history.Uncomputed := by
  have children : history.children.map (fun entry =>
      (entry.2.clauses.index.isSome, entry.2.children.isEmpty)) = [(false, true)] := rfl
  have index : history.clauses.index = none := rfl
  refine .intro (fun key => by simp [index]) fun entry he => ?_
  have own := List.mem_map_of_mem (f := fun entry : Mount × Query =>
    (entry.2.clauses.index.isSome, entry.2.children.isEmpty)) he
  rw [children, List.mem_singleton, Prod.mk.injEq, List.isEmpty_iff] at own
  refine .intro (fun key indexed => ?_) fun below hb => ?_
  · simp [indexed] at own
  · rw [own.2] at hb
    cases hb

def keyedCustomers (run : Run) : Option (List Bool) :=
  (run.result.toOption.bind Output.items?).map fun items =>
    items.toList.map fun o => ((o.get? "customer").bind (·.field? "id")).isSome

end Sample

theorem Query.Reached.exec_trimmed_history :
    Sample.history.Reached (Sample.settings.keeping false) ∧ Sample.history.Uncomputed ∧
      Sample.keyedCustomers (Sample.history.exec (Sample.settings.keeping true) {} Sample.replies) =
        some [true, true] ∧
      Sample.keyedCustomers (Sample.history.exec (Sample.settings.keeping false) {} Sample.replies) =
        some [false, false] ∧
      (Sample.history.exec (Sample.settings.keeping false) {} Sample.replies).database =
        (Sample.history.exec (Sample.settings.keeping true) {} Sample.replies).database ∧
      Trims (Sample.settings.keeping false) {} Sample.history Sample.replies
        (Sample.history.exec (Sample.settings.keeping true) {} Sample.replies)
        (Sample.history.exec (Sample.settings.keeping false) {} Sample.replies) :=
  ⟨Sample.history_reached, Sample.history_uncomputed, rfl, rfl,
    Reached.exec_trimmed (s := Sample.settings) Sample.history_reached Sample.history_uncomputed {}
      Sample.replies⟩

end RowGraph
