import RowGraph.Proofs.Streaming
import RowGraph.Proofs.Unbuilt
import RowGraph.Session

/-!
# Merging objects

Merging a loaded object into one held brings every value of the loaded one to the place where it
was, and destroys nothing else: wherever both hold an object, the one held keeps its entity, and its
other fields with their values and their order (`Object.merges`). A second merge changes nothing.
Hydrating merges what was found, and otherwise leaves the object alone (`Session.hydrate_merges`).
-/

namespace RowGraph

namespace Keyed

variable {κ α : Type} [DecidableEq κ] {key : κ} {value : α} {entries : List (κ × α)}

theorem put_eq_self (held : entries.lookup key = some value) : put key value entries = entries := by
  induction entries with
  | nil => cases held
  | cons entry rest ih =>
      obtain ⟨k, v⟩ := entry
      rw [put]
      split
      · next same =>
        rw [List.lookup_cons, same] at held
        cases held
        rfl
      · next other =>
        rw [List.lookup_cons, Bool.eq_false_iff.mpr other] at held
        rw [ih held]

theorem filter_put {p : κ × α → Bool} (passed : ∀ value, p (key, value) = false) :
    (put key value entries).filter p = entries.filter p := by
  induction entries with
  | nil => simp [put, passed]
  | cons entry rest ih =>
      obtain ⟨k, v⟩ := entry
      rw [put]
      split
      · next same =>
        obtain rfl : key = k := beq_iff_eq.mp same
        simp [passed]
      · simp only [List.filter_cons, ih]

end Keyed

namespace Value

variable {held loaded : List (String × Value)} {name : String} {value : Value}

def follow? (value : Value) (names : List String) : Option Value :=
  names.foldlM (fun value name => value.field? name) value

theorem follow?_cons (value : Value) (name : String) (rest : List String) :
    value.follow? (name :: rest) = (value.field? name).bind (·.follow? rest) := rfl

/-! ## Fields after a merge -/

theorem lookup_mergeFields (distinct : (loaded.map Prod.fst).Nodup) (name : String) :
    (mergeFields held loaded).lookup name = match loaded.lookup name with
      | some value => some (merge (held.lookup name) value)
      | none => held.lookup name := by
  induction loaded generalizing held with
  | nil => rfl
  | cons field rest ih =>
      obtain ⟨first, value⟩ := field
      rw [List.map_cons, List.nodup_cons] at distinct
      rw [mergeFields, ih distinct.2, List.lookup_cons]
      cases same : name == first with
      | true =>
          obtain rfl : name = first := beq_iff_eq.mp same
          have absent : rest.lookup name = none := by
            rw [← Option.not_isSome_iff_eq_none, Keyed.lookup_isSome_iff_mem]
            exact distinct.1
          rw [absent, Keyed.lookup_put_self]
      | false => rw [Keyed.lookup_put_of_ne _ _ same]

theorem names_mergeFields (distinct : (loaded.map Prod.fst).Nodup) :
    (mergeFields held loaded).map Prod.fst = held.map Prod.fst ++
      (loaded.map Prod.fst).filter fun name => !decide (name ∈ held.map Prod.fst) := by
  induction loaded generalizing held with
  | nil => simp [mergeFields]
  | cons field rest ih =>
      obtain ⟨first, value⟩ := field
      rw [List.map_cons, List.nodup_cons] at distinct
      have listed : (held.any fun entry => first == entry.1) =
          decide (first ∈ held.map Prod.fst) := by
        rw [Bool.eq_iff_iff, List.any_eq_true, decide_eq_true_iff, List.mem_map]
        simp only [beq_iff_eq, eq_comm (a := first)]
      rw [mergeFields, ih distinct.2, Keyed.keys_put, listed, List.map_cons, List.filter_cons]
      by_cases there : first ∈ held.map Prod.fst
      · simp only [there, decide_true, if_true, Bool.not_true, Bool.false_eq_true, if_false]
      · simp only [there, decide_false, Bool.false_eq_true, if_false, Bool.not_false, if_true,
          List.append_assoc, List.singleton_append]
        congr 2
        apply List.filter_congr
        intro other ho
        have apart : other ≠ first := fun same => distinct.1 (same ▸ ho)
        simp [apart]

theorem filter_mergeFields {p : String × Value → Bool}
    (passed : ∀ name ∈ loaded.map Prod.fst, ∀ value, p (name, value) = false) :
    (mergeFields held loaded).filter p = held.filter p := by
  induction loaded generalizing held with
  | nil => rfl
  | cons field rest ih =>
      obtain ⟨first, value⟩ := field
      rw [List.map_cons, List.forall_mem_cons] at passed
      rw [mergeFields, ih passed.2, Keyed.filter_put passed.1]

theorem mergeFields_eq_self (settled : ∀ field ∈ loaded, ∃ value,
      held.lookup field.1 = some value ∧ merge (some value) field.2 = value) :
    mergeFields held loaded = held := by
  induction loaded with
  | nil => rfl
  | cons field rest ih =>
      obtain ⟨name, value⟩ := field
      rw [List.forall_mem_cons] at settled
      obtain ⟨old, found, same⟩ := settled.1
      rw [mergeFields, found, same, Keyed.put_eq_self found, ih settled.2]

/-! ## Merging values -/

theorem merge_of_not_object {held : Option Value} (plain : value.object? = none) :
    merge held value = value := by
  cases value with
  | object => cases plain
  | null | bool | number | text | bytes | list | map => rfl

theorem merge_none (value : Value) : merge none value = value := by
  cases value <;> rfl

theorem Proper.merge_merge (proper : value.Proper) (held : Option Value) :
    merge (some (merge held value)) value = merge held value := by
  -- all fields of the value loaded have been brought by the first merge
  induction proper generalizing held with
  | null | bool | number | text | bytes | list | map => rfl
  | @object entity fields distinct _ ih =>
      -- the fields that a merge leaves, whatever was held
      have settled (old : List (String × Value)) :
          mergeFields (mergeFields old fields) fields = mergeFields old fields := by
        apply mergeFields_eq_self
        intro field hf
        refine ⟨merge (old.lookup field.1) field.2, ?_, ih field hf _⟩
        rw [lookup_mergeFields distinct, Keyed.lookup_of_mem distinct hf]
      have again : mergeFields fields fields = fields := by
        apply mergeFields_eq_self
        intro field hf
        have same := ih field hf none
        rw [merge_none] at same
        exact ⟨field.2, Keyed.lookup_of_mem distinct hf, same⟩
      cases held with
      | none => simp only [merge, again]
      | some old =>
          cases old with
          | object kept old => simp only [merge, settled]
          | null | bool | number | text | bytes | list | map => simp only [merge, again]

/-! ## Following names through a merge -/

theorem field?_object (entity : String) (fields : List (String × Value)) (name : String) :
    (Value.object entity fields).field? name = fields.lookup name := rfl

theorem exists_of_field? {found : Value} (h : value.field? name = some found) :
    ∃ entity fields, value = .object entity fields ∧ fields.lookup name = some found := by
  cases value with
  | object entity fields => exact ⟨entity, fields, rfl, h⟩
  | null | bool | number | text | bytes | list | map => cases h

theorem Proper.of_lookup {entity : String} {fields : List (String × Value)}
    (proper : (Value.object entity fields).Proper) (found : fields.lookup name = some value) :
    value.Proper := by
  cases proper with
  | object _ values => exact Keyed.of_lookup values found

theorem Proper.distinct {entity : String} {fields : List (String × Value)}
    (proper : (Value.object entity fields).Proper) : (fields.map Prod.fst).Nodup := by
  cases proper with
  | object distinct _ => exact distinct

theorem Proper.follow?_merge (proper : value.Proper) {names : List String} {found : Value}
    (leads : value.follow? names = some found) (plain : found.object? = none)
    (held : Option Value) : (merge held value).follow? names = some found := by
  induction names generalizing value held with
  | nil =>
      cases leads
      rw [merge_of_not_object plain]
      rfl
  | cons name rest ih =>
      rw [follow?_cons, Option.bind_eq_some_iff] at leads
      obtain ⟨middle, first, last⟩ := leads
      obtain ⟨entity, fields, rfl, listed⟩ := exists_of_field? first
      have unmerged : (Value.object entity fields).follow? (name :: rest) = some found := by
        rw [follow?_cons, first]
        exact last
      cases held with
      | none => exact unmerged
      | some old =>
          cases old with
          | object kept old =>
              rw [follow?_cons, merge, field?_object, lookup_mergeFields proper.distinct, listed]
              exact ih (proper.of_lookup listed) last _
          | null | bool | number | text | bytes | list | map => exact unmerged

end Value

namespace Object

variable {o loaded : Object}

/-- An object after another was merged into it: the entity stays, and so do the fields that the
other does not have, with their values and their order. Of the other's fields, those that are new
come last. -/
structure Absorbs (o loaded after : Object) : Prop where
  entity : after.entity = o.entity
  values : ∀ field ∉ loaded.names, after.get? field = o.get? field
  untouched : (after.fields.filter fun field => !decide (field.1 ∈ loaded.names)) =
    o.fields.filter fun field => !decide (field.1 ∈ loaded.names)
  names : after.names = o.names ++ loaded.names.filter fun name => !decide (name ∈ o.names)

structure Merges (o loaded after : Object) : Prop where
  brings : ∀ names value, loaded.value.follow? names = some value → value.object? = none →
    after.value.follow? names = some value
  keeps : ∀ names (held other : Object), o.value.follow? names = some held.value →
    loaded.value.follow? names = some other.value →
      ∃ merged, after.value.follow? names = some merged.value ∧ held.Absorbs other merged
  settled : after.merge loaded = after

theorem value_merge (o loaded : Object) :
    (o.merge loaded).value = Value.merge (some o.value) loaded.value := rfl

theorem absorbs_merge (o : Object) (distinct : loaded.names.Nodup) :
    o.Absorbs loaded (o.merge loaded) := by
  refine ⟨rfl, fun field absent => ?_, ?_, Value.names_mergeFields distinct⟩
  · have none : loaded.fields.lookup field = none := by
      rw [← Option.not_isSome_iff_eq_none, Keyed.lookup_isSome_iff_mem]
      exact absent
    rw [get?, merge, Value.lookup_mergeFields distinct, none]
    rfl
  · apply Value.filter_mergeFields
    intro name listed value
    have named : name ∈ loaded.names := listed
    simp [named]

theorem follow?_merge {names : List String} {held other : Object} {value old : Value}
    (proper : value.Proper) (there : old.follow? names = some held.value)
    (leads : value.follow? names = some other.value) :
    (Value.merge (some old) value).follow? names = some (held.merge other).value ∧
      other.value.Proper := by
  induction names generalizing value old with
  | nil =>
      cases there
      cases leads
      exact ⟨rfl, proper⟩
  | cons name rest ih =>
      rw [Value.follow?_cons, Option.bind_eq_some_iff] at there leads
      obtain ⟨older, first, behind⟩ := there
      obtain ⟨middle, second, last⟩ := leads
      obtain ⟨kept, fields, rfl, listed⟩ := Value.exists_of_field? first
      obtain ⟨entity, more, rfl, found⟩ := Value.exists_of_field? second
      rw [Value.follow?_cons, Value.merge, Value.field?_object,
        Value.lookup_mergeFields proper.distinct, found, listed]
      exact ih (proper.of_lookup found) behind last

theorem merges (o : Object) (proper : loaded.value.Proper) : o.Merges loaded (o.merge loaded) := by
  refine ⟨fun names value leads plain => ?_, fun names held other there leads => ?_, ?_⟩
  · rw [value_merge]
    exact proper.follow?_merge leads plain _
  · obtain ⟨merged, properToo⟩ := follow?_merge proper there leads
    exact ⟨_, merged, absorbs_merge held properToo.distinct⟩
  · have settled := proper.merge_merge (some o.value)
    rw [← value_merge, ← value_merge] at settled
    exact Option.some.inj (congrArg Value.object? settled)

end Object

namespace Session

variable {s : Session} {o : Object} {e : Entity} {key : Value} {fields : String} {d : Database}

/-! ## Hydrating -/

def keyRun (s : Session) (e : Entity) (key : Value) (fields : String) (d : Database) : Run :=
  (s.keyQuery e key fields).exec s.settings s.connection d

theorem keyQuery_plain (s : Session) (e : Entity) (key : Value) (fields : String) :
    (s.keyQuery e key fields).link = none ∧ (s.keyQuery e key fields).listeners = {} ∧
      (s.keyQuery e key fields).compiled = none ∧
      (s.keyQuery e key fields).clauses.counted = false := by
  unfold keyQuery Query.select
  dsimp only
  split <;> exact ⟨rfl, rfl, rfl, rfl⟩

theorem keyRun_of_no_rows {compiled : Compiled} {next : Query} {after : Database}
    (built : (s.keyQuery e key fields).build s.settings = (.ok compiled, next))
    (none : d.query s.connection compiled.statement = (.ok [], after)) :
    (s.keyRun e key fields d).database = after ∧
      ∃ items, (s.keyRun e key fields d).result = .ok (.items items) ∧ items.toList = [] := by
  obtain ⟨root, silent, fresh, uncounted⟩ := s.keyQuery_plain e key fields
  obtain ⟨frames, compiles⟩ := Query.compiles_of_fresh fresh built
  have quiet : next.listeners.any = false := by
    rw [frames.listeners, silent]
    rfl
  have uncountedToo : compiled.countStatement = .none := by
    rw [Compiled.countStatement, compiles.counted, frames.clauses, uncounted]
    rfl
  have fetched (depth : Nat) : Query.fetchWithin s.settings s.connection depth compiled next d =
      ⟨.ok ([], []), next, after⟩ := by
    rw [Query.fetchWithin, none]
    cases depth with
    | zero => rfl
    | succ depth => simp only [Query.fetchMounts_no_rows, Except.map]
  have run : s.keyRun e key fields d = next.collect s.settings s.connection compiled d := by
    simp [keyRun, Query.exec, root, built, quiet]
  rw [run, Query.collect, Query.fetch, fetched, uncountedToo]
  refine ⟨rfl, _, rfl, ?_⟩
  unfold Plan.mapRows
  split <;> rfl

theorem load_of_known (known : s.entity o.entity = .ok e) (key : Value) :
    s.load o.entity key fields d = ((s.keyRun e key fields d).result.map fun output =>
      output.items?.bind (·.toList.head?), (s.keyRun e key fields d).database) := by
  rw [load, known]
  rfl

/-- Hydrating an object merges the object found into it, which destroys nothing; if there is no key,
no object is found or the run fails, it leaves the object as it was. -/
theorem hydrate_merges (s : Session) (o : Object) (fields : String) (d : Database) :
    (∀ loaded : Object, loaded.value.Proper → o.Merges loaded (o.merge loaded)) ∧
      ∀ e, s.entity o.entity = .ok e →
        (e.key? o = none →
          s.hydrate o fields d = (.error (.misuse (.missingKey .hydrate)), o, d)) ∧
        ∀ key, e.key? o = some key →
          (∀ f, (s.keyRun e key fields d).result = .error f →
            s.hydrate o fields d = (.error f, o, (s.keyRun e key fields d).database)) ∧
          (∀ compiled next after,
            (s.keyQuery e key fields).build s.settings = (.ok compiled, next) →
            d.query s.connection compiled.statement = (.ok [], after) →
              s.hydrate o fields d = (.ok false, o, after)) ∧
          ∀ output items loaded, (s.keyRun e key fields d).result = .ok output →
            output.items? = some items → items.toList.head? = some loaded →
              s.hydrate o fields d =
                (.ok true, o.merge loaded, (s.keyRun e key fields d).database) := by
  refine ⟨fun loaded proper => Object.merges o proper, fun e known => ⟨fun unset => ?_, ?_⟩⟩
  · simp only [hydrate, known, unset]
  · intro key set
    simp only [hydrate, known, set, load_of_known known]
    refine ⟨fun f failed => ?_, fun compiled next after built none => ?_, ?_⟩
    · rw [failed]
      rfl
    · obtain ⟨rfl, items, found, empty⟩ := keyRun_of_no_rows built none
      simp [found, Except.map, Output.items?, empty]
    · intro output items loaded ran found first
      simp [ran, Except.map, found, first]

end Session

namespace Sample

def desk : Session := { settings }

def held : Object :=
  { entity := "Order"
    fields := [("id", .ofInt64 5), ("customer", .object "Customer" [("vip", .bool true)])] }

def loaded : Object :=
  { entity := "Order"
    fields := [("total", .ofInt64 9), ("customer", .object "Customer" [("name", .text "Erin")])] }

def stocked : Database :=
  { replies :=
      [.rows [[("#0.total", .ofInt64 9), ("#0.id", .ofInt64 5), ("#1.name", .text "Erin"),
          ("#1.id", .ofInt64 2)]],
        .failure [] (.validation "down")] }

theorem loaded_proper : loaded.value.Proper := by
  refine .object (by decide) (List.forall_mem_cons.mpr ⟨.number _, ?_⟩)
  rw [List.forall_mem_singleton]
  exact .object (by decide) (List.forall_mem_singleton.mpr (.text _))

end Sample

theorem Session.hydrate_merges_order :
    Sample.loaded.value.Proper ∧
      Sample.held.Merges Sample.loaded (Sample.held.merge Sample.loaded) ∧
      (∃ loaded next, Sample.desk.hydrate Sample.held "total, customer.name" Sample.stocked =
          (.ok true, Sample.held.merge loaded, next) ∧
        ∃ f last, Sample.desk.hydrate Sample.held "total" next = (.error f, Sample.held, last)) ∧
      (∃ next, Sample.desk.hydrate Sample.held "total" {} = (.ok false, Sample.held, next)) ∧
      Sample.desk.hydrate Sample.loaded "total" {} =
        (.error (.misuse (.missingKey .hydrate)), Sample.loaded, {}) := by
  obtain ⟨merges, hydrates⟩ := hydrate_merges Sample.desk Sample.held "total" {}
  obtain ⟨-, found⟩ := hydrate_merges Sample.desk Sample.held "total, customer.name" Sample.stocked
  refine ⟨Sample.loaded_proper, merges _ Sample.loaded_proper, ?_, ?_, ?_⟩
  · refine ⟨_, _, ((found _ rfl).2 _ rfl).2.2 _ _ _ rfl rfl rfl, ?_⟩
    exact ⟨_, _, (((hydrate_merges ..).2 _ rfl).2 _ rfl).1 _ rfl⟩
  · exact ⟨_, ((hydrates _ rfl).2 _ rfl).2.1 _ _ _ rfl rfl⟩
  · exact ((hydrate_merges Sample.desk Sample.loaded "total" {}).2 _ rfl).1 rfl

end RowGraph
