import RowGraph.Graph.Items

/-!
# Results under keys

An indexed result is written in JSON under the displayed text of its keys, a map under the text of
each key itself. For integers and booleans the two are one text, but a text is displayed in quotes,
and these are written too. So an indexed result is written as the map of its objects whose text
keys have two quotes more, and as the map under its own keys exactly if none of them is a text or
an object has no JSON form (`Items.json_indexed`).
-/

namespace RowGraph

namespace Json

theorem length_intercalate (members : List String) : (String.intercalate "," members).length =
    (String.join members).length + (members.length - 1) := by
  induction members with
  | nil => rfl
  | cons first rest ih =>
      cases rest with
      | nil => simp
      | cons next rest =>
          have comma : ",".length = 1 := rfl
          rw [String.intercalate_cons_cons, String.join_cons, String.length_append,
            String.length_append, String.length_append, ih, comma]
          simp only [List.length_cons]
          omega

theorem length_braced (members : List String) : (braced members).length =
    (String.join members).length + (members.length - 1) + 2 := by
  have opening : "\x7b".length = 1 := rfl
  have closing : "\x7d".length = 1 := rfl
  rw [braced, String.length_append, String.length_append, length_intercalate, opening, closing]
  omega

theorem length_quote_quoted (s : String) :
    (quote ("\"" ++ s ++ "\"")).length = (quote s).length + 4 := by
  have mark : "\"".toList = ['"'] := rfl
  have escaped : escapeChar '"' = ['\\', '"'] := rfl
  simp only [quote, String.toList_append, mark, List.flatMap_append, List.flatMap_singleton,
    escaped, String.length_ofList, List.length_cons, List.length_append, List.length_nil]
  omega

end Json

namespace Value

/-! ## Keys -/

inductive IsKey : Value → Prop where
  | text (s : String) : IsKey (.text s)
  | bool (b : Bool) : IsKey (.bool b)
  | integer {n : Number} {i : Int} (h : n.integer? = some i) : IsKey (.number n)

def quoted : Value → Value
  | .text s => .text ("\"" ++ s ++ "\"")
  | key => key

def spelling (key : Value) : String := key.keyText.toOption.getD ""

theorem keyText_quoted {key : Value} (h : key.IsKey) : key.quoted.keyText = .ok key.display := by
  cases h with
  | text s => rfl
  | bool b => rfl
  | @integer n i h =>
      cases n with
      | int32 n => rfl
      | int64 n => rfl
      | uint64 n => rfl
      | float32 bits => cases h
      | float64 bits => cases h

theorem keyText_spelling {key : Value} (h : key.IsKey) : key.keyText = .ok key.spelling := by
  cases h with
  | text s => rfl
  | bool b => rfl
  | @integer n i h =>
      have finite : n.isFinite = true := by cases n <;> first | rfl | cases h
      simp [spelling, keyText, finite, Except.toOption]

theorem quoted_of_not_text {key : Value} (h : key.text? = none) : key.quoted = key := by
  cases key with
  | text s => cases h
  | _ => rfl

/-! ## Members -/

def ofObjects (entries : List (Value × Object)) : Value :=
  .map (entries.map fun entry => (entry.1, entry.2.value))

def members (write : Value → String) (entries : List (Value × Object)) :
    Except KeyFault (List String) :=
  entries.mapM fun entry => do
    return Json.quote (write entry.1) ++ ":" ++ (← entry.2.value.json)

variable {entries : List (Value × Object)}

theorem json_ofObjects (change : Value → Value) {write : Value → String}
    (h : ∀ entry ∈ entries, (change entry.1).keyText = .ok (write entry.1)) :
    (ofObjects (entries.map fun entry => (change entry.1, entry.2))).json =
      (members write entries).map Json.braced := by
  have same : jsonEntries (entries.map fun entry => (change entry.1, entry.2.value)) =
      members write entries := by
    induction entries with
    | nil => rfl
    | cons entry rest ih =>
        rw [List.forall_mem_cons] at h
        rw [List.map_cons, jsonEntries, ih h.2, h.1, members, members, List.mapM_cons]
        cases entry.2.value.json <;> rfl
  rw [ofObjects, List.map_map, json]
  exact congrArg (Except.map Json.braced) same

theorem json_indexed_eq (entries : List (Value × Object)) :
    (Items.indexed entries).json = (members display entries).map Json.braced := rfl

theorem length_quote_display {key : Value} (h : key.IsKey) : (Json.quote key.display).length =
    (Json.quote key.spelling).length + if key.text?.isSome then 4 else 0 := by
  cases ht : key.text? with
  | none =>
      have shown := keyText_quoted h
      rw [quoted_of_not_text ht, keyText_spelling h] at shown
      simp [Except.ok.inj shown]
  | some s =>
      have quotes : (text s).display = "\"" ++ s ++ "\"" := rfl
      have plain : (text s).spelling = s := rfl
      cases h with
      | text other =>
          obtain rfl : other = s := Option.some.inj ht
          rw [quotes, plain, Json.length_quote_quoted]
          rfl
      | bool b => cases ht
      | integer h => cases ht

theorem members_display (keys : ∀ entry ∈ entries, entry.1.IsKey) :
    (∃ fault, members display entries = .error fault ∧ members spelling entries = .error fault) ∨
      ∃ shown plain, members display entries = .ok shown ∧ members spelling entries = .ok plain ∧
        shown.length = plain.length ∧ (String.join shown).length =
          (String.join plain).length + 4 * entries.countP (·.1.text?.isSome) := by
  induction entries with
  | nil => exact .inr ⟨[], [], rfl, rfl, rfl, rfl⟩
  | cons entry rest ih =>
      rw [List.forall_mem_cons] at keys
      have longer := length_quote_display keys.1
      simp only [members, List.mapM_cons]
      cases entry.2.value.json with
      | error fault => exact .inl ⟨fault, rfl, rfl⟩
      | ok object =>
          obtain ⟨fault, hshown, hplain⟩ | ⟨shown, plain, hshown, hplain, count, joined⟩ :=
            ih keys.2
          · rw [members] at hshown hplain
            rw [hshown, hplain]
            exact .inl ⟨fault, rfl, rfl⟩
          · rw [members] at hshown hplain
            rw [hshown, hplain]
            refine .inr ⟨_, _, rfl, rfl, congrArg (· + 1) count, ?_⟩
            simp only [String.join_cons, String.length_append, longer, joined, List.countP_cons]
            split <;> omega

end Value

open Value in
/-- An indexed result is written as the map of its objects, but for the quotes around text keys. -/
theorem Items.json_indexed {entries : List (Value × Object)}
    (keys : ∀ entry ∈ entries, entry.1.IsKey) :
    (Items.indexed entries).json =
        (ofObjects (entries.map fun entry => (entry.1.quoted, entry.2))).json ∧
      ((Items.indexed entries).json = (ofObjects entries).json ↔
        (∀ entry ∈ entries, entry.1.text? = none) ∨
          ∃ fault, (ofObjects entries).json = .error fault) := by
  have shown := json_ofObjects quoted fun entry he => keyText_quoted (keys entry he)
  have plain : (ofObjects entries).json = (members spelling entries).map Json.braced := by
    simpa using json_ofObjects id fun entry he => keyText_spelling (keys entry he)
  refine ⟨shown.symm, ?_⟩
  rw [json_indexed_eq, plain]
  obtain ⟨fault, hshown, hplain⟩ | ⟨longer, shorter, hshown, hplain, count, joined⟩ :=
    members_display keys
  · rw [hshown, hplain]
    exact ⟨fun _ => .inr ⟨fault, rfl⟩, fun _ => rfl⟩
  · rw [hshown, hplain]
    constructor
    · intro same
      have texts : Json.braced longer = Json.braced shorter := Except.ok.inj same
      have lengths := congrArg String.length texts
      rw [Json.length_braced, Json.length_braced, count, joined] at lengths
      have none : entries.countP (·.1.text?.isSome) = 0 := by omega
      left
      simpa using List.countP_eq_zero.mp none
    · rintro (none | ⟨fault, failed⟩)
      · have keep : entries.map (fun entry => (entry.1.quoted, entry.2)) = entries := by
          refine (List.map_congr_left fun entry he => ?_).trans (List.map_id entries)
          rw [quoted_of_not_text (none entry he)]
          rfl
        rw [← hshown, ← hplain, ← shown, ← plain, keep]
      · cases failed

namespace Sample

def dan : Object := { entity := "Customer", fields := [("id", .ofInt64 4)] }

def byName : List (Value × Object) := [(.text "Dan", dan), (.ofInt64 4, dan)]

theorem byName_keys : ∀ entry ∈ byName, entry.1.IsKey := by
  rw [byName, List.forall_mem_cons, List.forall_mem_singleton]
  exact ⟨.text "Dan", .integer rfl⟩

end Sample

theorem Items.json_indexed_dan : (∀ entry ∈ Sample.byName, entry.1.IsKey) ∧
    (Items.indexed Sample.byName).json =
      (Value.ofObjects [(.text "\"Dan\"", Sample.dan), (.ofInt64 4, Sample.dan)]).json ∧
    ((Items.indexed Sample.byName).json = (Value.ofObjects Sample.byName).json ↔
      (∀ entry ∈ Sample.byName, entry.1.text? = none) ∨
        ∃ fault, (Value.ofObjects Sample.byName).json = .error fault) :=
  ⟨Sample.byName_keys, Items.json_indexed Sample.byName_keys⟩

theorem Items.indexed_misquoted :
    (Value.text "Dan").IsKey ∧
      (Items.indexed [(.text "Dan", Sample.dan)]).json =
        .ok "\x7b\"\\\"Dan\\\"\":\x7b\"id\":4\x7d\x7d" ∧
      (Value.ofObjects [(.text "Dan", Sample.dan)]).json =
        .ok "\x7b\"Dan\":\x7b\"id\":4\x7d\x7d" ∧
      (Items.indexed [(.text "Dan", Sample.dan)]).json ≠
        (Value.ofObjects [(.text "Dan", Sample.dan)]).json := by
  have misquoted : (Items.indexed [(.text "Dan", Sample.dan)]).json =
      .ok "\x7b\"\\\"Dan\\\"\":\x7b\"id\":4\x7d\x7d" := rfl
  have plain : (Value.ofObjects [(.text "Dan", Sample.dan)]).json =
      .ok "\x7b\"Dan\":\x7b\"id\":4\x7d\x7d" := rfl
  refine ⟨.text "Dan", misquoted, plain, ?_⟩
  rw [misquoted, plain]
  exact fun same => absurd (Except.ok.inj same) (by decide)

end RowGraph
