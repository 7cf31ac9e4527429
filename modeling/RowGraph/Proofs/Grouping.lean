import Mathlib.Data.List.Induction
import RowGraph.Graph.Mapping
import RowGraph.Proofs.Same

/-!
# Groups

Collecting mapped rows one by one under the keys of their owners gives, for each key, the
collection of just the rows with an equal key, in order (`Group.of_collect`).
-/

namespace RowGraph

/-! ## Look-up by equal keys -/

section put

variable {α : Type} {entries : List (Value × α)} {key other : Value}

theorem lookup_put_of_proper (hkey : key.Proper) (hother : other.Proper)
    (proper : ∀ entry ∈ entries, entry.1.Proper) (value : α) :
    (Keyed.put key value entries).lookup other =
      if other == key then some value else entries.lookup other := by
  induction entries with
  | nil =>
      rw [Keyed.put, List.lookup_cons]
      cases other == key <;> rfl
  | cons entry rest ih =>
      obtain ⟨k, held⟩ := entry
      rw [List.forall_mem_cons] at proper
      obtain ⟨hk, hrest⟩ := proper
      rw [Keyed.put]
      by_cases hkk : key == k
      · rw [if_pos hkk, List.lookup_cons, List.lookup_cons]
        have same : (other == k) = (other == key) := by
          rw [Bool.eq_iff_iff]
          constructor
          · exact fun h => hother.same_trans hk hkey h (by rwa [hk.same_symm hkey])
          · exact fun h => hother.same_trans hkey hk h hkk
        rw [same]
        cases other == key <;> rfl
      · rw [if_neg hkk, List.lookup_cons, List.lookup_cons, ih hrest]
        by_cases hok : other == k
        · have apart : (other == key) = false := by
            rw [Bool.eq_false_iff]
            intro h
            apply hkk
            exact hkey.same_trans hother hk (by rwa [hkey.same_symm hother]) hok
          simp [hok, apart]
        · simp [hok]

theorem mem_keys_put {value : α} (h : other ∈ (Keyed.put key value entries).map Prod.fst) :
    other ∈ entries.map Prod.fst ∨ other = key := by
  rw [Keyed.keys_put] at h
  split at h
  · exact .inl h
  · simpa using h

end put

/-! ## Members -/

structure Member where
  key : Value
  object : Object
  index : Option Value

def collection (indexed : Bool) (members : List Member) : Value :=
  if indexed then
    .map (Keyed.ofPairs (members.map fun m => (m.index.getD .null, m.object.value)))
  else .list (members.map (·.object.value))

def Group.collect (indexed : Bool) (members : List Member) : Group :=
  members.foldl (fun g m => g.add m.key m.object m.index) { indexed }

namespace Group

variable {indexed : Bool} {members : List Member}

theorem collect_concat (indexed : Bool) (members : List Member) (m : Member) :
    collect indexed (members ++ [m]) = (collect indexed members).add m.key m.object m.index := by
  simp [collect]

theorem keys_collect (indexed : Bool) (members : List Member) :
    ∀ entry ∈ (collect indexed members).byKey, ∃ m ∈ members, entry.1 = m.key := by
  induction members using List.reverseRecOn with
  | nil => simp [collect]
  | append_singleton members m ih =>
      intro entry he
      rw [collect_concat] at he
      rcases mem_keys_put (List.mem_map_of_mem (f := Prod.fst) he) with hold | hnew
      · obtain ⟨other, ho, hkey⟩ := List.mem_map.mp hold
        obtain ⟨n, hn, heq⟩ := ih other ho
        exact ⟨n, List.mem_append_left _ hn, hkey.symm.trans heq⟩
      · exact ⟨m, by simp, hnew⟩

theorem of_add {g : Group} {key other : Value} (hkey : key.Proper) (hother : other.Proper)
    (held : ∀ entry ∈ g.byKey, entry.1.Proper) (object : Object) (index : Option Value) :
    (g.add key object index).of other =
      if other == key then
        match g.of key, index with
        | .map entries, some index => .map (Keyed.put index object.value entries)
        | .list items, _ => .list (items ++ [object.value])
        | collection, _ => collection
      else g.of other := by
  simp only [Group.of, Group.add]
  rw [lookup_put_of_proper hkey hother held]
  cases other == key <;> rfl

theorem collection_concat (members : List Member) {m : Member} (hi : m.index.isSome = indexed) :
    collection indexed (members ++ [m]) =
      match collection indexed members, m.index with
      | .map entries, some index => .map (Keyed.put index m.object.value entries)
      | .list items, _ => .list (items ++ [m.object.value])
      | other, _ => other := by
  cases indexed with
  | false => simp [collection]
  | true =>
      obtain ⟨index, hindex⟩ := Option.isSome_iff_exists.mp hi
      simp [collection, hindex, Keyed.ofPairs]

/-- The group of some members holds under each key the collection of the members with that key. -/
theorem of_collect (index : ∀ m ∈ members, m.index.isSome = indexed)
    (proper : ∀ m ∈ members, m.key.Proper) {key : Value} (hkey : key.Proper) :
    (collect indexed members).of key =
      collection indexed (members.filter fun m => m.key == key) := by
  induction members using List.reverseRecOn generalizing key with
  | nil => cases indexed <;> rfl
  | append_singleton members m ih =>
      rw [List.forall_mem_append] at index proper
      have hm : m.key.Proper := proper.2 m (by simp)
      have held : ∀ entry ∈ (collect indexed members).byKey, entry.1.Proper := by
        intro entry he
        obtain ⟨n, hn, heq⟩ := keys_collect indexed members entry he
        rw [heq]
        exact proper.1 n hn
      rw [collect_concat, List.filter_append, of_add hm hkey held]
      by_cases hk : key == m.key
      · have same : members.filter (fun n => n.key == m.key) =
            members.filter fun n => n.key == key := by
          apply List.filter_congr
          intro n hn
          have pn := proper.1 n hn
          rw [Bool.eq_iff_iff]
          constructor
          · exact fun h => pn.same_trans hm hkey h (by rwa [hm.same_symm hkey])
          · exact fun h => pn.same_trans hkey hm h hk
        have own : [m].filter (fun n => n.key == key) = [m] := by
          rw [hkey.same_symm hm] at hk
          simp [hk]
        rw [if_pos hk, ih index.1 proper.1 hm, same, own, collection_concat _ (index.2 m (by simp))]
      · have own : [m].filter (fun n => n.key == key) = [] := by
          rw [hkey.same_symm hm] at hk
          simp [hk]
        rw [if_neg hk, ih index.1 proper.1 hkey, own, List.append_nil]

end Group
end RowGraph
