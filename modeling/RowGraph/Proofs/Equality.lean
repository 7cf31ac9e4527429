import RowGraph.Proofs.Grouping
import RowGraph.Proofs.Keyed
import RowGraph.Value.Hash

/-!
# Values as keys

The equality of values is what keyed collections need (`Value.equality_keyed`): an equivalence,
with equal hashes for equal values, under which maps and objects are the same if their entries are,
in whatever order. A map into which pairs are put one after another has one entry for each kind of
equal keys: under the first of them, in its place, with the value of the last
(`Keyed.Gathered`). Values are proper here, and all that insertions make is (`proper_ofPairs`).
-/

namespace RowGraph

/-! ## Entries -/

namespace Keyed

variable {κ α : Type} [BEq κ]

def Rearranged [BEq α] (xs ys : List (κ × α)) : Prop :=
  ∃ others, others.Perm ys ∧
    List.Forall₂ (fun x y => (x.1 == y.1) = true ∧ (x.2 == y.2) = true) xs others

/-- What the entries of a map are after pairs were put into it one after another: no two keys are
equal, the keys are the first of their kind in the order of the pairs, and each has the value of
the last pair with an equal key. -/
structure Gathered (pairs entries : List (κ × α)) : Prop where
  distinct : entries.Pairwise fun x y => (x.1 == y.1) = false
  first : Firsts (pairs.map Prod.fst) (entries.map Prod.fst)
  last : ∀ entry ∈ entries, ∃ front key back, pairs = front ++ (key, entry.2) :: back ∧
    (entry.1 == key) = true ∧ ∀ pair ∈ back, (entry.1 == pair.1) = false

/-- Look-up among the entries whose keys have the same hash. -/
def lookupBy {η : Type} [DecidableEq η] (hash : κ → η) (key : κ) (entries : List (κ × α)) :
    Option α :=
  (entries.filter fun entry => hash entry.1 = hash key).lookup key

theorem lookupBy_eq_lookup {η : Type} [DecidableEq η] {hash : κ → η}
    (compatible : ∀ {a b : κ}, (a == b) = true → hash a = hash b) (key : κ)
    (entries : List (κ × α)) : lookupBy hash key entries = entries.lookup key := by
  induction entries with
  | nil => rfl
  | cons entry rest ih =>
      obtain ⟨k, value⟩ := entry
      rw [lookupBy] at ih ⊢
      rw [List.lookup_cons, List.filter_cons]
      cases hk : key == k with
      | true => simp [(compatible hk).symm, List.lookup_cons, hk]
      | false =>
          split
          · rw [List.lookup_cons, hk]
            exact ih
          · exact ih

end Keyed

namespace Value

open Keyed

variable {a b c key : Value} {pairs : List (Value × Value)}

/-! ## Hashing -/

mutual

theorem hashInput_eq_of_same {a b : Value} (h : same a b = true) : a.hashInput = b.hashInput := by
  cases a with
  | null => cases b <;> first | rfl | cases h
  | bool x =>
      cases b with
      | bool y => rw [beq_iff_eq.mp (show (x == y) = true from h)]
      | _ => cases h
  | number x =>
      cases b with
      | number y => rw [hashInput, hashInput, (Number.beq_iff_key x y).mp h]
      | _ => cases h
  | text x =>
      cases b with
      | text y => rw [beq_iff_eq.mp (show (x == y) = true from h)]
      | _ => cases h
  | bytes x =>
      cases b with
      | bytes y => rw [beq_iff_eq.mp (show (x == y) = true from h)]
      | _ => cases h
  | list xs =>
      cases b with
      | list ys =>
          obtain ⟨length, items⟩ := hashItems_eq_of_same (show sameItems xs ys = true from h)
          rw [hashInput, hashInput, length, items]
      | _ => cases h
  | map xs =>
      cases b with
      | map ys =>
          simp only [same, Bool.and_eq_true, beq_iff_eq] at h
          rw [hashInput, hashInput, h.1]
      | _ => cases h
  | object e xs =>
      cases b with
      | object f ys =>
          simp only [same, Bool.and_eq_true, beq_iff_eq] at h
          rw [hashInput, hashInput, h.1.1, h.1.2]
      | _ => cases h
termination_by structural a

theorem hashItems_eq_of_same {xs ys : List Value} (h : sameItems xs ys = true) :
    xs.length = ys.length ∧ hashItems xs = hashItems ys := by
  cases xs with
  | nil => cases ys <;> first | exact ⟨rfl, rfl⟩ | cases h
  | cons x xs =>
      cases ys with
      | nil => cases h
      | cons y ys =>
          rw [sameItems, Bool.and_eq_true] at h
          obtain ⟨length, items⟩ := hashItems_eq_of_same h.2
          rw [hashItems, hashItems, hashInput_eq_of_same h.1, items]
          exact ⟨congrArg (· + 1) length, rfl⟩
termination_by structural xs

end

theorem hash_eq_of_same {σ : Type} (take : σ → HashInput → σ) (start : σ) {a b : Value}
    (h : (a == b) = true) : a.hash take start = b.hash take start := by
  rw [hash, hash, hashInput_eq_of_same h]

/-! ## Numbers -/

theorem integer_same_iff {m n : Number} {i j : Int} (hm : m.integer? = some i)
    (hn : n.integer? = some j) : (Value.number m == Value.number n) = true ↔ i = j := by
  have key : ∀ {n : Number} {i : Int}, n.integer? = some i → n.key = .integer i := by
    intro n i h
    cases n <;> cases h <;> rfl
  change (m == n) = true ↔ i = j
  rw [Number.beq_iff_key, key hm, key hn, NumberKey.integer.injEq]

/-! ## Maps and objects -/

theorem map_same_iff {xs ys : List (Value × Value)} (hx : (Value.map xs).Proper)
    (hy : (Value.map ys).Proper) :
    (Value.map xs == Value.map ys) = true ↔ Rearranged xs ys := by
  have keys := fun x h => (hx.entries.keys x h).fair
  have agree : (Value.map xs == Value.map ys) = true ↔
      Agree same (fun a b => same a b = true) xs ys := by
    change same (.map xs) (.map ys) = true ↔ _
    simp [same, sameEntries_iff, Agree]
  rw [agree]
  exact ⟨Agree.rearranged hx.entries keys hy.entries,
    Agree.of_rearranged (V := fun a b => same a b = true) keys hy.entries⟩

theorem object_same_iff {e f : String} {xs ys : List (String × Value)}
    (hx : (Value.object e xs).Proper) (hy : (Value.object f ys).Proper) :
    (Value.object e xs == Value.object f ys) = true ↔ e = f ∧ Rearranged xs ys := by
  have keys := fun (x : String × Value) (_ : x ∈ xs) => fair_name x.1
  have agree : (Value.object e xs == Value.object f ys) = true ↔
      e = f ∧ Agree (· == ·) (fun a b => same a b = true) xs ys := by
    change same (.object e xs) (.object f ys) = true ↔ _
    simp [same, sameFields_iff, Agree, and_assoc]
  rw [agree]
  exact and_congr_right fun _ => ⟨Agree.rearranged hx.fields keys hy.fields,
    Agree.of_rearranged (V := fun a b => same a b = true) keys hy.fields⟩

/-! ## Pairs put into a map -/

theorem Proper.lookup_congr {entries : List (Value × Value)} (ha : a.Proper) (hb : b.Proper)
    (proper : ∀ entry ∈ entries, entry.1.Proper) (h : (a == b) = true) :
    entries.lookup a = entries.lookup b := by
  induction entries with
  | nil => rfl
  | cons entry rest ih =>
      obtain ⟨k, value⟩ := entry
      rw [List.forall_mem_cons] at proper
      have same : (a == k) = (b == k) := by
        have back : (b == a) = true := by rwa [hb.same_symm ha]
        rw [Bool.eq_iff_iff]
        exact ⟨hb.same_trans ha proper.1 back, ha.same_trans hb proper.1 h⟩
      rw [List.lookup_cons, List.lookup_cons, same, ih proper.2]

section keys

variable (proper : ∀ pair ∈ pairs, pair.1.Proper)

include proper

theorem firsts_proper : Firsts (pairs.map Prod.fst) ((ofPairs pairs).map Prod.fst) :=
  firsts_ofPairs (fun ha hb => Proper.same_symm ha hb) proper

theorem proper_keys_ofPairs : ∀ entry ∈ ofPairs pairs, entry.1.Proper := by
  intro entry he
  obtain ⟨pair, hp, same⟩ :=
    List.mem_map.mp ((firsts_proper proper).subset (List.mem_map_of_mem (f := Prod.fst) he))
  exact same ▸ proper pair hp

theorem lookup_ofPairs (hkey : key.Proper) :
    (ofPairs pairs).lookup key = pairs.reverse.lookup key := by
  induction pairs using List.reverseRecOn with
  | nil => rfl
  | append_singleton pairs pair ih =>
      rw [List.forall_mem_append, List.forall_mem_singleton] at proper
      rw [ofPairs_concat, lookup_put_of_proper proper.2 hkey (proper_keys_ofPairs proper.1),
        ih proper.1, List.reverse_append, List.reverse_singleton, List.singleton_append,
        List.lookup_cons]
      cases key == pair.1 <;> rfl

theorem lookup_of_mem_ofPairs {entry : Value × Value} (he : entry ∈ ofPairs pairs) :
    (ofPairs pairs).lookup entry.1 = some entry.2 := by
  have keys := proper_keys_ofPairs proper
  have entries : ProperEntries same Proper (fun _ => True) (ofPairs pairs) :=
    ⟨List.pairwise_map.mp (firsts_proper proper).pairwise, keys, fun _ _ => trivial⟩
  have fair := (keys entry he).fair
  obtain ⟨other, found, ho, same⟩ := exists_find? he fair.refl
  obtain rfl := entries.eq_of_key fair ho he same fair.refl
  rw [lookup_eq_find?]
  exact congrArg _ found

theorem gathered_ofPairs : Gathered pairs (ofPairs pairs) := by
  have first := firsts_proper proper
  refine ⟨List.pairwise_map.mp first.pairwise, first, fun entry he => ?_⟩
  have found := lookup_of_mem_ofPairs proper he
  rw [lookup_ofPairs proper (proper_keys_ofPairs proper entry he), lookup_eq_find?,
    Option.map_eq_some_iff] at found
  obtain ⟨pair, hf, value⟩ := found
  obtain ⟨same, back, front, split, apart⟩ := List.find?_eq_some_iff_append.mp hf
  refine ⟨front.reverse, pair.1, back.reverse, ?_, same, ?_⟩
  · rw [← value, ← List.reverse_reverse pairs, split]
    simp
  · simpa using apart

end keys

theorem proper_map (proper : ∀ pair ∈ pairs, pair.1.Proper ∧ pair.2.Proper) :
    (Value.map (ofPairs pairs)).Proper := by
  have keys : ∀ pair ∈ pairs, pair.1.Proper := fun pair hp => (proper pair hp).1
  exact .map (gathered_ofPairs keys).distinct (proper_keys_ofPairs keys)
    (forall_ofPairs fun pair hp => (proper pair hp).2)

theorem proper_object (entity : String) {fields : List (String × Value)}
    (proper : ∀ field ∈ fields, field.2.Proper) :
    (Value.object entity (ofPairs fields)).Proper := by
  have first : Firsts (fields.map Prod.fst) ((ofPairs fields).map Prod.fst) :=
    firsts_ofPairs (fun {a b} (_ : True) _ => Bool.beq_comm) fun _ _ => trivial
  exact .object (first.pairwise.imp fun apart => by simpa using apart) (forall_ofPairs proper)

/-! ## The laws -/

structure Equates (a b c : Value) : Prop where
  refl : (a == a) = true
  symm : (a == b) = (b == a)
  trans : (a == b) = true → (b == c) = true → (a == c) = true
  hash : (a == b) = true → ∀ {σ : Type} (take : σ → HashInput → σ) (start : σ),
    a.hash take start = b.hash take start

theorem equality_keyed (ha : a.Proper) (hb : b.Proper) (hc : c.Proper)
    (proper : ∀ pair ∈ pairs, pair.1.Proper ∧ pair.2.Proper) :
    Equates a b c ∧
      (∀ {m n : Number} {i j : Int}, m.integer? = some i → n.integer? = some j →
        ((Value.number m == Value.number n) = true ↔ i = j)) ∧
      (∀ {xs ys : List (Value × Value)}, (Value.map xs).Proper → (Value.map ys).Proper →
        ((Value.map xs == Value.map ys) = true ↔ Rearranged xs ys)) ∧
      (∀ {e f : String} {xs ys : List (String × Value)},
        (Value.object e xs).Proper → (Value.object f ys).Proper →
        ((Value.object e xs == Value.object f ys) = true ↔ e = f ∧ Rearranged xs ys)) ∧
      (Value.map (ofPairs pairs)).Proper ∧ Gathered pairs (ofPairs pairs) ∧
      (∀ (entity : String) {fields : List (String × Value)},
        (∀ field ∈ fields, field.2.Proper) → (Value.object entity (ofPairs fields)).Proper) ∧
      (ofPairs pairs).lookup a = pairs.reverse.lookup a ∧
      (∀ {σ : Type} [DecidableEq σ] (take : σ → HashInput → σ) (start : σ),
        lookupBy (hash take start) a (ofPairs pairs) = (ofPairs pairs).lookup a) ∧
      ((a == b) = true → (ofPairs pairs).lookup a = (ofPairs pairs).lookup b) := by
  have keys : ∀ pair ∈ pairs, pair.1.Proper := fun pair hp => (proper pair hp).1
  have equates : Equates a b c :=
    { refl := ha.fair.refl
      symm := ha.same_symm hb
      trans := ha.same_trans hb hc
      hash := fun h => fun take start => hash_eq_of_same take start h }
  exact ⟨equates, integer_same_iff, map_same_iff, object_same_iff, proper_map proper,
    gathered_ofPairs keys, proper_object, lookup_ofPairs keys ha,
    fun take start => lookupBy_eq_lookup (hash_eq_of_same take start) a _,
    ha.lookup_congr hb (proper_keys_ofPairs keys)⟩

end Value

namespace Sample

def narrow : Value :=
  .map [(.number (.int32 1), .number (.float32 0x7fc00000)), (.text "x", .null)]

def wide : Value :=
  .map [(.text "x", .null), (.ofUInt64 1, .number (.float64 0x7ff8000000000000))]

theorem narrow_proper : narrow.Proper := by
  refine .map (by decide) ?_ ?_
  · simpa [List.forall_mem_cons] using ⟨.number _, .text _⟩
  · simpa [List.forall_mem_cons] using ⟨.number _, .null⟩

theorem wide_proper : wide.Proper := by
  refine .map (by decide) ?_ ?_
  · simpa [List.forall_mem_cons] using ⟨.text _, .number _⟩
  · simpa [List.forall_mem_cons] using ⟨.null, .number _⟩

def labelled : List (Value × Value) :=
  [(narrow, .text "first"), (.null, .bool true), (wide, .text "last")]

theorem labelled_proper : ∀ pair ∈ labelled, pair.1.Proper ∧ pair.2.Proper := by
  simpa [labelled, List.forall_mem_cons] using
    ⟨⟨narrow_proper, .text _⟩, ⟨.null, .bool _⟩, ⟨wide_proper, .text _⟩⟩

end Sample

open Sample Keyed in
theorem Value.equality_keyed_labelled : narrow.Proper ∧ wide.Proper ∧
    (∀ pair ∈ labelled, pair.1.Proper ∧ pair.2.Proper) ∧
    (narrow == wide) = true ∧ Equates narrow wide narrow ∧
    Gathered labelled [(narrow, .text "last"), (.null, .bool true)] ∧
    (ofPairs labelled).lookup wide = some (.text "last") := by
  have same : (narrow == wide) = true := by decide
  have entries : ofPairs labelled = [(narrow, .text "last"), (.null, .bool true)] := rfl
  obtain ⟨equates, -, -, -, -, gathered, -, found, -, congr⟩ :=
    equality_keyed narrow_proper wide_proper narrow_proper labelled_proper
  refine ⟨narrow_proper, wide_proper, labelled_proper, same, equates, entries ▸ gathered, ?_⟩
  rw [← congr same, found]
  rfl

end RowGraph
