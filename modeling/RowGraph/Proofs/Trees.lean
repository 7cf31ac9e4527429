import RowGraph.Proofs.Equality
import RowGraph.Proofs.Widening
import RowGraph.Value.Json

/-!
# Values and trees

A tree is read as a value and written as the same tree again, members in their order
(`tree_ofTree`). A value of the kinds that trees have is written as a tree that is read as an
equal value (`exists_tree`): integers may come back in another width and 32-bit numbers in 64 bits,
which are equal to them.
-/

namespace RowGraph

/-! ## Numbers -/

/-- A number as trees have it: what is held as negative is so, and floating-point numbers are
finite. -/
def JsonNumber.Proper : JsonNumber → Prop
  | .natural _ => True
  | .negative n => n.toInt < 0
  | .floating bits => (Number.float64 bits).isFinite = true

theorem toInt_toInt64_of_le {n : UInt64} (h : n ≤ Int64.maxValue.toUInt64) :
    n.toInt64.toInt = n.toNat := by
  have bound : n.toNat ≤ 9223372036854775807 := h
  have small : 2 * n.toBitVec.toNat < 2 ^ 64 := by
    change 2 * n.toNat < 2 ^ 64
    omega
  exact BitVec.toInt_eq_toNat_of_lt small

theorem toNat_toUInt64_of_nonneg {n : Int64} (h : ¬ n.toInt < 0) :
    (n.toUInt64.toNat : Int) = n.toInt := by
  have cases : n.toBitVec.toInt = n.toBitVec.toNat ∨
      n.toBitVec.toInt = n.toBitVec.toNat - 2 ^ 64 := by
    rw [BitVec.toInt_eq_toNat_cond]
    split <;> simp
  have lt : n.toUInt64.toNat < 2 ^ 64 := n.toUInt64.toNat_lt
  change n.toInt = n.toUInt64.toNat ∨ n.toInt = n.toUInt64.toNat - 2 ^ 64 at cases
  omega

namespace Number

theorem isFinite_float32_iff {bits : UInt32} : (float32 bits).isFinite = true ↔
    ∃ negative significand exponent,
      Floating.single.decode bits.toNat = .finite negative significand exponent := by
  rw [isFinite]
  cases Floating.single.decode bits.toNat <;> simp

theorem isFinite_float64_iff {bits : UInt64} : (float64 bits).isFinite = true ↔
    ∃ negative significand exponent,
      Floating.double.decode bits.toNat = .finite negative significand exponent := by
  rw [isFinite]
  cases Floating.double.decode bits.toNat <;> simp

theorem exists_ofBits {bits : Nat} (fits : bits < UInt64.size)
    (h : ∃ negative significand exponent,
      Floating.double.decode bits = .finite negative significand exponent) :
    ∃ wide : UInt64, wide.toNat = bits ∧ (JsonNumber.floating wide).Proper ∧
      Json.ofBits bits = .number (.floating wide) := by
  have same : (UInt64.ofNat bits).toNat = bits := UInt64.toNat_ofNat_of_lt' fits
  refine ⟨UInt64.ofNat bits, same, ?_, ?_⟩
  · rwa [JsonNumber.Proper, isFinite_float64_iff, same]
  · obtain ⟨negative, significand, exponent, decoded⟩ := h
    rw [Json.ofBits, decoded]

end Number

namespace Value

theorem tree_numberOfTree {n : JsonNumber} (h : n.Proper) : (numberOfTree n).tree = .number n := by
  cases n with
  | natural n =>
      rw [numberOfTree]
      split
      · next le =>
        have nonneg : ¬ n.toInt64.toInt < 0 := by
          rw [toInt_toInt64_of_le le]
          omega
        rw [Number.tree, JsonNumber.ofInt64, if_neg nonneg, UInt64.toUInt64_toInt64]
      · rfl
  | negative n =>
      have lt : n.toInt < 0 := h
      rw [numberOfTree, Number.tree, JsonNumber.ofInt64, if_pos lt]
  | floating bits =>
      obtain ⟨wide, same, -, tree⟩ :=
        Number.exists_ofBits bits.toNat_lt (Number.isFinite_float64_iff.mp h)
      rw [numberOfTree, Number.tree, tree, UInt64.toNat_inj.mp same]

theorem key_numberOfTree_natural (n : UInt64) :
    (numberOfTree (.natural n)).key = .integer n.toNat := by
  rw [numberOfTree]
  split
  · next le => rw [Number.key, toInt_toInt64_of_le le]
  · rfl

theorem proper_ofInt64 (n : Int64) : (JsonNumber.ofInt64 n).Proper ∧
    (numberOfTree (.ofInt64 n)).key = .integer n.toInt := by
  rw [JsonNumber.ofInt64]
  split
  · next lt => exact ⟨lt, rfl⟩
  · next nonneg =>
    exact ⟨trivial, by rw [key_numberOfTree_natural, toNat_toUInt64_of_nonneg nonneg]⟩

theorem exists_tree_number {n : Number} (h : n.isFinite = true) :
    ∃ m : JsonNumber, m.Proper ∧ n.tree = .number m ∧ (numberOfTree m).key = n.key := by
  cases n with
  | int32 n =>
      obtain ⟨proper, key⟩ := proper_ofInt64 n.toInt64
      exact ⟨_, proper, rfl, by rw [key, Int32.toInt_toInt64, Number.key]⟩
  | int64 n =>
      obtain ⟨proper, key⟩ := proper_ofInt64 n
      exact ⟨_, proper, rfl, key⟩
  | uint64 n => exact ⟨.natural n, trivial, rfl, key_numberOfTree_natural n⟩
  | float32 bits =>
      obtain ⟨negative, significand, exponent, finite⟩ := Number.isFinite_float32_iff.mp h
      obtain ⟨fits, wide, place, decoded⟩ := Floating.Format.exists_convert_single finite
      obtain ⟨wide, same, proper, tree⟩ :=
        Number.exists_ofBits fits ⟨negative, wide, place, decoded⟩
      exact ⟨_, proper, tree, by rw [numberOfTree, Number.key, Number.key, same]⟩
  | float64 bits =>
      obtain ⟨wide, same, proper, tree⟩ :=
        Number.exists_ofBits bits.toNat_lt (Number.isFinite_float64_iff.mp h)
      exact ⟨_, proper, tree, by rw [numberOfTree, Number.key, Number.key, same]⟩

end Value

/-! ## Trees -/

inductive Json.Proper : Json → Prop where
  | null : Proper .null
  | bool (b : Bool) : Proper (.bool b)
  | number {n : JsonNumber} (proper : n.Proper) : Proper (.number n)
  | text (s : String) : Proper (.text s)
  | array {items : List Json} (all : ∀ item ∈ items, Proper item) : Proper (.array items)
  | object {members : List (String × Json)} (distinct : (members.map Prod.fst).Nodup)
      (all : ∀ m ∈ members, Proper m.2) : Proper (.object members)

/-- A value of the kinds that trees have: no bytes, no objects, maps with texts for keys only, and
finite numbers. -/
inductive Value.Treelike : Value → Prop where
  | null : Treelike .null
  | bool (b : Bool) : Treelike (.bool b)
  | number {n : Number} (finite : n.isFinite = true) : Treelike (.number n)
  | text (s : String) : Treelike (.text s)
  | list {items : List Value} (all : ∀ item ∈ items, Treelike item) : Treelike (.list items)
  | map {members : List (String × Value)} (distinct : (members.map Prod.fst).Nodup)
      (all : ∀ m ∈ members, Treelike m.2) :
      Treelike (.map (members.map fun m => (.text m.1, m.2)))

namespace Value

theorem ofTreeItems_eq (items : List Json) : ofTreeItems items = items.map ofTree := by
  induction items with
  | nil => rfl
  | cons item rest ih => rw [ofTreeItems, ih, List.map_cons]

theorem ofTreeMembers_eq (members : List (String × Json)) :
    ofTreeMembers members = members.map fun m => (.text m.1, ofTree m.2) := by
  induction members with
  | nil => rfl
  | cons m rest ih => rw [ofTreeMembers, ih, List.map_cons]

theorem pairwise_text {members : List (String × Value)} (distinct : (members.map Prod.fst).Nodup) :
    (members.map fun m => (Value.text m.1, m.2)).Pairwise fun x y => x.1.same y.1 = false := by
  rw [List.pairwise_map]
  exact (List.pairwise_map.mp distinct).imp fun apart => by simpa [same] using apart

theorem ofPairs_text {members : List (String × Value)} (distinct : (members.map Prod.fst).Nodup) :
    Keyed.ofPairs (members.map fun m => (Value.text m.1, m.2)) =
      members.map fun m => (Value.text m.1, m.2) := by
  refine Keyed.ofPairs_of_pairwise ?_
  rw [List.pairwise_map]
  refine (List.pairwise_map.mp distinct).imp fun {x y} apart => ?_
  change (y.1 == x.1) = false
  simpa using Ne.symm apart

theorem ofTree_object {members : List (String × Json)} (distinct : (members.map Prod.fst).Nodup) :
    ofTree (.object members) = .map (members.map fun m => (.text m.1, ofTree m.2)) := by
  have names : ((members.map fun m => (m.1, ofTree m.2)).map Prod.fst).Nodup := by
    simpa [Function.comp_def] using distinct
  have kept := ofPairs_text names
  simp only [List.map_map, Function.comp_def] at kept
  rw [ofTree, ofTreeMembers_eq, kept]

theorem treeItems_eq_ok {items : List Value} {trees : List Json}
    (h : List.Forall₂ (fun v j => v.tree = .ok j) items trees) : treeItems items = .ok trees := by
  induction h with
  | nil => rfl
  | cons head _ ih => rw [treeItems, head, ih]; rfl

theorem treeEntries_eq_ok {entries : List (String × Value)} {members : List (String × Json)}
    (h : List.Forall₂ (fun e m => e.1 = m.1 ∧ e.2.tree = .ok m.2) entries members) :
    treeEntries (entries.map fun e => (.text e.1, e.2)) = .ok members := by
  induction h with
  | nil => rfl
  | @cons e m _ _ head _ ih => rw [List.map_cons, treeEntries, head.2, ih, keyText, head.1]; rfl

/-- A tree is the tree of the value that it is read as. -/
theorem tree_ofTree {j : Json} (h : j.Proper) : (ofTree j).tree = .ok j := by
  induction h with
  | null => rfl
  | bool b => rfl
  | number proper => rw [ofTree, tree, tree_numberOfTree proper]
  | text s => rfl
  | array _ ih =>
      rw [ofTree, ofTreeItems_eq, tree, treeItems_eq_ok]
      · rfl
      · rw [List.forall₂_map_left_iff, List.forall₂_same]
        exact ih
  | @object members distinct _ ih =>
      have written : List.Forall₂ (fun e m => e.1 = m.1 ∧ e.2.tree = .ok m.2)
          (members.map fun m => (m.1, ofTree m.2)) members := by
        rw [List.forall₂_map_left_iff, List.forall₂_same]
        exact fun m hm => ⟨rfl, ih m hm⟩
      have trees := treeEntries_eq_ok written
      simp only [List.map_map, Function.comp_def] at trees
      rw [ofTree_object distinct, tree, trees]
      change Except.ok (Json.object (Keyed.ofPairs members)) = _
      rw [Keyed.ofPairs_of_nodup distinct]

/-! ## Values of the kinds that trees have -/

theorem Treelike.proper {v : Value} (h : v.Treelike) : v.Proper := by
  induction h with
  | null => exact .null
  | bool b => exact .bool b
  | number _ => exact .number _
  | text s => exact .text s
  | list _ ih => exact .list ih
  | map distinct _ ih =>
      exact .map (pairwise_text distinct) (List.forall_mem_map.mpr fun m _ => .text m.1)
        (List.forall_mem_map.mpr ih)

theorem isFinite_numberOfTree {n : JsonNumber} (h : n.Proper) :
    (numberOfTree n).isFinite = true := by
  cases n with
  | natural n =>
      rw [numberOfTree]
      split <;> rfl
  | negative n => rfl
  | floating bits => exact h

theorem treelike_ofTree {j : Json} (h : j.Proper) : (ofTree j).Treelike := by
  induction h with
  | null => exact .null
  | bool b => exact .bool b
  | number proper => exact .number (isFinite_numberOfTree proper)
  | text s => exact .text s
  | array _ ih =>
      rw [ofTree, ofTreeItems_eq]
      exact .list (List.forall_mem_map.mpr ih)
  | @object members distinct _ ih =>
      have names : ((members.map fun m => (m.1, ofTree m.2)).map Prod.fst).Nodup := by
        simpa [Function.comp_def] using distinct
      have values := Treelike.map names (List.forall_mem_map.mpr ih)
      rw [ofTree_object distinct]
      simpa only [List.map_map, Function.comp_def] using values

theorem exists_forall₂ {α β : Type} {R : α → β → Prop} {as : List α}
    (h : ∀ a ∈ as, ∃ b, R a b) : ∃ bs, List.Forall₂ R as bs := by
  induction as with
  | nil => exact ⟨[], .nil⟩
  | cons a as ih =>
      rw [List.forall_mem_cons] at h
      obtain ⟨b, hb⟩ := h.1
      obtain ⟨bs, hbs⟩ := ih h.2
      exact ⟨b :: bs, .cons hb hbs⟩

/-- A value of the kinds that trees have is written as a tree that is read as an equal value. -/
theorem Treelike.exists_tree {v : Value} (h : v.Treelike) :
    ∃ j : Json, j.Proper ∧ v.tree = .ok j ∧ (ofTree j == v) = true := by
  induction h with
  | null => exact ⟨.null, .null, rfl, rfl⟩
  | bool b => exact ⟨.bool b, .bool b, rfl, beq_self_eq_true b⟩
  | number finite =>
      obtain ⟨m, proper, tree, key⟩ := exists_tree_number finite
      exact ⟨.number m, .number proper, congrArg _ tree, (Number.beq_iff_key _ _).mpr key⟩
  | text s => exact ⟨.text s, .text s, rfl, beq_self_eq_true s⟩
  | @list items _ ih =>
      obtain ⟨trees, all⟩ := exists_forall₂ ih
      have written := treeItems_eq_ok (all.imp fun _ _ h => h.2.1)
      refine ⟨.array trees, ?_, ?_, ?_⟩
      · exact .array fun j hj => by
          obtain ⟨v, _, h⟩ := exists_of_matching (.refl trees) all hj
          exact h.1
      · rw [tree, written]
        rfl
      · change same (ofTree (.array trees)) (.list items) = true
        rw [ofTree, ofTreeItems_eq, same, sameItems_iff, List.forall₂_map_left_iff]
        exact all.flip.imp fun _ _ h => h.2.2
  | @map members distinct all ih =>
      have read : ∀ m ∈ members, ∃ t : String × Json,
          (m.1 = t.1 ∧ m.2.tree = .ok t.2) ∧ t.2.Proper ∧ (ofTree t.2 == m.2) = true := by
        intro m hm
        obtain ⟨j, proper, written, same⟩ := ih m hm
        exact ⟨(m.1, j), ⟨rfl, written⟩, proper, same⟩
      obtain ⟨trees, read⟩ := exists_forall₂ read
      have written := treeEntries_eq_ok (read.imp fun _ _ h => h.1)
      have names : trees.map Prod.fst = members.map Prod.fst := by
        rw [← List.forall₂_eq_eq_eq, List.forall₂_map_left_iff, List.forall₂_map_right_iff]
        exact read.flip.imp fun _ _ h => h.1.1.symm
      have proper : (Json.object trees).Proper := by
        refine .object (names ▸ distinct) fun t ht => ?_
        obtain ⟨m, _, h⟩ := exists_of_matching (.refl trees) read ht
        exact h.2.1
      refine ⟨.object trees, proper, ?_, ?_⟩
      · rw [tree, written]
        change Except.ok (Json.object (Keyed.ofPairs trees)) = _
        rw [Keyed.ofPairs_of_nodup (names ▸ distinct)]
      · have left := (treelike_ofTree proper).proper
        rw [ofTree_object (names ▸ distinct)] at left ⊢
        rw [map_same_iff left (Treelike.map distinct all).proper]
        refine ⟨_, .refl _, ?_⟩
        rw [List.forall₂_map_left_iff, List.forall₂_map_right_iff]
        refine read.flip.imp fun t m h => ⟨?_, h.2.2⟩
        rw [h.1.1]
        exact (Proper.text t.1).fair.refl

theorem tree_roundtrip {j : Json} (hj : j.Proper) {v : Value} (hv : v.Treelike) :
    (ofTree j).tree = .ok j ∧ ∃ k : Json, k.Proper ∧ v.tree = .ok k ∧ (ofTree k == v) = true :=
  ⟨tree_ofTree hj, hv.exists_tree⟩

end Value

namespace Sample

def integersTree : Json :=
  .array [.number (.natural 9223372036854775808), .number (.negative (-1))]

def numbersTree : Json :=
  .object [("z", integersTree), ("a", .object [("b", .number (.floating 0x3ff8000000000000))])]

def numbersValue : Value :=
  .map [(.text "z", .list [.number (.int32 (-1)), .number (.uint64 5)]),
    (.text "a", .number (.float32 0x3fc00000))]

theorem numbersTree_proper : numbersTree.Proper := by
  have negative : (JsonNumber.negative (-1)).Proper := show (-1 : Int64).toInt < 0 by decide
  have integers : integersTree.Proper :=
    .array (by simpa [List.forall_mem_cons] using ⟨.number trivial, .number negative⟩)
  have fraction : (JsonNumber.floating 0x3ff8000000000000).Proper :=
    show (Number.float64 0x3ff8000000000000).isFinite = true by decide
  have object : (Json.object [("b", .number (.floating 0x3ff8000000000000))]).Proper :=
    .object (by decide) (by simpa using .number fraction)
  exact .object (by decide) (by simpa [List.forall_mem_cons] using ⟨integers, object⟩)

theorem numbersValue_treelike : numbersValue.Treelike := by
  have list : (Value.list [.number (.int32 (-1)), .number (.uint64 5)]).Treelike :=
    .list (by simpa [List.forall_mem_cons] using ⟨.number rfl, .number rfl⟩)
  have fraction : (Number.float32 0x3fc00000).isFinite = true := by decide
  have distinct : (["z", "a"] : List String).Nodup := by decide
  exact @Value.Treelike.map [("z", _), ("a", _)] distinct
    (by simpa [List.forall_mem_cons] using ⟨list, .number fraction⟩)

end Sample

open Sample in
theorem Value.tree_roundtrip_numbers : numbersTree.Proper ∧ numbersValue.Treelike ∧
    (ofTree numbersTree).tree = .ok numbersTree ∧
    ∃ k : Json, k.Proper ∧ numbersValue.tree = .ok k ∧ (ofTree k == numbersValue) = true :=
  ⟨numbersTree_proper, numbersValue_treelike,
    tree_roundtrip numbersTree_proper numbersValue_treelike⟩

end RowGraph
