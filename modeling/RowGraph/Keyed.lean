/-!
# Keyed entries in insertion order

A list of pairs used as a map that remembers the order of insertion. Putting an equal key
replaces the value and keeps the key and the position of the first insertion; erasing keeps the
order of the rest. Look-up is `List.lookup`. The main statements are the two look-up equations
`lookup_put_self` and `lookup_put_of_ne`, and `keys_put`, which says where a key lands.
-/

namespace RowGraph.Keyed

variable {κ : Type} {α : Type}

def put [BEq κ] (key : κ) (value : α) : List (κ × α) → List (κ × α)
  | [] => [(key, value)]
  | (k, v) :: rest => if key == k then (k, value) :: rest else (k, v) :: put key value rest

def ofPairs [BEq κ] (pairs : List (κ × α)) : List (κ × α) :=
  pairs.foldl (fun entries (key, value) => put key value entries) []

def erase [BEq κ] (key : κ) : List (κ × α) → List (κ × α)
  | [] => []
  | (k, v) :: rest => if key == k then rest else (k, v) :: erase key rest

def modify [BEq κ] (key : κ) (change : α → α) : List (κ × α) → List (κ × α)
  | [] => []
  | (k, v) :: rest => if key == k then (k, change v) :: rest else (k, v) :: modify key change rest

def putNew [BEq κ] (key : κ) (value : α) (entries : List (κ × α)) : List (κ × α) :=
  if (entries.lookup key).isSome then entries else entries ++ [(key, value)]

def distinct [BEq κ] : List κ → List κ
  | [] => []
  | item :: rest => item :: (distinct rest).filter fun other => !(item == other)

theorem lookup_put_self [BEq κ] [ReflBEq κ] (key : κ) (value : α) (entries : List (κ × α)) :
    (put key value entries).lookup key = some value := by
  induction entries with
  | nil => simp [put]
  | cons entry rest ih =>
      obtain ⟨k, v⟩ := entry
      simp only [put]
      split
      · next h => simp [List.lookup_cons, h]
      · next h => simp [List.lookup_cons, h, ih]

theorem lookup_put_of_ne [BEq κ] [PartialEquivBEq κ] {key other : κ} (value : α)
    (entries : List (κ × α)) (h : (other == key) = false) :
    (put key value entries).lookup other = entries.lookup other := by
  induction entries with
  | nil => simp [put, List.lookup_cons, h]
  | cons entry rest ih =>
      obtain ⟨k, v⟩ := entry
      simp only [put]
      split
      · next hk =>
        have ho : (other == k) = false := by
          rw [Bool.eq_false_iff]
          intro hok
          exact Bool.eq_false_iff.mp h (PartialEquivBEq.trans hok (PartialEquivBEq.symm hk))
        simp [List.lookup_cons, ho]
      · simp only [List.lookup_cons, ih]

theorem keys_put [BEq κ] (key : κ) (value : α) (entries : List (κ × α)) :
    (put key value entries).map Prod.fst =
      if entries.any (fun entry => key == entry.1) then entries.map Prod.fst
      else entries.map Prod.fst ++ [key] := by
  induction entries with
  | nil => simp [put]
  | cons entry rest ih =>
      obtain ⟨k, v⟩ := entry
      simp only [put]
      split
      · next h => simp [h]
      · next h =>
        simp only [List.map_cons, ih, List.any_cons, h]
        by_cases hr : (rest.any fun entry => key == entry.1) <;> simp [hr]

end RowGraph.Keyed
