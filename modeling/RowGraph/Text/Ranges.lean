/-!
# Ranges of code points

A set of characters given by ranges of code points in ascending order. A look-up stops at the
first range that starts behind the character, and misses nothing by that.
-/

namespace RowGraph.Text

def ascending : List (Nat × Nat) → Bool
  | [] => true
  | (first, last) :: rest =>
      first ≤ last && rest.head?.all (fun next => last < next.1) && ascending rest

structure Ranges where
  list : List (Nat × Nat)
  inOrder : ascending list = true := by decide +kernel

def covers (n : Nat) : List (Nat × Nat) → Bool
  | [] => false
  | (first, last) :: rest => first ≤ n && (n ≤ last || covers n rest)

def Ranges.contains (r : Ranges) (c : Char) : Bool := covers c.toNat r.list

end RowGraph.Text
