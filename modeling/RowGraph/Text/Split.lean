/-!
# Cutting a text at a separator

`split` cuts at every separator and keeps empty pieces, so a text with `n` separators has
`n + 1` pieces (`pieces_length`) and joining them gives the text back (`joinPieces_pieces`).
`splitOnce` cuts at the first separator only.
-/

namespace RowGraph.Text

def pieces (separator : Char) : List Char → List (List Char)
  | [] => [[]]
  | c :: cs =>
      if c = separator then [] :: pieces separator cs
      else match pieces separator cs with
        | [] => [[c]]
        | piece :: rest => (c :: piece) :: rest

def joinPieces (separator : Char) : List (List Char) → List Char
  | [] => []
  | [piece] => piece
  | piece :: rest => piece ++ separator :: joinPieces separator rest

theorem pieces_ne_nil (separator : Char) (cs : List Char) : pieces separator cs ≠ [] := by
  cases cs with
  | nil => simp [pieces]
  | cons c cs =>
      simp only [pieces]
      split
      · simp
      · split <;> simp

theorem pieces_length (separator : Char) (cs : List Char) :
    (pieces separator cs).length = cs.count separator + 1 := by
  induction cs with
  | nil => rfl
  | cons c cs ih =>
      simp only [pieces]
      split
      · next h => subst h; simp [ih]
      · next h =>
        split
        · next hp => exact absurd hp (pieces_ne_nil separator cs)
        · next piece rest hp => rw [hp] at ih; simpa [List.count_cons, h] using ih

theorem joinPieces_pieces (separator : Char) (cs : List Char) :
    joinPieces separator (pieces separator cs) = cs := by
  induction cs with
  | nil => rfl
  | cons c cs ih =>
      simp only [pieces]
      cases hp : pieces separator cs with
      | nil => exact absurd hp (pieces_ne_nil separator cs)
      | cons piece rest =>
          rw [hp] at ih
          split
          · next h => subst h; rw [← ih]; rfl
          · rw [← ih]; cases rest <;> rfl

def split (separator : Char) (s : String) : List String :=
  (pieces separator s.toList).map String.ofList

def cutOnce (separator : Char) : List Char → Option (List Char × List Char)
  | [] => none
  | c :: cs =>
      if c = separator then some ([], cs)
      else (cutOnce separator cs).map fun (front, back) => (c :: front, back)

def splitOnce (separator : Char) (s : String) : Option (String × String) :=
  (cutOnce separator s.toList).map fun (front, back) => (String.ofList front, String.ofList back)

end RowGraph.Text
