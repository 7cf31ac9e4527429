import RowGraph.Sql.Identifier
import RowGraph.Value.Basic

/-!
# Statements

A statement is built of pieces: fixed text, identifiers to be quoted, parameters, and fragments of
text that bring their own placeholders. `Statement.ofPieces` writes the pieces in a dialect; the
text and the parameters come from the same pieces in the same order.
-/

namespace RowGraph.Sql

inductive Piece where
  | fixed (text : String)
  | identifier (name : String)
  | param (value : Value)
  | fragment (text : String) (params : List Value)

def Piece.text (style : EscapeStyle) : Piece → String
  | .fixed text => text
  | .identifier name => style.escape name
  | .param _ => "?"
  | .fragment text _ => text

def Piece.params : Piece → List Value
  | .param value => [value]
  | .fragment _ params => params
  | _ => []

structure Statement where
  text : String
  params : List Value

def Statement.ofPieces (style : EscapeStyle) (pieces : List Piece) : Statement :=
  { text := String.join (pieces.map (·.text style)), params := pieces.flatMap Piece.params }

def separated (separator : String) (groups : List (List Piece)) : List Piece :=
  List.intercalate [.fixed separator] groups

structure Fragment where
  text : String
  params : List Value := []

def Fragment.piece (f : Fragment) : Piece := .fragment f.text f.params

/-! ## Texts of pieces -/

section

variable (style : EscapeStyle)

theorem text_nil : (Statement.ofPieces style []).text = "" := by
  rw [Statement.ofPieces, List.map_nil, String.join_nil]

theorem text_cons (piece : Piece) (rest : List Piece) :
    (Statement.ofPieces style (piece :: rest)).text =
      piece.text style ++ (Statement.ofPieces style rest).text := by
  simp only [Statement.ofPieces, List.map_cons, String.join_cons]

theorem text_append (front back : List Piece) :
    (Statement.ofPieces style (front ++ back)).text =
      (Statement.ofPieces style front).text ++ (Statement.ofPieces style back).text := by
  simp only [Statement.ofPieces, List.map_append, String.join_append]

theorem text_separated (separator : String) (groups : List (List Piece)) :
    (Statement.ofPieces style (separated separator groups)).text =
      String.intercalate separator (groups.map fun g => (Statement.ofPieces style g).text) := by
  induction groups with
  | nil => exact text_nil style
  | cons group rest ih =>
      cases rest with
      | nil => rw [separated, List.intercalate_singleton, List.map_singleton,
          String.intercalate_singleton]
      | cons next more =>
          have step : separated separator (group :: next :: more) =
              group ++ .fixed separator :: separated separator (next :: more) := by
            simp [separated, List.intercalate]
          rw [step, text_append, text_cons, ih, List.map_cons, List.map_cons, List.map_cons,
            String.intercalate_cons_cons, Piece.text, String.append_assoc]

end

end RowGraph.Sql
