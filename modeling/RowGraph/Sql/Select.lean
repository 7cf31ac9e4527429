import RowGraph.Sql.Statement

/-!
# Selects

A select statement as a structure, and its text. The parameters come in the order of the clauses:
those of the conditions, of the grouping condition and of the limit. `Select.countPieces` wraps
the same statement without order and limit to count its rows.
-/

namespace RowGraph.Sql

structure QualifiedColumn where
  qualifier : String
  column : String
  deriving DecidableEq

structure LabelledColumn where
  source : QualifiedColumn
  label : String
  deriving DecidableEq

structure LeftJoin where
  table : String
  tableAlias : String
  primaryKey : String
  foreignKey : QualifiedColumn
  deriving DecidableEq

inductive Condition where
  | fragment (f : Fragment)
  | equals (column : QualifiedColumn) (value : Value)
  | among (column : QualifiedColumn) (values : List Value)

structure Select where
  options : Option String
  distinct : Bool
  columns : List LabelledColumn
  expressions : List Fragment
  table : String
  tableAlias : String
  joins : List LeftJoin
  conditions : List Condition
  group : Option Fragment
  having : Option Fragment
  order : Option Fragment
  limit : Option Fragment

def QualifiedColumn.pieces (c : QualifiedColumn) : List Piece :=
  [.identifier c.qualifier, .fixed ".", .identifier c.column]

def LabelledColumn.pieces (c : LabelledColumn) : List Piece :=
  c.source.pieces ++ [.fixed " AS ", .identifier c.label]

def LeftJoin.pieces (j : LeftJoin) : List Piece :=
  [.fixed " LEFT JOIN ", .identifier j.table, .fixed " ", .identifier j.tableAlias,
      .fixed " ON "] ++
    (QualifiedColumn.mk j.tableAlias j.primaryKey).pieces ++ [.fixed " = "] ++ j.foreignKey.pieces

/-- A condition; a fragment is put in parentheses, since it may contain alternatives. -/
def Condition.pieces : Condition → List Piece
  | .fragment f => [.fixed "(", f.piece, .fixed ")"]
  | .equals column value => column.pieces ++ [.fixed " = ", .param value]
  | .among column values =>
      column.pieces ++ [.fixed " IN ("] ++ separated ", " (values.map fun v => [.param v]) ++
        [.fixed ")"]

def clausePieces (keyword : String) : Option Fragment → List Piece
  | none => []
  | some f => [.fixed keyword, f.piece]

namespace Select

def listPieces (s : Select) : List Piece :=
  separated ", " (s.columns.map LabelledColumn.pieces ++ s.expressions.map fun f => [f.piece])

def bodyPieces (s : Select) : List Piece :=
  [.fixed "SELECT "] ++
    (match s.options with
      | some options => [.fragment options [], .fixed " "]
      | none => []) ++
    (if s.distinct then [.fixed "DISTINCT "] else []) ++ s.listPieces ++
    [.fixed " FROM ", .identifier s.table, .fixed " ", .identifier s.tableAlias] ++
    s.joins.flatMap LeftJoin.pieces ++
    (if s.conditions.isEmpty then []
      else .fixed " WHERE " :: separated " AND " (s.conditions.map Condition.pieces)) ++
    clausePieces " GROUP BY " s.group ++ clausePieces " HAVING " s.having

def pieces (s : Select) : List Piece :=
  s.bodyPieces ++ clausePieces " ORDER BY " s.order ++ clausePieces " LIMIT " s.limit

def countPieces (s : Select) : List Piece :=
  [.fixed "SELECT COUNT(*) AS ", .identifier "count", .fixed " FROM ("] ++ s.bodyPieces ++
    [.fixed ") AS ", .identifier "derived"]

end Select

/-! ## Texts -/

section

variable (style : EscapeStyle)

def QualifiedColumn.text (c : QualifiedColumn) : String :=
  style.escape c.qualifier ++ "." ++ style.escape c.column

def LabelledColumn.text (c : LabelledColumn) : String :=
  c.source.text style ++ " AS " ++ style.escape c.label

def LeftJoin.text (j : LeftJoin) : String :=
  String.join [" LEFT JOIN ", style.escape j.table, " ", style.escape j.tableAlias, " ON ",
    (QualifiedColumn.mk j.tableAlias j.primaryKey).text style, " = ", j.foreignKey.text style]

def Condition.text : Condition → String
  | .fragment f => "(" ++ f.text ++ ")"
  | .equals column _ => column.text style ++ " = ?"
  | .among column values =>
      column.text style ++ " IN (" ++ String.intercalate ", " (values.map fun _ => "?") ++ ")"

def clauseText (keyword : String) (clause : Option Fragment) : String :=
  clause.elim "" fun f => keyword ++ f.text

def Select.bodyText (s : Select) : String :=
  "SELECT " ++ s.options.elim "" (· ++ " ") ++ (if s.distinct then "DISTINCT " else "") ++
    String.intercalate ", " (s.columns.map (·.text style) ++ s.expressions.map (·.text)) ++
    " FROM " ++ style.escape s.table ++ " " ++ style.escape s.tableAlias ++
    String.join (s.joins.map (·.text style)) ++
    (if s.conditions.isEmpty then ""
      else " WHERE " ++ String.intercalate " AND " (s.conditions.map (·.text style))) ++
    clauseText " GROUP BY " s.group ++ clauseText " HAVING " s.having

theorem QualifiedColumn.text_pieces (c : QualifiedColumn) :
    (Statement.ofPieces style c.pieces).text = c.text style := by
  simp only [pieces, text, text_cons, text_nil, Piece.text, String.append_assoc,
    String.append_empty]

theorem LabelledColumn.text_pieces (c : LabelledColumn) :
    (Statement.ofPieces style c.pieces).text = c.text style := by
  simp only [pieces, text, text_append, text_cons, text_nil, c.source.text_pieces, Piece.text,
    String.append_assoc, String.append_empty]

theorem LeftJoin.text_pieces (j : LeftJoin) :
    (Statement.ofPieces style j.pieces).text = j.text style := by
  simp only [pieces, text, text_append, text_cons, text_nil, QualifiedColumn.text_pieces,
    Piece.text, String.join_cons, String.join_nil, String.append_assoc, String.append_empty]

theorem Condition.text_pieces (c : Condition) :
    (Statement.ofPieces style c.pieces).text = c.text style := by
  have mark : " = " ++ "?" = " = ?" := by decide
  cases c with
  | fragment | equals | among =>
      simp only [pieces, text, text_append, text_cons, text_nil, text_separated, List.map_map,
        Function.comp_def, QualifiedColumn.text_pieces, Fragment.piece, Piece.text, mark,
        String.append_assoc, String.append_empty]

theorem text_clausePieces (keyword : String) (clause : Option Fragment) :
    (Statement.ofPieces style (clausePieces keyword clause)).text = clauseText keyword clause := by
  cases clause with
  | none => exact text_nil style
  | some f =>
      simp only [clausePieces, clauseText, text_cons, text_nil, Fragment.piece, Piece.text,
        String.append_empty, Option.elim_some]

namespace Select

variable (s : Select)

theorem text_listPieces : (Statement.ofPieces style s.listPieces).text =
    String.intercalate ", " (s.columns.map (·.text style) ++ s.expressions.map (·.text)) := by
  simp only [listPieces, text_separated, List.map_append, List.map_map, Function.comp_def,
    LabelledColumn.text_pieces, text_cons, text_nil, Fragment.piece, Piece.text,
    String.append_empty]

theorem text_joins (joins : List LeftJoin) :
    (Statement.ofPieces style (joins.flatMap LeftJoin.pieces)).text =
      String.join (joins.map (·.text style)) := by
  induction joins with
  | nil => exact text_nil style
  | cons join rest ih =>
      rw [List.flatMap_cons, text_append, join.text_pieces, ih, List.map_cons, String.join_cons]

theorem text_where (conditions : List Condition) :
    (Statement.ofPieces style (if conditions.isEmpty then []
      else .fixed " WHERE " :: separated " AND " (conditions.map Condition.pieces))).text =
      if conditions.isEmpty then ""
      else " WHERE " ++ String.intercalate " AND " (conditions.map (·.text style)) := by
  split
  · exact text_nil style
  · simp only [text_cons, text_separated, List.map_map, Function.comp_def, Condition.text_pieces,
      Piece.text]

/-- The labelled columns stand in front of the expressions, and the joins behind the table, once
each and in their order. -/
theorem text_bodyPieces : (Statement.ofPieces style s.bodyPieces).text = s.bodyText style := by
  unfold bodyPieces bodyText
  rw [text_append, text_clausePieces, text_append, text_clausePieces, text_append, text_where,
    text_append, text_joins, text_append, text_append, text_listPieces]
  cases s.options <;> cases s.distinct
  all_goals
    simp only [text_append, text_cons, text_nil, Piece.text, Option.elim_none, Option.elim_some,
      if_true, if_false, Bool.false_eq_true, String.append_assoc, String.append_empty]

theorem text_pieces : (Statement.ofPieces style s.pieces).text =
    s.bodyText style ++ clauseText " ORDER BY " s.order ++ clauseText " LIMIT " s.limit := by
  simp only [pieces, text_append, text_bodyPieces, text_clausePieces]

theorem text_countPieces : (Statement.ofPieces style s.countPieces).text =
    "SELECT COUNT(*) AS " ++ style.escape "count" ++ " FROM (" ++ s.bodyText style ++ ") AS " ++
      style.escape "derived" := by
  simp only [countPieces, text_append, text_bodyPieces, text_cons, text_nil, Piece.text,
    String.append_assoc, String.append_empty]

end Select

end

end RowGraph.Sql
