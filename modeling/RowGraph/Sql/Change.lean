import RowGraph.Sql.Statement

/-!
# Inserts, updates and deletes

Statements that change one row. An assignment is a column and its value; an update and a delete
find their row by its primary key.
-/

namespace RowGraph.Sql

abbrev Assignment := String × Value

inductive Change where
  | insert (table : String) (values : List Assignment) (returning : Option String)
  | update (table : String) (values : List Assignment) (key : Assignment)
  | delete (table : String) (key : Assignment)

def assignmentPieces (a : Assignment) : List Piece :=
  [.identifier a.1, .fixed " = ", .param a.2]

/-- The columns of an insert and their values; without any, each column gets its default. -/
def insertedPieces (values : List Assignment) : List Piece :=
  if values.isEmpty then [.fixed " DEFAULT VALUES"]
  else
    [.fixed " ("] ++ separated ", " (values.map fun a => [.identifier a.1]) ++
      [.fixed ") VALUES ("] ++ separated ", " (values.map fun a => [.param a.2]) ++ [.fixed ")"]

def Change.pieces : Change → List Piece
  | .insert table values returning =>
      [.fixed "INSERT INTO ", .identifier table] ++ insertedPieces values ++
        (match returning with
          | some column => [.fixed " RETURNING ", .identifier column]
          | none => [])
  | .update table values key =>
      [.fixed "UPDATE ", .identifier table, .fixed " SET "] ++
        separated ", " (values.map assignmentPieces) ++ [.fixed " WHERE "] ++ assignmentPieces key
  | .delete table key =>
      [.fixed "DELETE FROM ", .identifier table, .fixed " WHERE "] ++ assignmentPieces key

end RowGraph.Sql
