import RowGraph.Run
import RowGraph.Sql.Change

/-!
# Sessions

A session loads, saves and deletes single objects by their primary keys. Saving writes the fields
of an object that are columns of its entity; an object whose key is set is updated, any other is
inserted and gets the key that the database returns.
-/

namespace RowGraph

structure Session where
  settings : Settings
  connection : Connection := {}

inductive SaveCommand where
  | insert
  | update
  deriving DecidableEq

structure Saved where
  command : SaveCommand
  affected : Bool
  insertedId : Option Value

namespace Entity

def key? (e : Entity) (o : Object) : Option Value :=
  (o.get? e.primaryKey).filter (!·.isNull)

/-- The fields of an object that are written: its columns without the primary key, except that an
insert writes a key that is set. -/
def assignments (e : Entity) (command : SaveCommand) (o : Object) : List Sql.Assignment :=
  o.fields.filter fun (field, value) =>
    e.hasColumn field && (field != e.primaryKey || command == .insert && !value.isNull)

def missingDiscriminator? (e : Entity) (written : List Sql.Assignment) : Option Sql.Assignment :=
  (e.discriminator.filter fun d => !written.any (·.1 == d.column)).map fun d =>
    (d.column, .text d.value)

end Entity

namespace Session

def entity (s : Session) (name : String) : Except Failure Entity :=
  match s.settings.schema.entity? name with
  | some e => .ok e
  | none => .error (.resolution (.unknownEntity name))

def execute (s : Session) (change : Sql.Change) (d : Database) :
    Except Failure Outcome × Database :=
  let statement := Sql.Statement.ofPieces s.settings.style change.pieces
  let (outcome, d) := d.execute s.connection statement
  let context := "While executing '" ++ statement.text ++ "'"
  (outcome.mapError fun f => .database (.within context f), d)

/-! ## Loading -/

/-- The query for the object of an entity under a key. Blank fields select every column. -/
def keyQuery (s : Session) (e : Entity) (id : Value) (fields : String) : Query :=
  let q : Query := {}
  (((q.setSource s.settings.schema e.name).select fields).filter
    ("\x7b" ++ e.primaryKey ++ "\x7d = ?") [.value id]).limit 1

def load (s : Session) (entity : String) (id : Value) (fields : String) (d : Database) :
    Except Failure (Option Object) × Database :=
  match s.entity entity with
  | .error f => (.error f, d)
  | .ok e =>
      let run := (s.keyQuery e id fields).exec s.settings s.connection d
      (run.result.map fun output => output.items?.bind (·.toList.head?), run.database)

def hydrate (s : Session) (o : Object) (fields : String) (d : Database) :
    Except Failure Bool × Object × Database :=
  match s.entity o.entity with
  | .error f => (.error f, o, d)
  | .ok e => match e.key? o with
    | none => (.error (.misuse (.missingKey .hydrate)), o, d)
    | some id => match s.load o.entity id fields d with
      | (.error f, d) => (.error f, o, d)
      | (.ok none, d) => (.ok false, o, d)
      | (.ok (some loaded), d) => (.ok true, o.merge loaded, d)

/-! ## Saving -/

def change (s : Session) (e : Entity) (command : SaveCommand) (o : Object)
    (written : List Sql.Assignment) : Except Failure Sql.Change :=
  match command with
  | .insert =>
      .ok (.insert e.table written (if s.connection.returning then some e.primaryKey else none))
  | .update => match e.key? o with
    | none => .error (.misuse (.missingKey .update))
    | some key => .ok (.update e.table written (e.primaryKey, key))

def assignKey (e : Entity) (command : SaveCommand) (outcome : Outcome) (o : Object) : Object :=
  match command, outcome.insertedId with
  | .insert, some id => o.put e.primaryKey id
  | _, _ => o

/-- Writes an object. The discriminator is added to the object before the statement is run. -/
def persist (s : Session) (command : SaveCommand) (o : Object) (d : Database) :
    Except Failure Saved × Object × Database :=
  match s.entity o.entity with
  | .error f => (.error f, o, d)
  | .ok e =>
      let fields := e.assignments command o
      if fields.isEmpty then (.error (.misuse .nothingToSave), o, d)
      else
        let added := e.missingDiscriminator? fields
        let o := added.elim o fun (column, value) => o.put column value
        match s.change e command o (fields ++ added.toList) with
        | .error f => (.error f, o, d)
        | .ok change => match s.execute change d with
          | (.error f, d) => (.error f, o, d)
          | (.ok outcome, d) =>
              (.ok { command, affected := outcome.rowCount > 0, insertedId := outcome.insertedId },
                assignKey e command outcome o, d)

def insert (s : Session) (o : Object) (d : Database) : Except Failure Saved × Object × Database :=
  s.persist .insert o d

def save (s : Session) (o : Object) (d : Database) : Except Failure Saved × Object × Database :=
  match s.entity o.entity with
  | .error f => (.error f, o, d)
  | .ok e => s.persist (if (e.key? o).isSome then .update else .insert) o d

/-! ## Deleting -/

def deleteById (s : Session) (entity : String) (id : Value) (d : Database) :
    Except Failure Bool × Database :=
  match s.entity entity with
  | .error f => (.error f, d)
  | .ok e =>
      let (outcome, d) := s.execute (.delete e.table (e.primaryKey, id)) d
      (outcome.map (·.rowCount > 0), d)

def delete (s : Session) (o : Object) (d : Database) : Except Failure Bool × Database :=
  match s.entity o.entity with
  | .error f => (.error f, d)
  | .ok e => match e.key? o with
    | none => (.error (.misuse (.missingKey .delete)), d)
    | some id => s.deleteById o.entity id d

/-! ## Connections -/

def acquire (s : Session) (d : Database) : Session × Database :=
  ({ s with connection := { acquired := true } }, d.signal s.connection .acquire)

def release (s : Session) (d : Database) : Database := d.signal s.connection .release

def destroy (s : Session) (d : Database) : Database := d.signal s.connection .destroy

end Session
end RowGraph
