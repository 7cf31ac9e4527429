import RowGraph.Failure
import RowGraph.Sql.Statement

/-!
# Databases

A database answers from two queues, one of replies to queries and one of outcomes of changes, and
keeps a record of all calls. When a queue is empty, a query finds no rows and a change affects one
row. A connection acquired for itself has no queues.
-/

namespace RowGraph

/-- A reply to a query: rows, or a failure, which a stream reports after delivering some rows. -/
inductive Reply where
  | rows (rows : List Row)
  | failure (delivered : List Row) (f : DatabaseFailure)

structure Outcome where
  insertedId : Option Value := none
  rowCount : Nat := 1

inductive Action where
  | query
  | stream
  | execute
  | acquire
  | release
  | destroy
  deriving DecidableEq

structure Call where
  acquired : Bool
  action : Action
  statement : Sql.Statement

structure Connection where
  acquired : Bool := false
  returning : Bool := false

structure Database where
  replies : List Reply := []
  outcomes : List (Except DatabaseFailure Outcome) := []
  calls : List Call := []

namespace Database

def record (d : Database) (c : Connection) (action : Action) (statement : Sql.Statement) :
    Database :=
  { d with calls := d.calls ++ [{ acquired := c.acquired, action, statement }] }

def signal (d : Database) (c : Connection) (action : Action) : Database :=
  d.record c action { text := "", params := [] }

def reply (d : Database) (c : Connection) : Reply × Database :=
  if c.acquired then (.rows [], d)
  else match d.replies with
    | [] => (.rows [], d)
    | reply :: rest => (reply, { d with replies := rest })

def outcome (d : Database) (c : Connection) : Except DatabaseFailure Outcome × Database :=
  if c.acquired then (.ok {}, d)
  else match d.outcomes with
    | [] => (.ok {}, d)
    | outcome :: rest => (outcome, { d with outcomes := rest })

def query (d : Database) (c : Connection) (statement : Sql.Statement) :
    Except DatabaseFailure (List Row) × Database :=
  match (d.record c .query statement).reply c with
  | (.rows rows, d) => (.ok rows, d)
  | (.failure _ f, d) => (.error f, d)

def stream (d : Database) (c : Connection) (statement : Sql.Statement) :
    List Row × Option DatabaseFailure × Database :=
  match (d.record c .stream statement).reply c with
  | (.rows rows, d) => (rows, none, d)
  | (.failure rows f, d) => (rows, some f, d)

def execute (d : Database) (c : Connection) (statement : Sql.Statement) :
    Except DatabaseFailure Outcome × Database :=
  (d.record c .execute statement).outcome c

def pushReply (d : Database) (reply : Reply) : Database :=
  { d with replies := d.replies ++ [reply] }

def pushOutcome (d : Database) (outcome : Except DatabaseFailure Outcome) : Database :=
  { d with outcomes := d.outcomes ++ [outcome] }

end Database
end RowGraph
