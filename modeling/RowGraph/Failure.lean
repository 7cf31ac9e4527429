import RowGraph.Fault

/-!
# Failures

How an operation on a session or a query can fail: its clauses do not resolve, a name is unknown,
it is used against the rules, or the database reports a failure.
-/

namespace RowGraph

inductive KeyedOperation where
  | hydrate
  | update
  | delete
  deriving DecidableEq

def KeyedOperation.name : KeyedOperation → String
  | .hydrate => "hydrate"
  | .update => "update"
  | .delete => "delete"

inductive Misuse where
  | notToMany (expression last : String)
  | streamingToMany
  | runsWithOwner
  | missingKey (operation : KeyedOperation)
  | nothingToSave
  deriving DecidableEq

def Misuse.message : Misuse → String
  | .notToMany expression last =>
      "'" ++ expression ++ "' does not resolve to a toMany field. " ++
        "Last item in a toMany expression must be a toMany field but '" ++ last ++ "' is not."
  | .streamingToMany => "Streaming queries may not have toMany fields."
  | .runsWithOwner =>
      "A toMany query runs as part of the query it belongs to; call exec on that query."
  | .missingKey operation =>
      "Can't " ++ operation.name ++ " without the primary key set."
  | .nothingToSave => "Can't save: no fields on the object are set."

inductive DatabaseFailure where
  | config (text : String)
  | validation (text : String)
  | raised (text : String)
  | within (context : String) (inner : DatabaseFailure)
  deriving DecidableEq

def DatabaseFailure.message : DatabaseFailure → String
  | .config text => "Configuration error: " ++ text
  | .validation text => "Validation: " ++ text
  | .raised text => text
  | .within context inner => context ++ " " ++ inner.message

inductive Failure where
  | build (faults : List Fault)
  | resolution (f : Fault)
  | misuse (m : Misuse)
  | database (f : DatabaseFailure)
  deriving DecidableEq

def Failure.message : Failure → String
  | .build faults => Fault.messages faults
  | .resolution f => f.message
  | .misuse m => m.message
  | .database f => f.message

end RowGraph
