/-!
# Faults

What can be wrong with a schema, a field or a clause. A `Fault` is a cause; `Fault.message` is
its one wording. Faults of a query are collected and reported together.
-/

namespace RowGraph

inductive SchemaFlaw where
  | repeatedProperty (name entity : String)
  | repeatedEntity (entity : String)
  | keyNotColumn (key entity : String)
  | discriminatorNotColumn (column entity : String)
  | boundKeyNotColumn (key table : String)
  | foreignKeyNotColumn (key table : String)
  deriving DecidableEq

def SchemaFlaw.message : SchemaFlaw → String
  | .repeatedProperty name entity =>
      "There is already a field named '" ++ name ++ "' in the entity '" ++ entity ++ "'."
  | .repeatedEntity entity => "An entity with the name '" ++ entity ++ "' is already defined."
  | .keyNotColumn key entity =>
      "Primary key '" ++ key ++ "' is not a column of '" ++ entity ++ "'."
  | .discriminatorNotColumn column entity =>
      "Discriminator '" ++ column ++ "' is not a column of '" ++ entity ++ "'."
  | .boundKeyNotColumn key table =>
      "No field with the name '" ++ key ++ "' exists in table '" ++ table ++ "'."
  | .foreignKeyNotColumn key table =>
      "No column with the name '" ++ key ++ "' in the table '" ++ table ++ "' is found."

inductive Fault where
  | unresolvedField (field entity : String)
  | relationAsField (expression : String)
  | wildcardOutsideSelect
  | exclusionOutsideSelect
  | toManyOutsideSelect (expression : String)
  | emptyField (fields : String)
  | bridgeCollision (field table : String)
  | unknownEntity (name : String)
  | sourceSetTwice
  | noSource
  | tooManyValues (expression : String) (placeholders values : Nat)
  | columnInToManyPath (expression : String)
  | invalidSchema (flaw : SchemaFlaw)
  deriving DecidableEq

def Fault.message : Fault → String
  | .unresolvedField field entity =>
      "Field '" ++ field ++ "' cannot be resolved in the table '" ++ entity ++ "'."
  | .relationAsField expression =>
      "'" ++ expression ++
        "' represents a table, so you must specify some fields to be used in the query."
  | .wildcardOutsideSelect => "* symbol is not valid outside of select or selectWith sections."
  | .exclusionOutsideSelect =>
      "Negation symbol ! is not valid outside of select or selectWith sections."
  | .toManyOutsideSelect expression =>
      "toMany expressions are not allowed outside the select expressions: '" ++ expression ++ "'"
  | .emptyField fields => "Found an empty field in the field list: '" ++ fields ++ "'"
  | .bridgeCollision field table =>
      "Bridge field '" ++ field ++ "' in table '" ++ table ++ "' creates a name collision."
  | .unknownEntity name => "No entity named '" ++ name ++ "' is defined."
  | .sourceSetTwice => "From table is already set."
  | .noSource => "No from table is set."
  | .tooManyValues expression placeholders values =>
      toString values ++ " values were supplied for " ++ toString placeholders ++
        " placeholders in '" ++ expression ++ "'"
  | .columnInToManyPath expression =>
      "'" ++ expression ++ "' is a simple field and cannot be part of a toMany expression."
  | .invalidSchema flaw => "Invalid schema: " ++ flaw.message

def Fault.messages (faults : List Fault) : String :=
  String.intercalate "\n" (faults.map Fault.message)

end RowGraph
