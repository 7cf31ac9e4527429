import RowGraph.Query.Basic
import RowGraph.Text.Extending
import RowGraph.Text.Invisible
import RowGraph.Text.Unassigned

/-!
# Descriptions of queries

A one-line description of a query for diagnosis: its entity, its statement if it is compiled, and
the mounts of its children. Texts are quoted, with quotes and backslashes escaped, and with every
character written by its code that would not show by itself.
-/

namespace RowGraph

/-- Whether a character shows by itself: it leaves a mark of its own, and one that does not depend
on the character in front of it. -/
def showsAlone (c : Char) : Bool :=
  !(Text.isExtending c || Text.isInvisible c || Text.isUnassigned c)

def describeChar (c : Char) : List Char :=
  if c = '"' ∨ c = '\\' then ['\\', c]
  else if c = '\n' then ['\\', 'n']
  else if c = '\t' then ['\\', 't']
  else if c = '\r' then ['\\', 'r']
  else if c.toNat = 0 then ['\\', '0']
  else if showsAlone c then [c]
  else ['\\', 'u', '\x7b'] ++ Nat.toDigits 16 c.toNat ++ ['\x7d']

def describeText (s : String) : String :=
  String.ofList ('"' :: s.toList.flatMap describeChar ++ ['"'])

def describeOption : Option String → String
  | none => "None"
  | some s => "Some(" ++ describeText s ++ ")"

def Mount.describe (m : Mount) : String :=
  "MountPoint \x7b owner_path: " ++ describeText m.owner.text ++ ", property: " ++
    describeText m.property ++ " \x7d"

def Query.describe (q : Query) : String :=
  "Query \x7b from: " ++ describeOption q.clauses.source ++ ", sql: " ++
    describeOption (q.compiled.map (·.statement.text)) ++ ", children: [" ++
    String.intercalate ", " (q.children.map fun (mount, _) => mount.describe) ++ "], .. \x7d"

end RowGraph
