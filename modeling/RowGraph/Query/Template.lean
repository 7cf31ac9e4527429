import RowGraph.Query.Field
import RowGraph.Sql.Placeholder

/-!
# Templates

An expression of a query is text with references in braces, such as `{customer.name} LIKE ?`. A
reference is what stands between a brace and the next closing brace, if that is anything; all else
is literal. `Template.fill` puts quoted columns in the place of the references, and `splice` puts
values and subqueries in the place of the placeholders.
-/

namespace RowGraph

inductive Segment where
  | literal (text : String)
  | reference (field : String)
  deriving DecidableEq

def segmentsBefore (piece : List Char) : List Segment :=
  match Text.cutOnce '\x7b' piece with
  | some (front, field@(_ :: _)) =>
      [.literal (String.ofList front), .reference (String.ofList field)]
  | _ => [.literal (String.ofList (piece ++ ['\x7d']))]

def segmentsOf : List (List Char) → List Segment
  | [] => []
  | [last] => [.literal (String.ofList last)]
  | piece :: rest => segmentsBefore piece ++ segmentsOf rest

def segments (expression : String) : List Segment :=
  segmentsOf (Text.pieces '\x7d' expression.toList)

inductive TemplatePart where
  | literal (text : String)
  | field (item : Item)

abbrev Template := List TemplatePart

def Settings.part (s : Settings) (base : Entity) : Segment → Except Fault TemplatePart
  | .literal text => .ok (.literal text)
  | .reference field =>
      let field := Text.trim field
      (s.item base .expression [field] field).map .field

def Settings.template (s : Settings) (base : Entity) (expression : String) : Checked Template :=
  .all ((segments expression).map fun segment => .ofExcept (s.part base segment))

def Reference.quoted (style : Sql.EscapeStyle) (aliasOf : Path → Alias) (r : Reference) : String :=
  style.escape (aliasOf r.path).token ++ "." ++ style.escape r.column

namespace TemplatePart

def text (style : Sql.EscapeStyle) (aliasOf : Path → Alias) : TemplatePart → String
  | .literal text => text
  | .field item => String.join (item.references.map (·.quoted style aliasOf))

def item? : TemplatePart → Option Item
  | .literal _ => none
  | .field item => some item

end TemplatePart

namespace Template

def fill (style : Sql.EscapeStyle) (aliasOf : Path → Alias) (t : Template) : String :=
  String.join (t.map (·.text style aliasOf))

def items (t : Template) : List Item := t.filterMap TemplatePart.item?

/-- The number of placeholders of a template. Aliases hold neither quotes nor question marks, so
that any assignment of them gives the same number. -/
def placeholders (style : Sql.EscapeStyle) (t : Template) : Nat :=
  (Sql.positions (t.fill style fun _ => .root)).length

end Template

/-! ## Parameters of a filter -/

inductive Bound where
  | value (v : Value)
  | statement (s : Sql.Statement)

namespace Bound

def text : Bound → String
  | .value _ => "?"
  | .statement s => "(" ++ s.text ++ ")"

def params : Bound → List Value
  | .value v => [v]
  | .statement s => s.params

end Bound

/-- The pieces of a text with something in the place of the placeholders between them. A
placeholder with nothing to take its place stays. -/
def splicePieces : List String → List Bound → String
  | [], _ => ""
  | [last], _ => last
  | piece :: rest, [] => piece ++ "?" ++ splicePieces rest []
  | piece :: rest, bound :: more => piece ++ bound.text ++ splicePieces rest more

def splice (text : String) (bounds : List Bound) : Sql.Fragment :=
  { text := splicePieces (Sql.cut text) bounds, params := bounds.flatMap Bound.params }

end RowGraph
