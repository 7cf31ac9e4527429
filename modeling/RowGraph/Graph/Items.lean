import RowGraph.Graph.Mapping
import RowGraph.Value.Display
import RowGraph.Value.Json

/-!
# Results

The mapped objects of a query, in row order or keyed by the index, and what the run of a query
gives back. In JSON the objects under keys are written with the displayed text of the key.
-/

namespace RowGraph

inductive Items where
  | list (objects : List Object)
  | indexed (entries : List (Value × Object))

namespace Items

def toList : Items → List Object
  | .list objects => objects
  | .indexed entries => entries.map Prod.snd

def size (items : Items) : Nat := items.toList.length

def get? : Items → Value → Option Object
  | .list _, _ => none
  | .indexed entries, key => entries.lookup key

def json : Items → Except KeyFault String
  | .list objects => do return Json.bracketed (← objects.mapM (·.value.json))
  | .indexed entries => do
      return Json.braced (← entries.mapM fun (key, object) => do
        return Json.quote key.display ++ ":" ++ (← object.value.json))

end Items

def Plan.mapRows (p : Plan) (groups : Groups) (rows : List Row) : Items :=
  if p.isIndexed then
    .indexed (Keyed.ofPairs (rows.map fun row =>
      let (object, index) := p.mapRow groups row
      (index.getD .null, object)))
  else .list (rows.map fun row => (p.mapRow groups row).1)

/-- What the run of a query gives back: its objects, the objects with the number of rows that
there would be without the limit, or nothing but that number if the objects were delivered. -/
inductive Output where
  | items (found : Items)
  | counted (found : Items) (total : Int)
  | streamed (total : Option Int)

namespace Output

def items? : Output → Option Items
  | .items found => some found
  | .counted found _ => some found
  | .streamed _ => none

def total? : Output → Option Int
  | .items _ => none
  | .counted _ total => some total
  | .streamed total => total

def json : Output → Except KeyFault String
  | .items found => found.json
  | .counted found total => do
      return Json.braced ["\"items\":" ++ (← found.json), "\"totalCount\":" ++ toString total]
  | .streamed none => .ok "true"
  | .streamed (some total) =>
      .ok (Json.braced ["\"items\":true", "\"totalCount\":" ++ toString total])

end Output
end RowGraph
