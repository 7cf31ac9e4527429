import RowGraph.Environment
import RowGraph.Schema.Basic
import RowGraph.Sql.Identifier

/-!
# Settings

What all queries of a session share: the schema, the configuration and the dialect's quotes.
-/

namespace RowGraph

structure Settings where
  schema : Schema
  config : Config := {}
  style : Sql.EscapeStyle := .doubleQuote

end RowGraph
