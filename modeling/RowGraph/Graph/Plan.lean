import RowGraph.Graph.Path
import RowGraph.Value.Object

/-!
# Mapping plans

What the mapping of rows to objects needs to know about a statement: the aliases that become
objects and where these are attached, the toMany properties, and the index of the results.
-/

namespace RowGraph

structure Attachment where
  parent : Alias
  property : String
  deriving DecidableEq

/-- An alias that becomes an object; the root has no attachment. The primary key tells whether
the row has the object at all; `stripKey` says that it was selected for this reason only. -/
structure AliasPlan where
  name : Alias
  entity : String
  primaryKey : String
  attachment : Option Attachment
  stripKey : Bool
  deriving DecidableEq

structure MountPlan where
  mount : Mount
  owner : Alias
  ownerKey : String
  deriving DecidableEq

def MountPlan.keyLabel (m : MountPlan) : String := m.owner.label m.ownerKey

inductive IndexTarget where
  | label (label : String)
  | computed (key : Object → Value)

/-- A mapping plan. An alias comes after the alias that it is attached to. -/
structure Plan where
  aliases : List AliasPlan
  mounts : List MountPlan
  index : Option IndexTarget

def Plan.isIndexed (p : Plan) : Bool := p.index.isSome

end RowGraph
