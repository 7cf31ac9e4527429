/-!
# Join paths and aliases

A join path is the list of bridges that lead from the base entity to a joined table; the base
table has the empty path. Each path of a query gets an alias, numbered in order of first use, and
each selected value a label made of the alias and a field. `Path.ext` says that a path is its list
of bridges; its depth is kept beside them only to tell most paths apart at once.
-/

namespace RowGraph

structure Path where
  bridges : List String
  depth : Nat := bridges.length
  depth_eq : depth = bridges.length := by rfl

namespace Path

theorem ext {p q : Path} (h : p.bridges = q.bridges) : p = q := by
  obtain ⟨bridges, depth, hd⟩ := p
  obtain ⟨other, more, hm⟩ := q
  subst hd hm h
  rfl

instance : DecidableEq Path := fun p q =>
  -- in a chain of one bridge all paths have the same names, but no two the same depth
  if hd : p.depth = q.depth then
    if hb : p.bridges = q.bridges then .isTrue (ext hb)
    else .isFalse fun h => hb (congrArg bridges h)
  else .isFalse fun h => hd (congrArg depth h)

def root : Path := { bridges := [] }

/-- The path one bridge further. A first bridge without a name adds nothing. -/
def enter (p : Path) (bridge : String) : Path :=
  if p.bridges.isEmpty && bridge.isEmpty then root
  else
    { bridges := p.bridges ++ [bridge]
      depth := p.depth + 1
      depth_eq := by simp [p.depth_eq] }

def text (p : Path) : String := String.intercalate "." p.bridges

end Path

structure Alias where
  index : Nat
  deriving DecidableEq

namespace Alias

def root : Alias := ⟨0⟩

def token (a : Alias) : String := "#" ++ toString a.index

def label (a : Alias) (field : String) : String := a.token ++ "." ++ field

end Alias

/-- Where the results of a toMany query go: under `property` of the objects at the path `owner`. -/
structure Mount where
  owner : Path
  property : String
  deriving DecidableEq

end RowGraph
