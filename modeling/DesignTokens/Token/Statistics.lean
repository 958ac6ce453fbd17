import DesignTokens.Token.Build

/-! # Counts over a tree -/

namespace DesignTokens

/-- What a tree holds. -/
structure Statistics where
  tokens : Nat
  groups : Nat
  byType : Table String Nat
  maxDepth : Int
  withReferences : Nat
  unresolved : Nat
  deriving Repr, Inhabited

namespace Statistics

def nodes (s : Statistics) : Nat := s.tokens + s.groups

def depthOf (path : String) : Nat := path.toList.count '.' + 1

def countedType (t : Token) : String := (effectiveType t.type none).getD "untyped"

def countType (counts : Table String Nat) (type : String) : Table String Nat :=
  counts.put type ((counts.get? type).getD 0 + 1)

end Statistics

/-- The counts of a tree.  The depth of a node is the number of keys that lead to it. -/
def Group.statistics (g : Group) : Statistics :=
  let tokens := g.tokens
  let base := if g.label.path = "" then 0 else Statistics.depthOf g.label.path
  let depths := g.nodes.map fun n => (Statistics.depthOf n.path : Int) - base
  { tokens := tokens.length
    groups := g.nodes.length - tokens.length
    byType := (tokens.map Statistics.countedType).foldl Statistics.countType []
    maxDepth := depths.foldl max 0
    withReferences := tokens.countP Token.hasReferences
    unresolved := tokens.countP fun t => !t.resolved }

end DesignTokens
