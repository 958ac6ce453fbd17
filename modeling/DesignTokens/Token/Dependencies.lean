import DesignTokens.Graph.Cycles
import DesignTokens.Token.Build

/-! # Which token refers to which -/

namespace DesignTokens

namespace Group

/-- The graph of aliases: every token that makes some, with the paths it refers to. -/
def aliasGraph (g : Group) : Graph String :=
  let referring := g.tokens.filter fun t => !t.references.isEmpty
  Table.ofPairs (referring.map fun t => (t.path, t.references))

/-- The cycles among the aliases of a tree. -/
def aliasCycles (g : Group) : CycleReport String := g.aliasGraph.findCycles

end Group

end DesignTokens
