import DesignTokens.Proofs.Graph.Components

/-!
# The rest of a graph without its cycles

Where a graph has cycles, what is left to be ordered is the graph without the edges
that start on one of them (`Graph.without`).  A cycle of this rest would be a cycle of
the graph, and its edges would start on it: so there is none
(`not_leads_without_cyclic`), and the rest has an order.
-/

namespace DesignTokens.Graph

variable {α : Type} [DecidableEq α] {g : Graph α} {nodes : List α} {u v : α}

/-- A graph without the edges that start at some nodes. -/
def without (g : Graph α) (nodes : List α) : Graph α := g.filter fun p => !nodes.contains p.1

theorem edge_without_iff : (g.without nodes).Edge u v ↔ g.Edge u v ∧ u ∉ nodes := by
  unfold Edge targets without
  rw [Table.get?_filter_keys (fun u => !nodes.contains u)]
  by_cases hu : u ∈ nodes
  · simp [hu]
  · simp [hu]

theorem not_leads_without_cyclic (g : Graph α) (v : α) :
    ¬ (g.without g.findCycles.cyclic).Leads v v := by
  intro hv
  obtain ⟨w, hedge, -⟩ := leads_iff_edge_reaches.mp hv
  refine (edge_without_iff.mp hedge).2 (mem_cyclic_iff.mpr ?_)
  exact Relation.TransGen.mono (fun _ _ he => (edge_without_iff.mp he).1) _ _ hv

theorem exists_order_without_cyclic (g : Graph α) :
    ∃ order, (g.without g.findCycles.cyclic).findCycles.order = some order :=
  Option.isSome_iff_exists.mp (order_isSome_iff.mpr g.not_leads_without_cyclic)

theorem standsBefore_without_cyclic {order : List α}
    (h : (g.without g.findCycles.cyclic).findCycles.order = some order) (he : g.Edge u v)
    (hu : u ∉ g.findCycles.cyclic) : StandsBefore order v u :=
  standsBefore_of_edge h (edge_without_iff.mpr ⟨he, hu⟩)

end DesignTokens.Graph
