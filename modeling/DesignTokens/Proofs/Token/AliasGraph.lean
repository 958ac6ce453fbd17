import DesignTokens.Proofs.Graph.Remainder
import DesignTokens.Proofs.Token.Prepared
import DesignTokens.Reference.Resolution

/-!
# The graph of aliases and the order of resolution

In a prepared tree the edges of the graph of aliases are the aliases of the tokens
(`edge_aliasGraph_iff`).  Whether or not there is a cycle, the order of resolution
is a topological order of the graph without the edges that start on a cycle
(`exists_acyclicPart`): every path stands in it once, and a token that is on no
cycle stands after everything that it refers to (`standsBefore_of_reference`).
`resolutionOrder_of_cycles` says this of any tree with cycles, prepared or not.
-/

namespace DesignTokens.Group

variable {g : Group}

theorem mem_aliasPairs_iff {u : String} {targets : List String} :
    (u, targets) ∈ (g.tokens.filter fun t => !t.references.isEmpty).map
        (fun t => (t.path, t.references)) ↔
      ∃ t ∈ g.tokens, t.references ≠ [] ∧ t.path = u ∧ t.references = targets := by
  rw [List.mem_map]
  constructor
  · rintro ⟨t, ht, he⟩
    obtain ⟨hm, hne⟩ := List.mem_filter.mp ht
    obtain ⟨hpath, htargets⟩ := Prod.mk.inj he
    exact ⟨t, hm, by simpa using hne, hpath, htargets⟩
  · rintro ⟨t, ht, hne, rfl, rfl⟩
    exact ⟨t, List.mem_filter.mpr ⟨ht, by simpa using hne⟩, rfl⟩

theorem exists_token_of_edge {u v : String} (he : g.aliasGraph.Edge u v) :
    ∃ t ∈ g.tokens, t.path = u ∧ v ∈ t.references := by
  unfold Graph.Edge Graph.targets at he
  cases hget : (g.aliasGraph).get? u with
  | none =>
    rw [hget] at he
    exact absurd he List.not_mem_nil
  | some targets =>
    rw [hget] at he
    obtain ⟨t, ht, -, hpath, rfl⟩ := mem_aliasPairs_iff.mp (Table.mem_of_get?_ofPairs hget)
    exact ⟨t, ht, hpath, he⟩

/-- The graph has the aliases of a token if every token with its path that has some has the same
ones. -/
theorem edge_of_reference {t : Token} (ht : t ∈ g.tokens)
    (hsame : ∀ u ∈ g.tokens, u.path = t.path → u.references ≠ [] → u.references = t.references)
    {v : String} (hv : v ∈ t.references) : g.aliasGraph.Edge t.path v := by
  unfold Graph.Edge Graph.targets aliasGraph
  dsimp only
  rw [Table.get?_ofPairs (fun w hw => ?_)
    (mem_aliasPairs_iff.mpr ⟨t, ht, List.ne_nil_of_mem hv, rfl, rfl⟩)]
  · exact hv
  · obtain ⟨u, hu, hne, hpath, rfl⟩ := mem_aliasPairs_iff.mp hw
    exact hsame u hu hpath hne

/-- A path under which the graph has targets. -/
theorem exists_edge_of_references {t : Token} (ht : t ∈ g.tokens) (hne : t.references ≠ []) :
    ∃ v, g.aliasGraph.Edge t.path v := by
  have hpair := mem_aliasPairs_iff.mpr ⟨t, ht, hne, rfl, rfl⟩
  have hhas : (g.aliasGraph).has t.path = true :=
    Table.has_foldl_put.mpr (Or.inl (List.mem_map.mpr ⟨_, hpair, rfl⟩))
  obtain ⟨targets, htargets⟩ := Option.isSome_iff_exists.mp hhas
  obtain ⟨u, -, hu, -, rfl⟩ := mem_aliasPairs_iff.mp (Table.mem_of_get?_ofPairs htargets)
  obtain ⟨v, hv⟩ := List.exists_mem_of_ne_nil u.references hu
  refine ⟨v, ?_⟩
  unfold Graph.Edge Graph.targets
  rw [htargets]
  exact hv

/-- The edges of the graph are the aliases of the tokens. -/
theorem edge_aliasGraph_iff (h : g.Prepared) {u v : String} :
    g.aliasGraph.Edge u v ↔ ∃ place t, g.tokenAt? place = some t ∧ t.path = u ∧
      v ∈ t.references := by
  constructor
  · intro he
    obtain ⟨t, ht, hpath, hv⟩ := exists_token_of_edge he
    obtain ⟨place, hplace⟩ := (mem_tokens_iff h.keysDistinct).mp ht
    exact ⟨place, t, hplace, hpath, hv⟩
  · rintro ⟨place, t, ht, rfl, hv⟩
    refine edge_of_reference ((mem_tokens_iff h.keysDistinct).mpr ⟨place, ht⟩) ?_ hv
    intro u hu hpath _
    obtain ⟨other, hother⟩ := (mem_tokens_iff h.keysDistinct).mp hu
    rw [h.placed.eq_of_path_eq hother ht hpath]

/-- A path on a cycle of aliases. -/
def OnCycle (g : Group) (path : String) : Prop := g.aliasGraph.Leads path path

theorem mem_flatten_cycles_iff {path : String} :
    path ∈ g.aliasCycles.cycles.flatten ↔ g.OnCycle path := by
  rw [List.mem_flatten]
  constructor
  · rintro ⟨cycle, hcycle, hm⟩
    exact (Graph.cycles_isCycle hcycle).leads_self hm
  · exact Graph.exists_cycle_of_leads

theorem mem_cyclic_iff_onCycle {path : String} :
    path ∈ g.aliasCycles.cyclic ↔ g.OnCycle path := Graph.mem_cyclic_iff

theorem OnCycle.hasSegments (h : g.Prepared) {path : String} (hc : g.OnCycle path) :
    Alias.HasSegments path := by
  obtain ⟨u, -, hu⟩ := Relation.TransGen.tail'_iff.mp hc
  obtain ⟨place, t, ht, -, hv⟩ := (edge_aliasGraph_iff h).mp hu
  exact (h.tracked place t ht).hasSegments path hv

theorem OnCycle.exists_next (h : g.Prepared) {path : String} (hc : g.OnCycle path) :
    ∃ place t, g.tokenAt? place = some t ∧ t.path = path ∧ ∃ r ∈ t.references, g.OnCycle r := by
  obtain ⟨r, he, hr⟩ := Graph.leads_iff_edge_reaches.mp hc
  obtain ⟨place, t, ht, hp, hm⟩ := (edge_aliasGraph_iff h).mp he
  exact ⟨place, t, ht, hp, r, hm, Relation.TransGen.tail' hr he⟩

/-! ### The order -/

/-- Where there are cycles, the order of resolution is the order of the rest of the graph. -/
theorem order_rest_eq (hnone : g.aliasCycles.order = none) :
    (g.aliasGraph.without g.aliasCycles.cyclic).findCycles.order = some g.resolutionOrder := by
  obtain ⟨order, horder⟩ := g.aliasGraph.exists_order_without_cyclic
  have hreads : g.resolutionOrder =
      (g.aliasGraph.without g.aliasCycles.cyclic).findCycles.order.getD [] := by
    unfold resolutionOrder
    dsimp only
    rw [hnone]
    rfl
  have hsome : (g.aliasGraph.without g.aliasCycles.cyclic).findCycles.order = some order := horder
  rw [hreads, hsome]
  rfl

/-- The graph whose topological order is the order of resolution. -/
theorem exists_acyclicPart (g : Group) :
    ∃ part : Graph String, part.findCycles.order = some g.resolutionOrder ∧
      ∀ u v, part.Edge u v ↔ g.aliasGraph.Edge u v ∧ ¬ g.OnCycle u := by
  cases ho : g.aliasCycles.order with
  | some order =>
    refine ⟨g.aliasGraph, ?_, ?_⟩
    · unfold resolutionOrder
      dsimp only
      rw [ho]
      exact ho
    · intro u v
      have hacyclic := Graph.order_isSome_iff.mp (Option.isSome_of_mem ho)
      exact ⟨fun he => ⟨he, hacyclic u⟩, fun he => he.1⟩
  | none =>
    refine ⟨_, order_rest_eq ho, fun u v => ?_⟩
    rw [← mem_cyclic_iff_onCycle]
    exact Graph.edge_without_iff

theorem resolutionOrder_nodup (g : Group) : g.resolutionOrder.Nodup := by
  obtain ⟨part, hpart, -⟩ := exists_acyclicPart g
  exact Graph.order_nodup hpart

theorem standsBefore_of_reference (h : g.Prepared) {place : Place} {t : Token}
    (ht : g.tokenAt? place = some t) (hc : ¬ g.OnCycle t.path) {r : String}
    (hr : r ∈ t.references) : Graph.StandsBefore g.resolutionOrder r t.path := by
  obtain ⟨part, hpart, hedge⟩ := exists_acyclicPart g
  refine Graph.standsBefore_of_edge hpart ((hedge _ _).mpr ⟨?_, hc⟩)
  exact (edge_aliasGraph_iff h).mpr ⟨place, t, ht, rfl, hr⟩

/-! ### The order of a tree with cycles -/

/-- **A tree with cycles is resolved in an order of the rest of its graph.**  Without the edges that
start on a cycle the graph has no cycle, so the search finds an order of it, and this is the order
of resolution.  Each path with aliases that is on no cycle stands in it once, after all its targets;
these are the aliases of its token, unless two tokens with this path have different ones. -/
theorem resolutionOrder_of_cycles (g : Group) (hcycles : g.aliasCycles.hasCycles = true) :
    let rest := g.aliasGraph.without g.aliasCycles.cyclic
    (∀ u v, rest.Edge u v ↔ g.aliasGraph.Edge u v ∧ u ∉ g.aliasCycles.cyclic) ∧
      (∀ v, ¬ rest.Leads v v) ∧
      rest.findCycles.order = some g.resolutionOrder ∧
      g.resolutionOrder.Nodup ∧
      (∀ u v, g.aliasGraph.Edge u v → u ∉ g.aliasCycles.cyclic →
        Graph.StandsBefore g.resolutionOrder v u) ∧
      ∀ t ∈ g.tokens, t.references ≠ [] → t.path ∉ g.aliasCycles.cyclic →
        t.path ∈ g.resolutionOrder ∧
          ((∀ u ∈ g.tokens, u.path = t.path → u.references ≠ [] → u.references = t.references) →
            ∀ v ∈ t.references, Graph.StandsBefore g.resolutionOrder v t.path) := by
  intro rest
  have hnone : g.aliasCycles.order = none := by
    unfold CycleReport.hasCycles at hcycles
    cases horder : g.aliasCycles.order with
    | none => rfl
    | some order =>
      have hnil : g.aliasCycles.cycles = [] := (Graph.order_eq_some_iff.mp horder).1
      rw [hnil] at hcycles
      cases hcycles
  have horder : rest.findCycles.order = some g.resolutionOrder := order_rest_eq hnone
  have hstands : ∀ u v, g.aliasGraph.Edge u v → u ∉ g.aliasCycles.cyclic →
      Graph.StandsBefore g.resolutionOrder v u := fun u v he hu =>
    Graph.standsBefore_without_cyclic horder he hu
  refine ⟨fun u v => Graph.edge_without_iff, g.aliasGraph.not_leads_without_cyclic, horder,
    g.resolutionOrder_nodup, hstands, fun t ht hne hcyclic => ⟨?_, fun hsame v hv => ?_⟩⟩
  · obtain ⟨v, he⟩ := exists_edge_of_references ht hne
    exact (Graph.mem_order_iff horder).mpr
      (Graph.occurs_of_edge (Graph.edge_without_iff.mpr ⟨he, hcyclic⟩)).1
  · exact hstands _ _ (edge_of_reference ht hsame hv) hcyclic

/-- A cycle, and beside it a chain of aliases with one that leads to the cycle. -/
def sideChain : Value :=
  let token := fun s => Value.object [(valueKey, .text s)]
  .object
    [("a", token "\x7bb\x7d"), ("b", token "\x7ba\x7d"), ("c", token "\x7bd\x7d \x7ba\x7d"),
      ("d", token "\x7be\x7d"), ("e", token "4")]

theorem resolutionOrder_of_cycles_sideChain :
    (build sideChain).aliasCycles.hasCycles = true ∧
      (build sideChain).aliasCycles.cyclic = ["a", "b"] ∧
      ((build sideChain).aliasGraph.without ["a", "b"]).findCycles.order =
        some (build sideChain).resolutionOrder ∧
      Graph.StandsBefore (build sideChain).resolutionOrder "e" "d" ∧
      Graph.StandsBefore (build sideChain).resolutionOrder "d" "c" ∧
      Graph.StandsBefore (build sideChain).resolutionOrder "a" "c" := by
  have hcycles : (build sideChain).aliasCycles.hasCycles = true := by decide +kernel
  have hcyclic : (build sideChain).aliasCycles.cyclic = ["a", "b"] := by decide +kernel
  obtain ⟨-, -, horder, -, hstands, -⟩ := resolutionOrder_of_cycles (build sideChain) hcycles
  rw [hcyclic] at horder hstands
  have hedges : (build sideChain).aliasGraph.Edge "d" "e" ∧
      (build sideChain).aliasGraph.Edge "c" "d" ∧ (build sideChain).aliasGraph.Edge "c" "a" := by
    unfold Graph.Edge
    decide +kernel
  obtain ⟨hde, hcd, hca⟩ := hedges
  exact ⟨hcycles, hcyclic, horder, hstands "d" "e" hde (by decide), hstands "c" "d" hcd (by decide),
    hstands "c" "a" hca (by decide)⟩

end DesignTokens.Group
