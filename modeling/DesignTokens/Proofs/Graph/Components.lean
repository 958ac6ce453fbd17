import DesignTokens.Proofs.Graph.WalkRun
import Mathlib.Logic.Function.Iterate

/-!
# What the search for cycles finds

`Graph.finalWalk` is the walk of `Graph.findCycles` after its last step.  It has
visited every node and left nothing on its stack, so the invariant of the walk
says of all nodes what it says of closed ones:

* `cycles_isCycle`, `exists_cycle_of_leads`, `flatten_cycles_nodup`: the reported
  cycles are the components with a cycle in them, each reported once;
* `mem_cyclic_iff`: the cyclic nodes are those that lead back to themselves;
* `order_eq_some_iff`, `standsBefore_of_edge`: without a cycle the closed single
  nodes are a topological order.
-/

namespace DesignTokens

variable {α : Type} [DecidableEq α] {g : Graph α} {w : Walk α}

namespace Walk

theorem run_work (g : Graph α) (w : Walk α) : (w.run g).work = [] := by
  induction hn : w.weight using Nat.strongRecOn generalizing w with
  | ind n ih =>
    rw [run]
    split
    · assumption
    · rename_i hw
      exact ih _ (hn ▸ step_weight_lt g w hw) _ rfl

/-- A run is a number of steps, no more than the weight of the walk. -/
theorem exists_run_eq_iterate (g : Graph α) (w : Walk α) :
    ∃ n ≤ w.weight, w.run g = (step g)^[n] w := by
  induction hn : w.weight using Nat.strongRecOn generalizing w with
  | ind n ih =>
    rw [run]
    split
    · exact ⟨0, Nat.zero_le _, rfl⟩
    · rename_i hw
      have hlt := hn ▸ step_weight_lt g w hw
      obtain ⟨m, hm, he⟩ := ih _ hlt _ rfl
      refine ⟨m + 1, Nat.lt_of_le_of_lt hm hlt, ?_⟩
      rw [he, Function.iterate_succ_apply]

theorem step_unvisited_subset (g : Graph α) (w : Walk α) :
    (w.step g).unvisited ⊆ w.unvisited := by
  cases hw : w.work with
  | nil =>
    unfold step
    rw [hw]
    exact List.Subset.refl _
  | cons frame outer =>
    have hu := consume_unvisited w frame.node frame.pending
    unfold step
    rw [hw]
    simp only
    generalize w.consume frame.node frame.pending = r at hu ⊢
    obtain ⟨w', _ | ⟨target, rest⟩⟩ := r
    · simp only [leave_unvisited]
      rw [← hu]
      exact List.Subset.refl _
    · simp only at hu
      rw [← hu]
      exact List.erase_subset

theorem run_unvisited_subset (g : Graph α) (w : Walk α) :
    (w.run g).unvisited ⊆ w.unvisited := by
  obtain ⟨n, -, hn⟩ := exists_run_eq_iterate g w
  rw [hn]
  clear hn
  induction n generalizing w with
  | zero => exact List.Subset.refl _
  | succ n ih => exact List.Subset.trans (ih (w.step g)) (step_unvisited_subset g w)

theorem visit_unvisited_subset (g : Graph α) (w : Walk α) (node : α) :
    (w.visit g node).unvisited ⊆ w.unvisited := by
  unfold visit
  split
  · exact List.Subset.trans (run_unvisited_subset g _) List.erase_subset
  · exact List.Subset.refl _

namespace Invariant

theorem stack_eq_nil (h : Invariant g [] w) : w.stack = [] := by
  have hl := h.layers
  generalize w.stack = part at hl
  cases hl
  rfl

theorem visit (h : Invariant g [] w) (hw : w.work = []) (node : α) :
    Invariant g [] (w.visit g node) ∧ (w.visit g node).work = [] := by
  unfold Walk.visit
  split
  · rename_i hu
    have hwork : (w.enter g node).work = [⟨node, g.targets node⟩] := by
      unfold Walk.enter
      rw [hw]
    have he : Invariant g (w.enter g node).work (w.enter g node) := by
      rw [hwork]
      exact h.enter hu fun p hp => by simp at hp
    exact ⟨he.run, run_work g _⟩
  · exact ⟨h, hw⟩

theorem not_mem_unvisited_visit (h : Invariant g [] w) (node : α) :
    node ∉ (w.visit g node).unvisited := by
  unfold Walk.visit
  split
  · intro hm
    have hnd := (List.nodup_append.mp h.parts_nodup).1
    exact (hnd.mem_erase_iff.mp (run_unvisited_subset g _ hm)).1 rfl
  · assumption

/-- Visiting nodes one after the other leaves none of them unvisited. -/
theorem visitAll (h : Invariant g [] w) (hw : w.work = []) (nodes : List α) :
    Invariant g [] (nodes.foldl (Walk.visit g) w) ∧
      ∀ v ∈ (nodes.foldl (Walk.visit g) w).unvisited, v ∈ w.unvisited ∧ v ∉ nodes := by
  induction nodes generalizing w with
  | nil => exact ⟨h, fun v hv => ⟨hv, List.not_mem_nil⟩⟩
  | cons node nodes ih =>
    obtain ⟨hv, hvw⟩ := h.visit hw node
    obtain ⟨hi, hu⟩ := ih hv hvw
    refine ⟨hi, ?_⟩
    intro v hm
    obtain ⟨hm1, hm2⟩ := hu v hm
    refine ⟨visit_unvisited_subset g w node hm1, fun hc => ?_⟩
    rcases List.mem_cons.mp hc with rfl | hc
    · exact h.not_mem_unvisited_visit v hm1
    · exact hm2 hc

end Invariant

end Walk

namespace Graph

/-- The walk of the search for cycles after its last step. -/
def finalWalk (g : Graph α) : Walk α := g.nodes.foldl (Walk.visit g) (Walk.start g.nodes)

theorem finalWalk_invariant (g : Graph α) : Walk.Invariant g [] g.finalWalk :=
  ((Walk.invariant_start g).visitAll rfl g.nodes).1

theorem finalWalk_parts (g : Graph α) :
    (g.finalWalk.order ++ g.finalWalk.cycles.flatten).Perm g.nodes := by
  have hu : g.finalWalk.unvisited = [] := by
    apply List.eq_nil_iff_forall_not_mem.mpr
    intro v hv
    have hm := ((Walk.invariant_start g).visitAll rfl g.nodes).2 v hv
    exact hm.2 hm.1
  have hp := g.finalWalk_invariant.parts
  rw [hu, g.finalWalk_invariant.stack_eq_nil] at hp
  exact hp

theorem mem_order_or_cycles {v : α} (hv : g.Occurs v) :
    v ∈ g.finalWalk.order ∨ v ∈ g.finalWalk.cycles.flatten := by
  rw [← List.mem_append, g.finalWalk_parts.mem_iff]
  exact mem_nodes.mpr hv

/-! ### The cycles -/

theorem cycles_isCycle {c : List α} (hc : c ∈ g.findCycles.cycles) : g.IsCycle c :=
  g.finalWalk_invariant.isCycle c hc

theorem flatten_cycles_nodup (g : Graph α) : g.findCycles.cycles.flatten.Nodup :=
  (List.nodup_append.mp (g.finalWalk_parts.nodup_iff.mpr g.nodes_nodup)).2.1

theorem occurs_of_leads {v : α} (h : g.Leads v v) : g.Occurs v := by
  obtain ⟨u, he, -⟩ := leads_iff_edge_reaches.mp h
  exact (occurs_of_edge he).1

theorem exists_cycle_of_leads {v : α} (h : g.Leads v v) : ∃ c ∈ g.findCycles.cycles, v ∈ c := by
  rcases mem_order_or_cycles (occurs_of_leads h) with ho | hc
  · exact absurd h (g.finalWalk_invariant.acyclic v ho)
  · exact List.mem_flatten.mp hc

theorem mem_cyclic_iff {v : α} : v ∈ g.findCycles.cyclic ↔ g.Leads v v := by
  have heq : g.findCycles.cyclic = g.findCycles.cycles.flatten := g.finalWalk_invariant.cyclic_eq
  rw [heq, List.mem_flatten]
  constructor
  · rintro ⟨c, hc, hv⟩
    exact (cycles_isCycle hc).leads_self hv
  · exact exists_cycle_of_leads

theorem cycles_ne_nil_iff : g.findCycles.cycles ≠ [] ↔ ∃ v, g.Leads v v := by
  constructor
  · intro hne
    obtain ⟨c, hc⟩ := List.exists_mem_of_ne_nil _ hne
    obtain ⟨v, hv⟩ := List.exists_mem_of_ne_nil _ (cycles_isCycle hc).1.nonempty
    exact ⟨v, (cycles_isCycle hc).leads_self hv⟩
  · rintro ⟨v, hv⟩ hnil
    obtain ⟨c, hc, -⟩ := exists_cycle_of_leads hv
    rw [hnil] at hc
    exact List.not_mem_nil hc

/-- A component with a cycle in it stands at one place of the report. -/
theorem existsUnique_cycle {c : List α} (hc : g.IsCycle c) :
    ∃! i : Fin g.findCycles.cycles.length, (g.findCycles.cycles.get i).Perm c := by
  obtain ⟨v, hv⟩ := List.exists_mem_of_ne_nil _ hc.1.nonempty
  obtain ⟨d, hd, hvd⟩ := exists_cycle_of_leads (hc.leads_self hv)
  obtain ⟨i, hi⟩ := List.get_of_mem hd
  have hdisjoint := (List.nodup_flatten.mp g.flatten_cycles_nodup).2
  refine ⟨i, ?_, ?_⟩
  · show (g.findCycles.cycles.get i).Perm c
    rw [hi]
    exact (cycles_isCycle hd).1.perm_of_common hc.1 hvd hv
  · intro j hj
    have hvi : v ∈ g.findCycles.cycles.get i := hi ▸ hvd
    have hvj : v ∈ g.findCycles.cycles.get j := hj.mem_iff.mpr hv
    rcases Nat.lt_trichotomy j i with hlt | heq | hgt
    · exact absurd hvi (List.pairwise_iff_getElem.mp hdisjoint j i j.isLt i.isLt hlt hvj)
    · exact Fin.ext heq
    · exact absurd hvj (List.pairwise_iff_getElem.mp hdisjoint i j i.isLt j.isLt hgt hvi)

/-- **The search for cycles ends, and it reports the strongly connected
components with a cycle in them**, each once; the cyclic nodes are those that
lead back to themselves. -/
theorem findCycles_components (g : Graph α) :
    (∀ w : Walk α, ∃ n ≤ w.weight, w.run g = (Walk.step g)^[n] w ∧ (w.run g).work = []) ∧
      (∀ c ∈ g.findCycles.cycles, g.IsCycle c) ∧
      (∀ c, g.IsCycle c →
        ∃! i : Fin g.findCycles.cycles.length, (g.findCycles.cycles.get i).Perm c) ∧
      (∀ v, v ∈ g.findCycles.cyclic ↔ g.Leads v v) ∧
      (g.findCycles.hasCycles = true ↔ ∃ v, v ∈ g.findCycles.cyclic) := by
  refine ⟨?_, fun c hc => cycles_isCycle hc, fun c hc => existsUnique_cycle hc,
    fun v => mem_cyclic_iff, ?_⟩
  · intro w
    obtain ⟨n, hn, he⟩ := w.exists_run_eq_iterate g
    exact ⟨n, hn, he, w.run_work g⟩
  · have hcycles := cycles_ne_nil_iff (g := g)
    unfold CycleReport.hasCycles
    simp only [mem_cyclic_iff]
    rw [← hcycles]
    simp

/-! ### The order -/

theorem order_eq_some_iff {order : List α} :
    g.findCycles.order = some order ↔
      g.findCycles.cycles = [] ∧ g.finalWalk.order = order := by
  show (if g.finalWalk.cycles.isEmpty then some g.finalWalk.order else none) = some order ↔
    g.finalWalk.cycles = [] ∧ _
  cases hc : g.finalWalk.cycles with
  | nil => simp
  | cons c cycles => simp

theorem order_perm_nodes {order : List α} (h : g.findCycles.order = some order) :
    order.Perm g.nodes := by
  obtain ⟨hc, rfl⟩ := order_eq_some_iff.mp h
  have hp := g.finalWalk_parts
  rw [show g.finalWalk.cycles = [] from hc, List.flatten_nil, List.append_nil] at hp
  exact hp

theorem order_nodup {order : List α} (h : g.findCycles.order = some order) : order.Nodup :=
  (order_perm_nodes h).nodup_iff.mpr g.nodes_nodup

theorem mem_order_iff {order : List α} (h : g.findCycles.order = some order) {v : α} :
    v ∈ order ↔ g.Occurs v := by
  rw [(order_perm_nodes h).mem_iff, mem_nodes]

theorem standsBefore_of_edge {order : List α} (h : g.findCycles.order = some order) {u v : α}
    (he : g.Edge u v) : StandsBefore order v u := by
  have hu := (mem_order_iff h).mpr (occurs_of_edge he).1
  obtain ⟨hc, rfl⟩ := order_eq_some_iff.mp h
  obtain ⟨before, after, hsplit⟩ := List.append_of_mem hu
  rcases g.finalWalk_invariant.ordered before u after hsplit v he with hv | hv
  · obtain ⟨first, between, rfl⟩ := List.append_of_mem hv
    refine ⟨first, between, after, ?_⟩
    rw [hsplit]
    simp
  · rw [show g.finalWalk.cycles = [] from hc] at hv
    exact absurd hv List.not_mem_nil

theorem order_isSome_iff : g.findCycles.order.isSome ↔ ∀ v, ¬ g.Leads v v := by
  rw [Option.isSome_iff_exists]
  constructor
  · rintro ⟨order, h⟩ v hv
    exact cycles_ne_nil_iff.mpr ⟨v, hv⟩ (order_eq_some_iff.mp h).1
  · intro hall
    refine ⟨_, order_eq_some_iff.mpr ⟨?_, rfl⟩⟩
    by_contra hne
    obtain ⟨v, hv⟩ := cycles_ne_nil_iff.mp hne
    exact hall v hv

/-- **There is an order exactly when no node leads back to itself**, and then it
lists every node once, each after its targets. -/
theorem findCycles_order (g : Graph α) :
    (g.findCycles.order.isSome ↔ ∀ v, ¬ g.Leads v v) ∧
      ∀ order, g.findCycles.order = some order →
        order.Nodup ∧ (∀ v, v ∈ order ↔ g.Occurs v) ∧
          ∀ u v, g.Edge u v → StandsBefore order v u :=
  ⟨order_isSome_iff, fun _ h => ⟨order_nodup h, fun _ => mem_order_iff h,
    fun _ _ he => standsBefore_of_edge h he⟩⟩

end Graph

end DesignTokens
