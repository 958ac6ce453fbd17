import DesignTokens.Graph.Cycles
import DesignTokens.Proofs.Table
import Mathlib.Logic.Relation

/-!
# Reachability in a directed graph

`Edge` reads the table of targets as a relation, `Reaches` and `Leads` are its
closures with any number of edges and with at least one.  `IsComponent` says
that a list holds exactly the nodes which reach one another, each once, and
`IsCycle` picks the components that the report of `Graph.findCycles` is about.

A list of nodes in which no node leads out is `closed_of_reaches`: whatever its
members reach is a member.
-/

namespace DesignTokens.Graph

variable {α : Type} [DecidableEq α]

/-- An edge from a node to one of its targets. -/
def Edge (g : Graph α) (u v : α) : Prop := v ∈ g.targets u

/-- A path of any number of edges. -/
def Reaches (g : Graph α) : α → α → Prop := Relation.ReflTransGen g.Edge

/-- A path of at least one edge. -/
def Leads (g : Graph α) : α → α → Prop := Relation.TransGen g.Edge

/-- A node that stands in the graph as a source or as a target. -/
def Occurs (g : Graph α) (v : α) : Prop := ∃ p ∈ g, v = p.1 ∨ v ∈ p.2

/-- The nodes that reach one another and are reached by one another, each once. -/
structure IsComponent (g : Graph α) (c : List α) : Prop where
  nonempty : c ≠ []
  nodup : c.Nodup
  mem_iff : ∀ u ∈ c, ∀ v, v ∈ c ↔ g.Reaches u v ∧ g.Reaches v u

/-- A component with a cycle in it: it has several nodes, or one with an edge to
itself. -/
def IsCycle (g : Graph α) (c : List α) : Prop :=
  g.IsComponent c ∧ (1 < c.length ∨ ∃ v, c = [v] ∧ g.Edge v v)

/-- A node that stands before another one in a list. -/
def StandsBefore (order : List α) (v u : α) : Prop :=
  ∃ before between after, order = before ++ v :: (between ++ u :: after)

/-- What stands before something in a list has a smaller index. -/
theorem StandsBefore.idxOf_lt {order : List α} {v u : α} (h : StandsBefore order v u)
    (hnodup : order.Nodup) : order.idxOf v < order.idxOf u := by
  obtain ⟨before, between, after, rfl⟩ := h
  obtain ⟨-, hrest, hdisjoint⟩ := List.nodup_append.mp hnodup
  have hv : v ∉ before := fun hm => hdisjoint v hm v List.mem_cons_self rfl
  have hu : u ∉ before := fun hm =>
    hdisjoint u hm u (List.mem_cons_of_mem _ (List.mem_append_right _ List.mem_cons_self)) rfl
  have hne : v ≠ u := by
    rintro rfl
    exact (List.nodup_cons.mp hrest).1 (List.mem_append_right _ List.mem_cons_self)
  rw [List.idxOf_append_of_notMem hv, List.idxOf_append_of_notMem hu, List.idxOf_cons_self,
    List.idxOf_cons_ne _ hne]
  omega

/-! ### Nodes -/

theorem mem_nodes {g : Graph α} {v : α} : v ∈ g.nodes ↔ g.Occurs v := by
  simp only [nodes, List.mem_eraseDups, List.mem_flatMap, List.mem_cons, Occurs]

theorem nodup_eraseDups (l : List α) : l.eraseDups.Nodup := by
  induction hn : l.length using Nat.strongRecOn generalizing l with
  | ind n ih =>
    cases l with
    | nil => simp
    | cons a rest =>
      rw [List.eraseDups_cons, List.nodup_cons]
      refine ⟨?_, ih _ ?_ _ rfl⟩
      · rw [List.mem_eraseDups]
        simp
      · subst hn
        exact Nat.lt_succ_of_le (List.length_filter_le _ _)

theorem nodes_nodup (g : Graph α) : g.nodes.Nodup := nodup_eraseDups _

theorem occurs_of_edge {g : Graph α} {u v : α} (h : g.Edge u v) : g.Occurs u ∧ g.Occurs v := by
  unfold Edge targets at h
  cases ht : Table.get? g u with
  | none => rw [ht] at h; simp at h
  | some ts =>
    rw [ht] at h
    have hm := Table.mem_of_get? ht
    exact ⟨⟨_, hm, Or.inl rfl⟩, ⟨_, hm, Or.inr h⟩⟩

/-! ### Paths -/

theorem leads_iff_edge_reaches {g : Graph α} {u v : α} :
    g.Leads u v ↔ ∃ w, g.Edge u w ∧ g.Reaches w v :=
  Relation.TransGen.head'_iff

theorem closed_of_reaches {g : Graph α} {P : α → Prop}
    (hP : ∀ u, P u → ∀ v, g.Edge u v → P v) {u v : α} (hu : P u) (h : g.Reaches u v) : P v := by
  induction h with
  | refl => exact hu
  | tail _ he ih => exact hP _ ih _ he

theorem leads_self_of_ne {g : Graph α} {u v : α} (hne : u ≠ v) (huv : g.Reaches u v)
    (hvu : g.Reaches v u) : g.Leads u u := by
  rcases Relation.reflTransGen_iff_eq_or_transGen.mp huv with he | ht
  · exact absurd he.symm hne
  · exact ht.trans_left hvu

/-! ### Components -/

/-- On a cycle every node leads back to itself. -/
theorem IsCycle.leads_self {g : Graph α} {c : List α} (h : g.IsCycle c) {v : α} (hv : v ∈ c) :
    g.Leads v v := by
  obtain ⟨hc, hlen | ⟨w, rfl, hw⟩⟩ := h
  · obtain ⟨u, hu, hne⟩ : ∃ u ∈ c, u ≠ v := by
      by_contra hall
      have hrep : ∀ u ∈ c, u = v := fun u hu => by
        by_contra hne
        exact hall ⟨u, hu, hne⟩
      match c, hc.nodup, hlen with
      | a :: b :: _, hnd, _ =>
        have ha := hrep a (by simp)
        have hb := hrep b (by simp)
        rw [ha, hb] at hnd
        simp at hnd
    have hboth := (hc.mem_iff v hv u).mp hu
    exact leads_self_of_ne hne.symm hboth.1 hboth.2
  · rw [List.mem_singleton] at hv
    rw [hv]
    exact Relation.TransGen.single hw

theorem IsComponent.mem_iff_of_common {g : Graph α} {c d : List α} (hc : g.IsComponent c)
    (hd : g.IsComponent d) {v : α} (hvc : v ∈ c) (hvd : v ∈ d) (u : α) : u ∈ c ↔ u ∈ d := by
  rw [hc.mem_iff v hvc u, hd.mem_iff v hvd u]

theorem IsComponent.perm_of_common {g : Graph α} {c d : List α} (hc : g.IsComponent c)
    (hd : g.IsComponent d) {v : α} (hvc : v ∈ c) (hvd : v ∈ d) : c.Perm d :=
  (List.perm_ext_iff_of_nodup hc.nodup hd.nodup).mpr (hc.mem_iff_of_common hd hvc hvd)

end DesignTokens.Graph
