import DesignTokens.Proofs.Graph.WalkInvariant

/-!
# What a step and a run of a walk keep

`Invariant` is kept by entering a node (`Invariant.enter`), by reading targets
(`Invariant.consume`) and by leaving a node (`Invariant.leave`).  The last one
has the heart of the matter: a node is the first of its component exactly when
it reaches nothing older (`Invariant.segment_isComponent`), because the nodes
from it to the top of the stack lead only to one another and to closed nodes
(`Invariant.edge_of_segment`), and each of them reaches down to it.
-/

namespace DesignTokens.Walk

variable {α : Type} [DecidableEq α] {g : Graph α} {w w' : Walk α} {frames outer : List (Frame α)}

/-- The invariant of a walk with some open frames. -/
structure Invariant (g : Graph α) (frames : List (Frame α)) (w : Walk α) : Prop where
  onStack_iff : ∀ v, v ∈ w.onStack ↔ v ∈ w.stack
  parts : (w.unvisited ++ (w.stack ++ (w.order ++ w.cycles.flatten))).Perm g.nodes
  sorted : w.stack.Pairwise fun a b => w.indexOf b < w.indexOf a
  lt_clock : ∀ v ∈ w.stack, w.indexOf v < w.clock
  layers : Layers g w frames w.stack
  closed : ∀ v, w.Closed v → ∀ y, g.Edge v y → w.Closed y
  ordered : ∀ before u after, w.order = before ++ u :: after →
    ∀ y, g.Edge u y → y ∈ before ∨ y ∈ w.cycles.flatten
  isCycle : ∀ c ∈ w.cycles, g.IsCycle c
  acyclic : ∀ u ∈ w.order, ¬ g.Leads u u
  cyclic_eq : w.cyclic = w.cycles.flatten

theorem invariant_start (g : Graph α) : Invariant g [] (start g.nodes) where
  onStack_iff _ := Iff.rfl
  parts := by simp [start]
  sorted := List.Pairwise.nil
  lt_clock _ h := absurd h (List.not_mem_nil)
  layers := .nil
  closed _ h := by simp [Closed, start] at h
  ordered _ _ _ h := by simp [start] at h
  isCycle _ h := absurd h (List.not_mem_nil)
  acyclic _ h := absurd h (List.not_mem_nil)
  cyclic_eq := rfl

namespace Invariant

/-! ### Where a node is -/

theorem parts_nodup (h : Invariant g frames w) :
    (w.unvisited ++ (w.stack ++ (w.order ++ w.cycles.flatten))).Nodup :=
  h.parts.nodup_iff.mpr g.nodes_nodup

theorem mem_nodes_iff (h : Invariant g frames w) (v : α) :
    v ∈ g.nodes ↔ v ∈ w.unvisited ∨ v ∈ w.stack ∨ w.Closed v := by
  rw [← h.parts.mem_iff]
  simp [Closed]

theorem stack_nodup (h : Invariant g frames w) : w.stack.Nodup :=
  (List.nodup_append.mp (List.nodup_append.mp h.parts_nodup).2.1).1

theorem not_mem_stack (h : Invariant g frames w) {v : α} (hv : v ∈ w.unvisited) :
    v ∉ w.stack := fun hs =>
  (List.nodup_append.mp h.parts_nodup).2.2 v hv v (by simp [hs]) rfl

theorem not_closed (h : Invariant g frames w) {v : α} (hv : v ∈ w.stack) : ¬ w.Closed v :=
  fun hc => (List.nodup_append.mp (List.nodup_append.mp h.parts_nodup).2.1).2.2 v hv v
    (by simpa [Closed] using hc) rfl

theorem target_cases (h : Invariant g frames w) {u v : α} (he : g.Edge u v) :
    v ∈ w.unvisited ∨ v ∈ w.stack ∨ w.Closed v :=
  (h.mem_nodes_iff v).mp (Graph.mem_nodes.mpr (Graph.occurs_of_edge he).2)

/-- Whatever differs in `low` and `work` only has the invariant if its layers are
right. -/
theorem relayer (h : Invariant g frames w) {low : Table α Nat} {work : List (Frame α)}
    (hl : Layers g { w with low, work } outer w.stack) :
    Invariant g outer { w with low, work } :=
  { h with layers := hl }

theorem setWork (h : Invariant g frames w) (work : List (Frame α)) :
    Invariant g frames { w with work } := by
  have ha := @agrees_of_eq α _ w { w with work } rfl rfl rfl w.stack
  exact h.relayer (h.layers.mono ha fun _ _ => rfl)

/-! ### Entering a node -/

theorem enter {target : α} (h : Invariant g frames w) (ht : target ∈ w.unvisited)
    (hcall : ∀ p ∈ frames.head?, g.Reaches p.node target) :
    Invariant g (⟨target, g.targets target⟩ :: frames) (w.enter g target) := by
  have hns := h.not_mem_stack ht
  have hidx : ∀ y ∈ w.stack, (w.enter g target).indexOf y = w.indexOf y := fun y hy =>
    indexOf_enter_of_ne g w fun he => hns (he ▸ hy)
  have hagrees : Agrees w (w.enter g target) w.stack := by
    refine ⟨fun y hy => ⟨fun hm => hy (List.mem_of_mem_erase hm), fun hm => ?_⟩, hidx,
      fun _ _ y hy _ => ⟨List.mem_cons_of_mem _ hy, hidx y hy⟩⟩
    rcases List.mem_cons.mp hm with he | hs
    · exact absurd (he ▸ ht) hy
    · exact ⟨hs, hidx y hs⟩
  have hbelow : Layers g (w.enter g target) frames w.stack := by
    refine h.layers.mono hagrees fun f hf => lowOf_enter_of_ne g w fun he => hns ?_
    rw [← he]
    exact h.layers.nodes_sublist.subset (List.mem_map_of_mem hf)
  have hopen : OpenFrame g (w.enter g target) ⟨target, g.targets target⟩ := by
    refine ⟨⟨[], rfl, fun y hy => absurd hy List.not_mem_nil⟩, ?_, target,
      List.mem_cons_self, ?_, .refl⟩
    · rw [lowOf_enter_self, indexOf_enter_self]
    · rw [lowOf_enter_self, indexOf_enter_self]
  refine { h with
    onStack_iff := ?_
    parts := ?_
    sorted := List.pairwise_cons.mpr ⟨?_, ?_⟩
    lt_clock := ?_
    layers := @Layers.cons α _ g _ _ frames [] w.stack hopen
      (fun x hx => absurd hx List.not_mem_nil) hcall hbelow }
  · intro v
    show v ∈ target :: w.onStack ↔ v ∈ target :: w.stack
    rw [List.mem_cons, List.mem_cons, h.onStack_iff]
  · show (w.unvisited.erase target ++ (target :: w.stack ++ _)).Perm g.nodes
    refine List.Perm.trans ?_ h.parts
    exact List.perm_middle.trans ((List.perm_cons_erase ht).symm.append_right _)
  · intro y hy
    rw [indexOf_enter_self, hidx y hy]
    exact h.lt_clock y hy
  · exact h.sorted.imp_of_mem fun hx hy hlt => by rw [hidx _ hx, hidx _ hy]; exact hlt
  · intro v hv
    show (w.enter g target).indexOf v < w.clock + 1
    rcases List.mem_cons.mp hv with he | hs
    · rw [he, indexOf_enter_self]
      exact Nat.lt_succ_self _
    · rw [hidx v hs]
      exact Nat.lt_succ_of_lt (h.lt_clock v hs)

/-! ### Reading targets -/

theorem lower_top {node target : α} {rest : List α}
    (h : Invariant g (⟨node, target :: rest⟩ :: outer) w) (hv : target ∉ w.unvisited)
    (hs : target ∈ w.stack) (he : g.Edge node target) :
    Invariant g (⟨node, rest⟩ :: outer) (w.lower node (w.indexOf target)) := by
  have hl := h.layers.lower (n := w.indexOf target) h.stack_nodup ⟨target, hs, rfl, .single he⟩
  refine h.relayer (hl.advance ⟨hv, fun _ => ?_⟩)
  rw [lowOf_lower_self]
  exact Nat.min_le_right _ _

theorem edge_of_pending {node : α} {pending : List α}
    (h : Invariant g (⟨node, pending⟩ :: outer) w) {y : α} (hy : y ∈ pending) :
    g.Edge node y := by
  have hl := h.layers
  generalize w.stack = part at hl
  cases hl with
  | cons top _ _ _ =>
    obtain ⟨read, hsplit, _⟩ := top.read
    unfold Graph.Edge
    rw [hsplit]
    exact List.mem_append_right _ hy

theorem consume {node : α} {pending : List α}
    (h : Invariant g (⟨node, pending⟩ :: outer) w) :
    match w.consume node pending with
    | (w', some (target, rest)) =>
      target ∈ w'.unvisited ∧ Invariant g (⟨node, target :: rest⟩ :: outer) w'
    | (w', none) => Invariant g (⟨node, []⟩ :: outer) w' := by
  induction pending generalizing w with
  | nil => exact h
  | cons target rest ih =>
    have he := h.edge_of_pending List.mem_cons_self
    rw [Walk.consume]
    by_cases hv : target ∈ w.unvisited
    · rw [if_pos hv]
      exact ⟨hv, h⟩
    · rw [if_neg hv]
      by_cases hs : target ∈ w.onStack
      · rw [if_pos hs]
        exact ih (h.lower_top hv ((h.onStack_iff _).mp hs) he)
      · rw [if_neg hs]
        have hread : w.Read node target :=
          ⟨hv, fun hm => absurd ((h.onStack_iff _).mpr hm) hs⟩
        exact ih { h with layers := h.layers.advance hread }

/-! ### The segment of a node that has read all its targets -/

section Segment

variable {node : α} {above rest : List α}

theorem exists_segment {pending : List α} (h : Invariant g (⟨node, pending⟩ :: outer) w) :
    ∃ above rest, w.stack = above ++ node :: rest ∧ OpenFrame g w ⟨node, pending⟩ ∧
      (∀ x ∈ above, Left g w node x) ∧ (∀ p ∈ outer.head?, g.Reaches p.node node) ∧
      Layers g w outer rest := by
  have hl := h.layers
  generalize hs : w.stack = part at hl
  cases hl with
  | @cons _ _ above rest top left called below =>
    exact ⟨above, rest, rfl, top, left, called, below⟩

theorem indexOf_lt_of_mem_rest (h : Invariant g frames w)
    (hs : w.stack = above ++ node :: rest) {x y : α} (hx : x ∈ above ++ [node]) (hy : y ∈ rest) :
    w.indexOf y < w.indexOf x := by
  have hp := h.sorted
  rw [hs, List.append_cons] at hp
  exact (List.pairwise_append.mp hp).2.2 x hx y hy

theorem indexOf_le_of_mem_segment (h : Invariant g frames w)
    (hs : w.stack = above ++ node :: rest) {x : α} (hx : x ∈ above ++ [node]) :
    w.indexOf node ≤ w.indexOf x := by
  have hp := h.sorted
  rw [hs] at hp
  rcases List.mem_append.mp hx with hx | hx
  · exact Nat.le_of_lt ((List.pairwise_append.mp hp).2.2 x hx node List.mem_cons_self)
  · rw [List.mem_singleton.mp hx]

omit [DecidableEq α] in
theorem mem_segment_or_rest (hs : w.stack = above ++ node :: rest) {x : α} (hx : x ∈ w.stack) :
    x ∈ above ++ [node] ∨ x ∈ rest := by
  rw [hs, List.append_cons] at hx
  exact List.mem_append.mp hx

omit [DecidableEq α] in
theorem mem_stack_of_segment (hs : w.stack = above ++ node :: rest) {x : α}
    (hx : x ∈ above ++ [node]) : x ∈ w.stack := by
  rw [hs, List.append_cons]
  exact List.mem_append_left _ hx

variable (h : Invariant g (⟨node, []⟩ :: outer) w) (hs : w.stack = above ++ node :: rest)
  (top : OpenFrame g w ⟨node, []⟩) (left : ∀ x ∈ above, Left g w node x)

include top left in
theorem read_of_segment {x y : α} (hx : x ∈ above ++ [node]) (he : g.Edge x y) :
    w.Read node y := by
  rcases List.mem_append.mp hx with hx | hx
  · exact (left x hx).read y he
  · obtain ⟨read, hsplit, hread⟩ := top.read
    rw [List.append_nil] at hsplit
    unfold Graph.Edge at he
    rw [List.mem_singleton.mp hx, hsplit] at he
    exact hread y he

include left in
theorem reaches_segment {x : α} (hx : x ∈ above ++ [node]) : g.Reaches node x := by
  rcases List.mem_append.mp hx with hx | hx
  · exact (left x hx).reached
  · rw [List.mem_singleton.mp hx]
    exact .refl

include h hs top left in
/-- If its first node reaches nothing older, no edge leaves a segment but to
closed nodes. -/
theorem edge_of_segment (hroot : w.lowOf node = w.indexOf node) {x y : α}
    (hx : x ∈ above ++ [node]) (he : g.Edge x y) : y ∈ above ++ [node] ∨ w.Closed y := by
  have hr := read_of_segment top left hx he
  rcases h.target_cases he with hu | hst | hc
  · exact absurd hu hr.1
  · rcases mem_segment_or_rest hs hst with hseg | hrest
    · exact Or.inl hseg
    · have hle := hr.2 hst
      have hlt := h.indexOf_lt_of_mem_rest hs (x := node) (by simp) hrest
      omega
  · exact Or.inr hc

include h hs top left in
theorem reaches_of_segment (hroot : w.lowOf node = w.indexOf node) {x y : α}
    (hx : x ∈ above ++ [node]) (hxy : g.Reaches x y) : y ∈ above ++ [node] ∨ w.Closed y := by
  refine Graph.closed_of_reaches (P := fun v => v ∈ above ++ [node] ∨ w.Closed v) ?_
    (Or.inl hx) hxy
  rintro u (hu | hu) v he
  · exact h.edge_of_segment hs top left hroot hu he
  · exact Or.inr (h.closed u hu v he)

include h hs top left in
/-- Every node of a segment reaches down to its first node, step by step to an
older one. -/
theorem reaches_node (hroot : w.lowOf node = w.indexOf node) {x : α}
    (hx : x ∈ above ++ [node]) : g.Reaches x node := by
  induction hn : w.indexOf x using Nat.strongRecOn generalizing x with
  | ind n ih =>
    rcases List.mem_append.mp hx with hxa | hxn
    · obtain ⟨y, hy, hlt, hxy⟩ := (left x hxa).older
      rcases h.reaches_of_segment hs top left hroot hx hxy with hseg | hc
      · exact hxy.trans (ih _ (hn ▸ hlt) hseg rfl)
      · exact absurd hc (h.not_closed hy)
    · rw [List.mem_singleton.mp hxn]
      exact .refl

include h hs top left in
theorem segment_isComponent (hroot : w.lowOf node = w.indexOf node) :
    g.IsComponent (above ++ [node]).reverse := by
  have hnd : (above ++ [node]).Nodup := by
    have hst := h.stack_nodup
    rw [hs, List.append_cons] at hst
    exact (List.nodup_append.mp hst).1
  refine ⟨by simp, List.nodup_reverse.mpr hnd, ?_⟩
  intro u hu v
  rw [List.mem_reverse] at hu ⊢
  have hun := h.reaches_node hs top left hroot hu
  constructor
  · intro hv
    have hvn := h.reaches_node hs top left hroot hv
    exact ⟨hun.trans (reaches_segment left hv), hvn.trans (reaches_segment left hu)⟩
  · rintro ⟨huv, hvu⟩
    rcases h.reaches_of_segment hs top left hroot hu huv with hseg | hc
    · exact hseg
    · have hcu : w.Closed u := Graph.closed_of_reaches h.closed hc hvu
      exact absurd hcu (h.not_closed (mem_stack_of_segment hs hu))

include h hs in
theorem not_mem_above : node ∉ above := by
  have hnd := h.stack_nodup
  rw [hs, List.append_cons] at hnd
  intro hm
  exact (List.nodup_append.mp (List.nodup_append.mp hnd).1).2.2 node hm node (by simp) rfl

end Segment

/-! ### Leaving a node -/

section Leave

variable {node : α} {above rest : List α}

/-- Closing a segment: its nodes go from the stack to the closed nodes, and the
rest of the stack does not notice. -/
theorem close_segment (h : Invariant g frames w) (hs : w.stack = above ++ node :: rest)
    (below : Layers g w outer rest) {onStack cyclic order : List α} {cycles : List (List α)}
    (hon : ∀ v, v ∈ onStack ↔ v ∈ w.onStack ∧ v ∉ above ++ [node])
    (hparts : (order ++ cycles.flatten).Perm
      (above ++ [node] ++ (w.order ++ w.cycles.flatten)))
    (hclosed : ∀ x ∈ above ++ [node], ∀ y, g.Edge x y → y ∈ above ++ [node] ∨ w.Closed y)
    (hordered : ∀ before u after, order = before ++ u :: after →
      ∀ y, g.Edge u y → y ∈ before ∨ y ∈ cycles.flatten)
    (hcycle : ∀ c ∈ cycles, g.IsCycle c) (hacyclic : ∀ u ∈ order, ¬ g.Leads u u)
    (hcyclic : cyclic = cycles.flatten) :
    Invariant g outer { w with stack := rest, onStack, cycles, cyclic, order } := by
  have hsplit : w.stack = (above ++ [node]) ++ rest := by
    rw [hs, List.append_cons]
  have hrest : ∀ x ∈ rest, x ∈ w.stack := fun x hx => by
    rw [hsplit]
    exact List.mem_append_right _ hx
  have hout : ∀ x ∈ rest, x ∉ above ++ [node] := fun x hx hseg => by
    have hnd := h.stack_nodup
    rw [hsplit] at hnd
    exact (List.nodup_append.mp hnd).2.2 x hseg x hx rfl
  have hnew : ∀ y, y ∈ order ∨ y ∈ cycles.flatten ↔ y ∈ above ++ [node] ∨ w.Closed y := by
    intro y
    rw [← List.mem_append, hparts.mem_iff, List.mem_append (s := above ++ [node]), Closed,
      ← List.mem_append (s := w.order)]
  have hsorted := h.sorted
  rw [hsplit] at hsorted
  refine
    { onStack_iff := fun v => ?_
      parts := ?_
      sorted := (List.pairwise_append.mp hsorted).2.1
      lt_clock := fun v hv => h.lt_clock v (hrest v hv)
      layers := below.mono ⟨fun y hy => ⟨hy, fun hm => ⟨hrest y hm, rfl⟩⟩, fun _ _ => rfl,
        fun x hx y hy hle => ⟨?_, rfl⟩⟩ fun _ _ => rfl
      closed := fun v hv y he => ?_
      ordered := hordered
      isCycle := hcycle
      acyclic := hacyclic
      cyclic_eq := hcyclic }
  · show v ∈ onStack ↔ v ∈ rest
    rw [hon, h.onStack_iff, hsplit, List.mem_append]
    constructor
    · rintro ⟨hseg | hr, hn⟩
      · exact absurd hseg hn
      · exact hr
    · exact fun hr => ⟨Or.inr hr, hout v hr⟩
  · refine List.Perm.trans ?_ h.parts
    rw [hsplit]
    refine List.Perm.append_left _ ?_
    refine (hparts.append_left rest).trans ?_
    rw [← List.append_assoc]
    exact List.perm_append_comm.append_right _
  · rcases mem_segment_or_rest hs hy with hseg | hr
    · have hlt := h.indexOf_lt_of_mem_rest hs hseg hx
      omega
    · exact hr
  · refine (hnew y).mpr ?_
    rcases (hnew v).mp hv with hseg | hc
    · exact hclosed v hseg y he
    · exact Or.inr (h.closed v hc y he)

/-- The position of an edge in an order that has grown by one node. -/
theorem ordered_concat {order : List α} {P : α → Prop}
    (h : ∀ before u after, order = before ++ u :: after →
      ∀ y, g.Edge u y → y ∈ before ∨ P y)
    (hnode : ∀ y, g.Edge node y → y ∈ order ∨ P y) :
    ∀ before u after, order ++ [node] = before ++ u :: after →
      ∀ y, g.Edge u y → y ∈ before ∨ P y := by
  intro before u after heq y he
  rcases List.eq_nil_or_concat after with rfl | ⟨init, last, rfl⟩
  · obtain ⟨h1, h2⟩ := List.append_inj' heq rfl
    rw [← h1]
    exact hnode y ((List.singleton_inj.mp h2) ▸ he)
  · have heq' : order ++ [node] = (before ++ u :: init) ++ [last] := by
      rw [heq]
      simp
    exact h before u init (List.append_inj' heq' rfl).1 y he

/-- A segment that is a cycle joins the cycles. -/
theorem close_cycle (h : Invariant g frames w) (hs : w.stack = above ++ node :: rest)
    (below : Layers g w outer rest) {onStack : List α}
    (hon : ∀ v, v ∈ onStack ↔ v ∈ w.onStack ∧ v ∉ above ++ [node])
    (hclosed : ∀ x ∈ above ++ [node], ∀ y, g.Edge x y → y ∈ above ++ [node] ∨ w.Closed y)
    (hcycle : g.IsCycle (above ++ [node]).reverse) :
    Invariant g outer
      { w with
        stack := rest
        onStack
        cycles := w.cycles ++ [(above ++ [node]).reverse]
        cyclic := w.cyclic ++ (above ++ [node]).reverse } := by
  refine h.close_segment hs below hon ?_ hclosed ?_ ?_ h.acyclic ?_
  · rw [List.flatten_concat, ← List.append_assoc]
    exact List.perm_append_comm.trans ((List.reverse_perm _).append_right _)
  · intro before u after ho y he
    rw [List.flatten_concat, List.mem_append]
    exact (h.ordered before u after ho y he).imp_right Or.inl
  · intro c hc
    rcases List.mem_append.mp hc with hc | hc
    · exact h.isCycle c hc
    · rw [List.mem_singleton.mp hc]
      exact hcycle
  · rw [h.cyclic_eq, List.flatten_concat]

/-- A node that is a component without an edge to itself joins the order. -/
theorem close_single (h : Invariant g frames w) (hs : w.stack = node :: rest)
    (below : Layers g w outer rest) {onStack : List α}
    (hon : ∀ v, v ∈ onStack ↔ v ∈ w.onStack ∧ v ∉ [node])
    (hclosed : ∀ x ∈ [node], ∀ y, g.Edge x y → y ∈ [node] ∨ w.Closed y)
    (hcomp : g.IsComponent [node]) (hself : ¬ g.Edge node node) :
    Invariant g outer { w with stack := rest, onStack, order := w.order ++ [node] } := by
  have hs' : w.stack = [] ++ node :: rest := hs
  refine h.close_segment hs' below hon ?_ hclosed ?_ h.isCycle ?_ h.cyclic_eq
  · rw [List.append_assoc]
    exact List.perm_middle
  · apply ordered_concat h.ordered
    intro y he
    rcases hclosed node (List.mem_singleton_self node) y he with hseg | hc
    · rw [List.mem_singleton] at hseg
      exact absurd (hseg ▸ he) hself
    · exact hc
  · intro u hu hl
    rcases List.mem_append.mp hu with hu | hu
    · exact h.acyclic u hu hl
    · rw [List.mem_singleton.mp hu] at hl
      obtain ⟨v, he, hv⟩ := Graph.leads_iff_edge_reaches.mp hl
      have hm := (hcomp.mem_iff node (List.mem_singleton_self node) v).mpr ⟨.single he, hv⟩
      rw [List.mem_singleton] at hm
      exact hself (hm ▸ he)

/-- A node that reaches nothing older is the first of a component, which closes. -/
theorem close (h : Invariant g (⟨node, []⟩ :: outer) w)
    (hroot : w.lowOf node = w.indexOf node) : Invariant g outer (w.closeComponent g node) := by
  obtain ⟨above, rest, hs, top, left, -, below⟩ := h.exists_segment
  have hcomp := h.segment_isComponent hs top left hroot
  have hedge : ∀ x ∈ above ++ [node], ∀ y, g.Edge x y → y ∈ above ++ [node] ∨ w.Closed y :=
    fun x hx y he => h.edge_of_segment hs top left hroot hx he
  have hon : ∀ v, v ∈ w.onStack.filter (fun v => !(above ++ [node]).contains v) ↔
      v ∈ w.onStack ∧ v ∉ above ++ [node] := fun v => by
    rw [List.mem_filter]
    simp
  have hpop : popTo node w.stack = (above ++ [node], rest) := by
    rw [hs]
    exact popTo_append rest (h.not_mem_above hs)
  unfold closeComponent
  rw [hpop]
  simp only
  by_cases hlen : 1 < (above ++ [node]).reverse.length
  · rw [if_pos hlen]
    exact h.close_cycle hs below hon hedge ⟨hcomp, Or.inl hlen⟩
  · rw [if_neg hlen]
    obtain rfl : above = [] := by
      cases above with
      | nil => rfl
      | cons a above => simp at hlen
    by_cases hself : node ∈ g.targets node
    · rw [if_pos hself]
      exact h.close_cycle hs below hon hedge ⟨hcomp, Or.inr ⟨node, rfl, hself⟩⟩
    · rw [if_neg hself]
      exact h.close_single hs below hon hedge hcomp hself

/-- The frame below the innermost one learns what that one knows. -/
theorem lower_caller {p : Frame α} (h : Invariant g (⟨node, []⟩ :: p :: outer) w) :
    Invariant g (⟨node, []⟩ :: p :: outer) (w.lower p.node (w.lowOf node)) := by
  obtain ⟨above, rest, hs, top, left, called, below⟩ := h.exists_segment
  have hrest : rest.Nodup := by
    have hnd := h.stack_nodup
    rw [hs, List.append_cons] at hnd
    exact (List.nodup_append.mp hnd).2.1
  have hp : p.node ∈ rest := below.nodes_sublist.subset (List.mem_map_of_mem List.mem_cons_self)
  have hne : node ≠ p.node := fun he => by
    have hlt := h.indexOf_lt_of_mem_rest hs (x := node) (by simp) hp
    rw [he] at hlt
    exact Nat.lt_irrefl _ hlt
  have ha := @agrees_of_eq α _ w (w.lower p.node (w.lowOf node)) rfl rfl rfl w.stack
  have hlow := lowOf_lower_of_ne w (w.lowOf node) hne
  have hbelow : Layers g (w.lower p.node (w.lowOf node)) (p :: outer) rest := by
    obtain ⟨y, hy, hlo, hr⟩ := top.low_reached
    exact below.lower hrest ⟨y, hy, hlo, (called p rfl).trans hr⟩
  have hl : Layers g (w.lower p.node (w.lowOf node)) (⟨node, []⟩ :: p :: outer)
      (above ++ node :: rest) := by
    refine .cons (top.mono ha ?_ hlow) (fun x hx => (left x hx).mono ha ?_ hlow.le) called hbelow
    · rw [hs]
      simp
    · rw [hs]
      exact List.mem_append_left _ hx
  rw [← hs] at hl
  exact h.relayer hl

/-- A node that reaches something older stays on the stack, with all of its
layer, in the layer of the frame below. -/
theorem merge {p : Frame α} (h : Invariant g (⟨node, []⟩ :: p :: outer) w)
    (hle : w.lowOf p.node ≤ w.lowOf node) (hne : w.lowOf node ≠ w.indexOf node) :
    Invariant g (p :: outer) w := by
  obtain ⟨above, rest, hs, top, left, called, below⟩ := h.exists_segment
  have hcall := called p rfl
  have hread : ∀ x ∈ above ++ [node], ∀ y, g.Edge x y → w.Read p.node y := fun x hx y he => by
    have hr := read_of_segment top left hx he
    exact ⟨hr.1, fun hy => hle.trans (hr.2 hy)⟩
  have hnode : Left g w p.node node := by
    obtain ⟨y, hy, hlo, hr⟩ := top.low_reached
    exact ⟨hcall, hread node (by simp), y, hy, hlo ▸ Nat.lt_of_le_of_ne top.low_le hne, hr⟩
  refine { h with layers := ?_ }
  rw [hs]
  cases below with
  | @cons _ _ above' rest ptop pleft pcalled pbelow =>
    have hsplit : above ++ node :: (above' ++ p.node :: rest) =
        (above ++ node :: above') ++ p.node :: rest := by
      simp
    rw [hsplit]
    refine .cons ptop ?_ pcalled pbelow
    intro x hx
    rcases List.mem_append.mp hx with hx | hx
    · exact ⟨hcall.trans (left x hx).reached, hread x (by simp [hx]), (left x hx).older⟩
    · rcases List.mem_cons.mp hx with rfl | hx
      · exact hnode
      · exact pleft x hx

theorem low_eq_index_of_outermost (h : Invariant g [⟨node, []⟩] w) :
    w.lowOf node = w.indexOf node := by
  obtain ⟨above, rest, hs, top, -, -, below⟩ := h.exists_segment
  cases below with
  | nil =>
    obtain ⟨y, hy, hlo, -⟩ := top.low_reached
    have hle := h.indexOf_le_of_mem_segment hs (x := y) (hs ▸ hy)
    have hge := top.low_le
    simp only at hlo hge
    omega

theorem leave (h : Invariant g (⟨node, []⟩ :: outer) w) :
    Invariant g outer (w.leave g node outer) := by
  have hw := h.setWork outer
  unfold Walk.leave
  cases outer with
  | nil =>
    have hroot := hw.low_eq_index_of_outermost
    simp only
    rw [if_pos hroot]
    exact hw.close hroot
  | cons p outer =>
    have hl := hw.lower_caller
    simp only
    split
    · rename_i hroot
      exact hl.close hroot
    · rename_i hne
      refine hl.merge ?_ hne
      obtain ⟨above, rest, hs, -, -, -, below⟩ := hl.exists_segment
      have hp : p.node ∈ rest :=
        below.nodes_sublist.subset (List.mem_map_of_mem List.mem_cons_self)
      have hlt := hl.indexOf_lt_of_mem_rest hs (x := node) (by simp) hp
      have hnp : node ≠ p.node := fun he => by
        rw [he] at hlt
        exact Nat.lt_irrefl _ hlt
      rw [lowOf_lower_self, lowOf_lower_of_ne _ _ hnp]
      exact Nat.min_le_right _ _

end Leave

/-! ### Steps and runs -/

/-- The frame below the innermost one moves on over the node that was entered. -/
theorem advance_caller {node target : α} {rest : List α} {f : Frame α}
    (h : Invariant g (f :: ⟨node, target :: rest⟩ :: outer) w) (hr : w.Read node target) :
    Invariant g (f :: ⟨node, rest⟩ :: outer) w := by
  have hl := h.layers
  refine { h with layers := ?_ }
  generalize w.stack = part at hl
  cases hl with
  | cons top left called below =>
    refine .cons top left ?_ (below.advance hr)
    intro p hp
    obtain rfl := Option.some.inj hp
    exact called ⟨node, target :: rest⟩ rfl

theorem step (h : Invariant g w.work w) : Invariant g (w.step g).work (w.step g) := by
  cases hw : w.work with
  | nil =>
    have hstep : w.step g = w := by
      unfold Walk.step
      rw [hw]
    rw [hstep]
    exact h
  | cons frame outer =>
    obtain ⟨node, pending⟩ := frame
    rw [hw] at h
    have hc := h.consume
    unfold Walk.step
    rw [hw]
    simp only
    generalize w.consume node pending = r at hc ⊢
    obtain ⟨w', _ | ⟨target, rest⟩⟩ := r
    · simp only [leave_work]
      exact leave hc
    · obtain ⟨hu, hi⟩ := hc
      have he : g.Edge node target := hi.edge_of_pending List.mem_cons_self
      have hs := hi.setWork (⟨node, rest⟩ :: outer)
      have hent := hs.enter hu fun p hp => by
        rw [← Option.some.inj hp]
        exact .single he
      refine hent.advance_caller ⟨?_, fun _ => ?_⟩
      · intro hm
        have hnd := (List.nodup_append.mp hi.parts_nodup).1
        exact (hnd.mem_erase_iff.mp hm).1 rfl
      · obtain ⟨above, below, hst, top, -, -, -⟩ := hi.exists_segment
        have hnode : node ∈ w'.stack := by
          rw [hst]
          simp
        have hne : node ≠ target := fun he => hi.not_mem_stack hu (he ▸ hnode)
        rw [lowOf_enter_of_ne _ _ hne, indexOf_enter_self]
        exact Nat.le_of_lt (Nat.lt_of_le_of_lt top.low_le (hi.lt_clock node hnode))

theorem run (h : Invariant g w.work w) : Invariant g [] (w.run g) := by
  induction hn : w.weight using Nat.strongRecOn generalizing w with
  | ind n ih =>
    rw [Walk.run]
    split
    · rename_i hw
      rw [hw] at h
      exact h
    · rename_i hw
      exact ih _ (hn ▸ step_weight_lt g w hw) h.step rfl

end Invariant

end DesignTokens.Walk
