import DesignTokens.Proofs.Graph.Journal
import Mathlib.Data.List.Chain

/-!
# The order of discovery on a cycle

A cycle is reported with its members in the order of their discovery.  Each but the first was
entered from a member before it, and a member that has an edge to a later one has an edge to the
next one; this is all that the order says of the edges (`Graph.Discovered`).  So the members are
not one walk around the cycle, except where none of them has edges to two members
(`Discovered.isChain_of_single`).

`Walk.Traced` keeps both facts for the whole stack.  The caller of a node is the nearest node
below it that is still open (`Walk.CalledFrom`): between the two there are only nodes that were
left.
-/

namespace DesignTokens

variable {α : Type} [DecidableEq α] {g : Graph α} {w w' : Walk α} {events : List (StackEvent α)}
  {c opened : List α}

/-- What the order of discovery says of the edges between the members of a cycle. -/
structure Graph.Discovered (g : Graph α) (c : List α) : Prop where
  called : ∀ before y after, c = before ++ y :: after → before ≠ [] → ∃ x ∈ before, g.Edge x y
  next : ∀ before x y after, c = before ++ x :: y :: after → (∃ z ∈ y :: after, g.Edge x z) →
    g.Edge x y

namespace Walk

/-- A node of the stack with what is below it was entered from one of these, and no node in between
is open. -/
def CalledFrom (g : Graph α) (opened below : List α) (y : α) : Prop :=
  ∃ between x rest, below = between ++ x :: rest ∧ g.Edge x y ∧ ∀ v ∈ opened, v ∉ between

theorem CalledFrom.mono {below others : List α} {y : α} (h : CalledFrom g opened below y)
    (hothers : ∀ v ∈ others, v ∈ below → v ∈ opened) : CalledFrom g others below y := by
  obtain ⟨between, x, rest, rfl, hedge, hopened⟩ := h
  refine ⟨between, x, rest, rfl, hedge, fun v hv hm => ?_⟩
  exact hopened v (hothers v hv (List.mem_append_left _ hm)) hm

/-- What is known of the edges between the nodes of a stack, which has its top first, and of the
reported cycles. -/
structure Traced (g : Graph α) (w : Walk α) : Prop where
  called : ∀ above y below, w.stack = above ++ y :: below → below ≠ [] →
    CalledFrom g (w.work.map Frame.node) below y
  next : ∀ above y x below, w.stack = above ++ y :: x :: below → (∃ z ∈ above, g.Edge x z) →
    g.Edge x y
  reported : ∀ c ∈ w.cycles, g.Discovered c

theorem Invariant.mem_opened (h : Invariant g w.work w) {x t : α} (hx : x ∈ w.stack)
    (hedge : g.Edge x t) (ht : t ∈ w.unvisited) : x ∈ w.work.map Frame.node := by
  obtain ⟨f, hf, rfl | hleft⟩ := h.layers.cases_of_mem hx
  · exact List.mem_map_of_mem hf
  · exact absurd ht (hleft.read t hedge).1

namespace Traced

theorem start (g : Graph α) (nodes : List α) : Traced g (Walk.start nodes) where
  called := fun _ _ _ hstack =>
    absurd hstack.symm (List.append_ne_nil_of_right_ne_nil _ (List.cons_ne_nil _ _))
  next := fun _ _ _ _ hstack =>
    absurd hstack.symm (List.append_ne_nil_of_right_ne_nil _ (List.cons_ne_nil _ _))
  reported := fun _ hc => absurd hc List.not_mem_nil

theorem take (h : Traced g w) (hstack : w.stack = []) (v : α) : Traced g (w.enter g v) where
  called := by
    intro above y below hsplit hbelow
    have hone : v :: w.stack = above ++ y :: below := hsplit
    rw [hstack] at hone
    rcases List.cons_eq_append_iff.mp hone with ⟨-, htop⟩ | ⟨front, -, hnil⟩
    · exact absurd (List.cons.inj htop).2 hbelow
    · exact absurd hnil.symm (List.append_ne_nil_of_right_ne_nil _ (List.cons_ne_nil _ _))
  next := by
    intro above y x below hsplit
    have hone : v :: w.stack = above ++ y :: x :: below := hsplit
    rw [hstack] at hone
    have hlength := congrArg List.length hone
    rw [List.length_append] at hlength
    simp only [List.length_cons, List.length_nil] at hlength
    omega
  reported := h.reported

/-! ### Entering a node -/

section Enter

variable {node target : α} {pending rest : List α} {outer : List (Frame α)}
  (hw : w.work = ⟨node, pending⟩ :: outer) (hnew : target ∈ w.unvisited)

include hw hnew in
/-- The node that is entered was called from the innermost open node. -/
theorem calledFrom_target (hinvariant : Invariant g w.work w) (hedge : g.Edge node target) :
    CalledFrom g (target :: node :: outer.map Frame.node) w.stack target := by
  rw [hw] at hinvariant
  obtain ⟨above, below, hstack, -, -, -, houter⟩ := hinvariant.exists_segment
  have hfresh := hinvariant.not_mem_stack hnew
  have hnodup := hinvariant.stack_nodup
  rw [hstack] at hfresh hnodup ⊢
  refine ⟨above, node, below, rfl, hedge, fun v hv hm => ?_⟩
  rcases List.mem_cons.mp hv with rfl | hv
  · exact hfresh (List.mem_append_left _ hm)
  · refine (List.nodup_append.mp hnodup).2.2 v hm v ?_ rfl
    exact (houter.nodes_sublist.cons_cons node).subset hv

include hw hnew in
theorem enter (h : Traced g w) (hinvariant : Invariant g w.work w) (hedge : g.Edge node target)
    (low : Table α Nat) :
    Traced g (Walk.enter g { w with low, work := ⟨node, rest⟩ :: outer } target) where
  called := by
    intro above y below hsplit hbelow
    show CalledFrom g (target :: node :: outer.map Frame.node) below y
    rcases List.cons_eq_append_iff.mp hsplit with ⟨rfl, htop⟩ | ⟨above, rfl, hold⟩
    · obtain ⟨rfl, hbelow⟩ := List.cons.inj htop
      obtain rfl : below = w.stack := hbelow
      exact calledFrom_target hw hnew hinvariant hedge
    · refine (h.called above y below hold hbelow).mono fun v hv hm => ?_
      rw [hw]
      refine (List.mem_cons.mp hv).resolve_left ?_
      rintro rfl
      refine hinvariant.not_mem_stack hnew ?_
      rw [show w.stack = above ++ y :: below from hold]
      exact List.mem_append_right _ (List.mem_cons_of_mem _ hm)
  next := by
    intro above y x below hsplit
    rcases List.cons_eq_append_iff.mp hsplit with ⟨rfl, -⟩ | ⟨above, rfl, hold⟩
    · rintro ⟨z, hz, -⟩
      exact absurd hz List.not_mem_nil
    · rintro ⟨z, hz, hxz⟩
      rcases List.mem_cons.mp hz with rfl | hz
      · -- `x` has a target to visit, so it is open and nothing is between it and `y`
        have hold : w.stack = above ++ y :: x :: below := hold
        have hx : x ∈ w.stack := by
          rw [hold]
          exact List.mem_append_right _ (List.mem_cons_of_mem _ List.mem_cons_self)
        have hopen := hinvariant.mem_opened hx hxz hnew
        obtain ⟨between, caller, others, hbelow, hcall, hbetween⟩ :=
          h.called above y (x :: below) hold (List.cons_ne_nil _ _)
        cases between with
        | nil =>
          obtain ⟨rfl, -⟩ := List.cons.inj hbelow
          exact hcall
        | cons first between =>
          obtain ⟨rfl, -⟩ := List.cons.inj hbelow
          exact absurd List.mem_cons_self (hbetween _ hopen)
      · exact h.next above y x below hold ⟨z, hz, hxz⟩
  reported := h.reported

end Enter

/-! ### Closing a component -/

/-- The nodes from an open one to the top of the stack, in the order of their discovery. -/
theorem discovered_of_open (h : Traced g w) {root : α} {above rest : List α}
    (hstack : w.stack = above ++ root :: rest) (hroot : root ∈ w.work.map Frame.node) :
    g.Discovered (above ++ [root]).reverse where
  called := by
    intro before y after hsplit hbefore
    have hfirst : root ∈ before := by
      rw [List.reverse_append] at hsplit
      obtain ⟨first, before, rfl⟩ := List.exists_cons_of_ne_nil hbefore
      rw [(List.cons.inj hsplit).1]
      exact List.mem_cons_self
    have hturned := List.reverse_eq_iff.mp hsplit
    rw [List.reverse_append, List.reverse_cons, List.append_assoc, List.singleton_append] at hturned
    have hold : w.stack = after.reverse ++ y :: (before.reverse ++ rest) := by
      rw [hstack, List.append_cons, hturned, List.append_assoc]
      rfl
    obtain ⟨between, x, others, hbelow, hedge, hbetween⟩ := h.called _ y _ hold
      (List.append_ne_nil_of_left_ne_nil (List.reverse_ne_nil_iff.mpr hbefore) _)
    -- the caller is not below the first member, which is open
    refine ⟨x, ?_, hedge⟩
    have hnot : ¬ before.reverse ⊆ between := fun hsub =>
      hbetween root hroot (hsub (List.mem_reverse.mpr hfirst))
    rcases List.append_eq_append_iff.mp hbelow with ⟨more, rfl, -⟩ | ⟨more, hmore, hrest⟩
    · exact absurd (List.subset_append_left _ _) hnot
    · cases more with
      | nil =>
        rw [List.append_nil] at hmore
        exact absurd (hmore ▸ List.Subset.refl _) hnot
      | cons first more =>
        rw [(List.cons.inj hrest).1]
        refine List.mem_reverse.mp ?_
        rw [hmore]
        exact List.mem_append_cons_self
  next := by
    rintro before x y after hsplit ⟨z, hz, hedge⟩
    have hturned := List.reverse_eq_iff.mp hsplit
    have hold : w.stack = after.reverse ++ y :: x :: (before.reverse ++ rest) := by
      rw [hstack, List.append_cons, hturned]
      simp
    rcases List.mem_cons.mp hz with rfl | hz
    · exact hedge
    · exact h.next _ y x _ hold ⟨z, List.mem_reverse.mpr hz, hedge⟩

theorem close (h : Traced g w) {frame : Frame α} {outer : List (Frame α)} {low : Table α Nat}
    {above rest : List α} (hw : w.work = frame :: outer)
    (hstack : w.stack = above ++ frame.node :: rest) (htop : frame.node ∉ above) :
    Traced g (closeComponent g { w with low, work := outer } frame.node) := by
  have hroot : frame.node ∈ w.work.map Frame.node := by
    rw [hw]
    exact List.mem_cons_self
  have hdiscovered := h.discovered_of_open hstack hroot
  have hwhole : ∀ {front back : List α}, rest = front ++ back →
      w.stack = (above ++ frame.node :: front) ++ back := by
    rintro front back rfl
    rw [hstack, List.append_assoc]
    rfl
  obtain ⟨onStack, cyclic, cycles, order, heq, hcase⟩ := closeComponent_cases g
    (w := { w with low, work := outer }) hstack htop
  rw [heq]
  refine ⟨fun front y below hsplit hbelow => ?_, fun front y x below hsplit => ?_, fun c hc => ?_⟩
  · refine (h.called _ y below (hwhole hsplit) hbelow).mono fun v hv _ => ?_
    rw [hw]
    exact List.mem_cons_of_mem _ hv
  · rintro ⟨z, hz, hedge⟩
    exact h.next _ y x below (hwhole hsplit)
      ⟨z, List.mem_append_right _ (List.mem_cons_of_mem _ hz), hedge⟩
  · rcases hcase with ⟨rfl, -⟩ | ⟨-, rfl, -⟩
    · rcases List.mem_append.mp hc with hc | hc
      · exact h.reported c hc
      · rw [List.mem_singleton.mp hc]
        exact hdiscovered
    · exact h.reported c hc

theorem move (h : Traced g w) (hinvariant : Invariant g w.work w) (hmoved : Moved g w events w') :
    Traced g w' := by
  cases hmoved with
  | enters hw hnew hedge => exact h.enter hw hnew hinvariant hedge _
  | @leaves frame outer low hw =>
    refine ⟨fun above y below hsplit hbelow => ?_, h.next, h.reported⟩
    refine (h.called above y below hsplit hbelow).mono fun v hv _ => ?_
    rw [hw]
    exact List.mem_cons_of_mem _ hv
  | closes hw hstack htop => exact h.close hw hstack htop

end Traced

end Walk

namespace Graph

/-- **What every turn of a search keeps.** -/
theorem Search.traced {left : List α} {journal : List (StackEvent α)}
    (h : g.Search left journal w) : Walk.Traced g w := by
  induction h with
  | start => exact .start g _
  | skip _ _ _ ih => exact ih
  | take hsearch hwork _ ih => exact ih.take (hsearch.recorded.stack_eq_nil hwork) _
  | step hsearch hwork ih =>
    exact ih.move hsearch.recorded.invariant (hsearch.recorded.invariant.moved hwork)

/-- **Cycles are reported in the order of discovery.** -/
theorem cycles_discovered (hc : c ∈ g.findCycles.cycles) : g.Discovered c := by
  obtain ⟨-, journal, h⟩ := Search.start.exists_visitAll (g := g) rfl
  exact h.traced.reported c hc

/-! ### Simple cycles -/

theorem IsCycle.exists_edge (h : g.IsCycle c) {v : α} (hv : v ∈ c) : ∃ u ∈ c, g.Edge u v := by
  obtain ⟨u, hu, hedge⟩ := Relation.TransGen.tail'_iff.mp (h.leads_self hv)
  exact ⟨u, (h.1.mem_iff v hv u).mpr ⟨hu, .single hedge⟩, hedge⟩

/-- Where no member has edges to two members, each has an edge to the next one. -/
theorem Discovered.edge_next (h : g.Discovered c) (hnodup : c.Nodup)
    (hsingle : ∀ x ∈ c, ∀ y ∈ c, ∀ z ∈ c, g.Edge x y → g.Edge x z → y = z)
    {before after : List α} {x y : α} (hsplit : c = before ++ x :: y :: after) : g.Edge x y := by
  have hmem : ∀ {v}, v ∈ before ++ x :: y :: after → v ∈ c := fun hv => hsplit ▸ hv
  have hy : y ∈ c := hmem (by simp)
  obtain ⟨u, hu, hedge⟩ := h.called (before ++ [x]) y after (by rw [hsplit]; simp) (by simp)
  rcases List.mem_append.mp hu with hu | hu
  · -- `u` has an edge to the member behind it, so this would be `y` and stand twice
    obtain ⟨first, last, rfl⟩ := List.append_of_mem hu
    obtain ⟨n, more, hn⟩ := List.exists_cons_of_ne_nil (List.append_ne_nil_of_right_ne_nil last
      (List.cons_ne_nil x []))
    have hbehind : c = first ++ u :: n :: (more ++ y :: after) := by
      rw [hsplit, ← List.cons_append, ← hn]
      simp
    have hnext := h.next first u n _ hbehind ⟨y, by simp, hedge⟩
    obtain rfl := hsingle u (by simp [hbehind]) n (by simp [hbehind]) y hy hnext hedge
    rw [hbehind] at hnodup
    have htwice := (List.nodup_cons.mp (List.nodup_append.mp hnodup).2.1).2
    exact absurd List.mem_append_cons_self (List.nodup_cons.mp htwice).1
  · rw [List.mem_singleton.mp hu] at hedge
    exact hedge

/-- Where no member has edges to two members, the members of a cycle and the first one again are
a walk along the edges. -/
theorem Discovered.isChain_of_single (h : g.Discovered c) (hcycle : g.IsCycle c)
    (hsingle : ∀ x ∈ c, ∀ y ∈ c, ∀ z ∈ c, g.Edge x y → g.Edge x z → y = z) :
    List.IsChain g.Edge (c ++ c.take 1) := by
  have hnodup := hcycle.1.nodup
  have hedges : ∀ {before after : List α} {x y : α}, c = before ++ x :: y :: after → g.Edge x y :=
    fun hsplit => h.edge_next hnodup hsingle hsplit
  refine List.isChain_append.mpr ⟨?_, ?_, ?_⟩
  · rw [List.isChain_iff_forall_rel_of_append_cons_cons]
    exact fun _ _ _ _ hsplit => hedges hsplit
  · cases c with
    | nil => exact .nil
    | cons first others => exact .singleton first
  · intro last hlast first hfirst
    obtain ⟨others, rfl⟩ : ∃ others, c = first :: others := by
      cases c with
      | nil => cases hfirst
      | cons head others => exact ⟨others, congrArg (· :: others) (Option.some.inj hfirst)⟩
    -- the member with an edge to the first one is the last: otherwise the first would stand twice
    obtain ⟨u, hu, hedge⟩ := hcycle.exists_edge (List.mem_cons_self (a := first) (l := others))
    obtain ⟨front, back, hsplit⟩ := List.append_of_mem hu
    cases back with
    | nil =>
      rw [hsplit, List.getLast?_concat] at hlast
      exact Option.some.inj hlast ▸ hedge
    | cons n back =>
      have hn : n ∈ first :: others := by simp [hsplit]
      obtain rfl := hsingle u hu n hn first List.mem_cons_self (hedges hsplit) hedge
      have hothers : n ∈ others := by
        cases front with
        | nil =>
          rw [(List.cons.inj hsplit).2]
          exact List.mem_cons_self
        | cons head front =>
          rw [(List.cons.inj hsplit).2]
          exact List.mem_append_right _ (List.mem_cons_of_mem _ List.mem_cons_self)
      exact absurd hothers (List.nodup_cons.mp hnodup).1

end Graph

end DesignTokens
