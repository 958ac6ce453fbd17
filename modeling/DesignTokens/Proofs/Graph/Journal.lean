import DesignTokens.Proofs.Graph.Moves
import Mathlib.Data.List.Count

/-!
# The journal of a search

`Graph.Search` follows the search for cycles turn by turn, with the nodes that are still
to be taken as a start and with a journal of all that has happened to the stack.
`StackEvent.replay` reads a journal back: it gives the stack after the events, if only
the top of a stack was ever popped.

`Walk.StackInvariant` holds at the start of every turn, and the journal can be read back to
the stack (`Graph.Search.recorded`).  So no empty stack is popped, and when the search
is over every node has been pushed once and popped once (`Graph.search_stack`).
-/

namespace DesignTokens

variable {α : Type} [DecidableEq α] {g : Graph α} {w w' : Walk α} {left : List α}
  {events later journal : List (StackEvent α)} {v : α}

/-! ### Reading a journal -/

namespace StackEvent

variable {stack after : List α}

/-- The stack after some events.  There is none if something was popped that was not on
its top. -/
def replay : List α → List (StackEvent α) → Option (List α)
  | stack, [] => some stack
  | stack, .push node :: events => replay (node :: stack) events
  | top :: stack, .pop node :: events => if node = top then replay stack events else none
  | [], .pop _ :: _ => none
  | _, .underflow :: _ => none

theorem replay_append (stack : List α) (events later : List (StackEvent α)) :
    replay stack (events ++ later) = (replay stack events).bind fun s => replay s later := by
  induction events generalizing stack with
  | nil => rfl
  | cons event events ih =>
    cases event with
    | push node => exact ih (node :: stack)
    | pop node =>
      cases stack with
      | nil => rfl
      | cons top stack =>
        simp only [List.cons_append, replay]
        split
        · exact ih stack
        · rfl
    | underflow => rfl

theorem replay_pops (above rest : List α) :
    replay (above ++ rest) (above.map .pop) = some rest := by
  induction above with
  | nil => rfl
  | cons node above ih =>
    rw [List.map_cons, List.cons_append, replay, if_pos rfl]
    exact ih

theorem underflow_not_mem_of_replay (h : replay stack events = some after) :
    .underflow ∉ events := by
  induction events generalizing stack with
  | nil => exact List.not_mem_nil
  | cons event events ih =>
    cases event with
    | push node => exact List.not_mem_cons_of_ne_of_not_mem nofun (ih h)
    | pop node =>
      cases stack with
      | nil => cases h
      | cons top stack =>
        rw [replay] at h
        split at h
        · exact List.not_mem_cons_of_ne_of_not_mem nofun (ih h)
        · cases h
    | underflow => cases h

/-- What was on the stack and what was pushed is popped again or still on the stack. -/
theorem count_of_replay (h : replay stack events = some after) (v : α) :
    after.count v + events.count (.pop v) = stack.count v + events.count (.push v) := by
  induction events generalizing stack with
  | nil =>
    obtain rfl : stack = after := Option.some.inj h
    rfl
  | cons event events ih =>
    cases event with
    | push node =>
      have hcount := ih h
      by_cases hv : node = v
      · subst hv
        simp only [List.count_cons_self] at hcount ⊢
        simp
        omega
      · simp [hv] at hcount ⊢
        omega
    | pop node =>
      cases stack with
      | nil => cases h
      | cons top stack =>
        rw [replay] at h
        split at h
        · rename_i htop
          subst htop
          have hcount := ih h
          by_cases hv : node = v
          · subst hv
            simp
            omega
          · simp [hv] at hcount ⊢
            omega
        · cases h
    | underflow => cases h

end StackEvent

/-! ### What a move does to the stack -/

namespace Walk.Moved

theorem replay (h : Moved g w events w') : StackEvent.replay w.stack events = some w'.stack := by
  cases h with
  | enters _ _ _ => rfl
  | leaves _ => rfl
  | @closes frame outer low above rest hwork hstack htop =>
    obtain ⟨_, _, _, _, heq, -⟩ := closeComponent_cases g
      (w := { w with low, work := outer }) hstack htop
    rw [heq, hstack, List.append_cons]
    exact StackEvent.replay_pops _ _

/-- The nodes that are popped are the nodes that close. -/
theorem count_closed (h : Moved g w events w') (v : α) :
    (w'.order ++ w'.cycles.flatten).count v =
      (w.order ++ w.cycles.flatten).count v + events.count (.pop v) := by
  cases h with
  | enters _ _ _ => simp [enter]
  | leaves _ => rfl
  | @closes frame outer low above rest hwork hstack htop =>
    have hpops : ∀ l : List α, (l.map StackEvent.pop).count (.pop v) = l.count v := fun l =>
      List.count_map_of_injective l StackEvent.pop (fun _ _ he => StackEvent.pop.inj he) v
    obtain ⟨_, _, _, _, heq, hcase⟩ := closeComponent_cases g
      (w := { w with low, work := outer }) hstack htop
    rw [heq, hpops]
    rcases hcase with ⟨rfl, rfl⟩ | ⟨rfl, rfl, rfl⟩
    · simp only [List.flatten_concat, List.count_append, List.count_reverse]
      omega
    · simp only [List.nil_append, List.count_append]
      omega

theorem has_index (h : Moved g w events w') (hw : ∀ v ∈ w.stack, w.index.has v = true) :
    ∀ v ∈ w'.stack, w'.index.has v = true := by
  cases h with
  | @enters node target _ rest outer low _ _ _ =>
    intro v hv
    show (w.index.put target w.clock).has v = true
    rw [Table.has_put]
    exact (List.mem_cons.mp hv).imp id (hw v)
  | leaves _ => exact hw
  | @closes frame outer low above rest hwork hstack htop =>
    obtain ⟨_, _, _, _, heq, -⟩ := closeComponent_cases g
      (w := { w with low, work := outer }) hstack htop
    rw [heq]
    intro v hv
    exact hw v (hstack ▸ List.mem_append_right _ (List.mem_cons_of_mem _ hv))

end Walk.Moved

/-! ### The stack between two moves -/

namespace Walk

/-- What holds of the stack at the start of every turn.  Stacks have their top first, so the
discovery numbers go down. -/
structure StackInvariant (g : Graph α) (w : Walk α) : Prop where
  onStack_iff : ∀ v, v ∈ w.onStack ↔ v ∈ w.stack
  nodup : w.stack.Nodup
  numbered : ∀ v ∈ w.stack, w.index.has v = true
  sorted : w.stack.Pairwise fun newer older => w.indexOf older < w.indexOf newer
  work_sublist : (w.work.map Frame.node).Sublist w.stack
  reaches_work : ∀ above v below, w.stack = above ++ v :: below →
    ∃ f ∈ w.work, f.node ∈ v :: below ∧ g.Reaches v f.node

variable {frames : List (Frame α)} {part : List α}

theorem Layers.cases_of_mem (h : Layers g w frames part) (hv : v ∈ part) :
    ∃ f ∈ frames, f.node = v ∨ Left g w f.node v := by
  induction h with
  | nil => exact absurd hv List.not_mem_nil
  | @cons f frames above rest top left called below ih =>
    rcases List.mem_append.mp hv with hv | hv
    · exact ⟨f, List.mem_cons_self, Or.inr (left v hv)⟩
    · rcases List.mem_cons.mp hv with rfl | hv
      · exact ⟨f, List.mem_cons_self, Or.inl rfl⟩
      · obtain ⟨p, hp, hcase⟩ := ih hv
        exact ⟨p, List.mem_cons_of_mem _ hp, hcase⟩

namespace Invariant

theorem mem_stack_of_frame (h : Invariant g frames w) {f : Frame α} (hf : f ∈ frames) :
    f.node ∈ w.stack :=
  h.layers.nodes_sublist.subset (List.mem_map_of_mem hf)

/-- A node of the stack reaches an open node that is not younger: it is open itself, or it
reaches an older node of the stack. -/
theorem exists_reaches_frame (h : Invariant g frames w) (hv : v ∈ w.stack) :
    ∃ f ∈ frames, w.indexOf f.node ≤ w.indexOf v ∧ g.Reaches v f.node := by
  induction hn : w.indexOf v using Nat.strongRecOn generalizing v with
  | ind n ih =>
    obtain ⟨f, hf, rfl | hleft⟩ := h.layers.cases_of_mem hv
    · exact ⟨f, hf, hn.le, .refl⟩
    · obtain ⟨y, hy, hlt, hreach⟩ := hleft.older
      obtain ⟨p, hp, hle, hdown⟩ := ih _ (hn ▸ hlt) hy rfl
      exact ⟨p, hp, hle.trans (hn ▸ hlt.le), hreach.trans hdown⟩

theorem stackInvariant (h : Invariant g w.work w)
    (hnumbered : ∀ v ∈ w.stack, w.index.has v = true) :
    w.StackInvariant g where
  onStack_iff := h.onStack_iff
  nodup := h.stack_nodup
  numbered := hnumbered
  sorted := h.sorted
  work_sublist := h.layers.nodes_sublist
  reaches_work := by
    intro above v below hstack
    have hv : v ∈ w.stack := hstack ▸ List.mem_append_cons_self
    obtain ⟨f, hf, hle, hreach⟩ := h.exists_reaches_frame hv
    refine ⟨f, hf, ?_, hreach⟩
    have hmem := h.mem_stack_of_frame hf
    rw [hstack] at hmem
    rcases List.mem_append.mp hmem with habove | hbelow
    · have hsorted := h.sorted
      rw [hstack] at hsorted
      have hlt := (List.pairwise_append.mp hsorted).2.2 _ habove v List.mem_cons_self
      omega
    · exact hbelow

end Invariant

end Walk

/-! ### The turns of a search -/

namespace Graph

/-- The turns of the search for cycles: `left` are the nodes that are still to be taken as a
start, and the journal holds all that has happened to the stack so far. -/
inductive Search (g : Graph α) : List α → List (StackEvent α) → Walk α → Prop
  | start : Search g g.nodes [] (Walk.start g.nodes)
  | skip {v : α} {left : List α} {journal : List (StackEvent α)} {w : Walk α} :
      Search g (v :: left) journal w → w.work = [] → v ∉ w.unvisited → Search g left journal w
  | take {v : α} {left : List α} {journal : List (StackEvent α)} {w : Walk α} :
      Search g (v :: left) journal w → w.work = [] → v ∈ w.unvisited →
        Search g left (journal ++ [.push v]) (w.enter g v)
  | step {left : List α} {journal : List (StackEvent α)} {w : Walk α} :
      Search g left journal w → w.work ≠ [] → Search g left (journal ++ w.events) (w.step g)

/-- What is known at the start of a turn. -/
structure Recorded (g : Graph α) (left : List α) (journal : List (StackEvent α)) (w : Walk α) :
    Prop where
  invariant : Walk.Invariant g w.work w
  numbered : ∀ v ∈ w.stack, w.index.has v = true
  replayed : StackEvent.replay [] journal = some w.stack
  count_pop : ∀ v, journal.count (.pop v) = (w.order ++ w.cycles.flatten).count v
  unvisited_subset : w.unvisited ⊆ left

namespace Recorded

theorem start (g : Graph α) : g.Recorded g.nodes [] (Walk.start g.nodes) where
  invariant := Walk.invariant_start g
  numbered := fun _ hv => absurd hv List.not_mem_nil
  replayed := rfl
  count_pop := fun _ => rfl
  unvisited_subset := List.Subset.refl _

theorem skip (h : g.Recorded (v :: left) journal w) (hv : v ∉ w.unvisited) :
    g.Recorded left journal w :=
  { h with
    unvisited_subset := fun _ hu =>
      List.mem_of_ne_of_mem (ne_of_mem_of_not_mem hu hv) (h.unvisited_subset hu) }

theorem take (h : g.Recorded (v :: left) journal w) (hwork : w.work = [])
    (hv : v ∈ w.unvisited) : g.Recorded left (journal ++ [.push v]) (w.enter g v) where
  invariant := by
    have hinvariant := h.invariant
    have hframes : (w.enter g v).work = [⟨v, g.targets v⟩] := by
      unfold Walk.enter
      rw [hwork]
    rw [hwork] at hinvariant
    rw [hframes]
    exact hinvariant.enter hv fun p hp => by cases hp
  numbered := fun u hu => by
    show (w.index.put v w.clock).has u = true
    rw [Table.has_put]
    exact (List.mem_cons.mp hu).imp id (h.numbered u)
  replayed := by
    rw [StackEvent.replay_append, h.replayed]
    rfl
  count_pop := fun u => by
    rw [List.count_append, h.count_pop]
    simp [Walk.enter]
  unvisited_subset := fun _ hu => by
    have hnodup := (List.nodup_append.mp h.invariant.parts_nodup).1
    obtain ⟨hne, hu⟩ := hnodup.mem_erase_iff.mp hu
    exact List.mem_of_ne_of_mem hne (h.unvisited_subset hu)

theorem step (h : g.Recorded left journal w) (hwork : w.work ≠ []) :
    g.Recorded left (journal ++ w.events) (w.step g) where
  invariant := h.invariant.step
  numbered := (h.invariant.moved hwork).has_index h.numbered
  replayed := by
    rw [StackEvent.replay_append, h.replayed]
    exact (h.invariant.moved hwork).replay
  count_pop := fun v => by
    rw [List.count_append, h.count_pop, (h.invariant.moved hwork).count_closed]
  unvisited_subset := fun _ hv => h.unvisited_subset (Walk.step_unvisited_subset g w hv)

theorem stack_eq_nil (h : g.Recorded left journal w) (hwork : w.work = []) : w.stack = [] := by
  have hinvariant := h.invariant
  rw [hwork] at hinvariant
  exact hinvariant.stack_eq_nil

theorem closed_perm (h : g.Recorded [] journal w) (hwork : w.work = []) :
    (w.order ++ w.cycles.flatten).Perm g.nodes := by
  have hparts := h.invariant.parts
  rw [List.subset_nil.mp h.unvisited_subset, h.stack_eq_nil hwork] at hparts
  exact hparts

end Recorded

namespace Search

theorem recorded (h : g.Search left journal w) : g.Recorded left journal w := by
  induction h with
  | start => exact .start g
  | skip _ _ hv ih => exact ih.skip hv
  | take _ hwork hv ih => exact ih.take hwork hv
  | step _ hwork ih => exact ih.step hwork

theorem exists_run (h : g.Search left journal w) :
    ∃ journal, g.Search left journal (w.run g) := by
  induction hn : w.weight using Nat.strongRecOn generalizing w journal with
  | ind n ih =>
    rw [Walk.run]
    split
    · exact ⟨journal, h⟩
    · rename_i hwork
      exact ih _ (hn ▸ Walk.step_weight_lt g w hwork) (h.step hwork) rfl

/-- The turns of the walks from some nodes. -/
theorem exists_visitAll (h : g.Search left journal w) (hwork : w.work = []) :
    (left.foldl (Walk.visit g) w).work = [] ∧
      ∃ journal, g.Search [] journal (left.foldl (Walk.visit g) w) := by
  induction left generalizing w journal with
  | nil => exact ⟨hwork, journal, h⟩
  | cons v left ih =>
    rw [List.foldl_cons, Walk.visit]
    split
    · rename_i hv
      obtain ⟨longer, hrun⟩ := (h.take hwork hv).exists_run
      exact ih hrun (Walk.run_work g _)
    · rename_i hv
      exact ih (h.skip hwork hv) hwork

end Search

/-- **What holds at the start of every turn of a search, and what its journal says.**  The
stack has its invariant, the journal is read back to it without a pop of the empty stack,
and the stack is empty whenever a new start is taken.  The search for cycles comes to
the end of its turns, and then every node was pushed once and popped once. -/
theorem search_stack (g : Graph α) :
    (∀ left journal w, g.Search left journal w →
      w.StackInvariant g ∧ StackEvent.replay [] journal = some w.stack ∧
        .underflow ∉ journal ∧ (w.work = [] → w.stack = [])) ∧
      (∃ journal w, g.Search [] journal w ∧ w.work = [] ∧
        g.findCycles =
          ⟨w.cycles, w.cyclic, if w.cycles.isEmpty then some w.order else none⟩) ∧
      ∀ journal w, g.Search [] journal w → w.work = [] →
        ∀ v, journal.count (.push v) = (if v ∈ g.nodes then 1 else 0) ∧
          journal.count (.pop v) = if v ∈ g.nodes then 1 else 0 := by
  refine ⟨fun left journal w h => ?_, ?_, fun journal w h hwork v => ?_⟩
  · have hrecorded := h.recorded
    exact ⟨hrecorded.invariant.stackInvariant hrecorded.numbered, hrecorded.replayed,
      StackEvent.underflow_not_mem_of_replay hrecorded.replayed, hrecorded.stack_eq_nil⟩
  · obtain ⟨hwork, journal, h⟩ := Search.start.exists_visitAll (g := g) rfl
    exact ⟨journal, g.finalWalk, h, hwork, rfl⟩
  · have hrecorded := h.recorded
    have hpops : journal.count (.pop v) = if v ∈ g.nodes then 1 else 0 := by
      rw [hrecorded.count_pop, (hrecorded.closed_perm hwork).count_eq]
      exact g.nodes_nodup.count
    have hcount := StackEvent.count_of_replay hrecorded.replayed v
    rw [hrecorded.stack_eq_nil hwork, List.count_nil, Nat.zero_add, Nat.zero_add] at hcount
    exact ⟨hcount ▸ hpops, hpops⟩

/-- Two cycles through one node. -/
def figureEight : Graph Nat := [(0, [1, 2]), (1, [0]), (2, [0])]

/-- The turn in which node 1 is left, but stays on the stack, and the end of the search. -/
theorem search_stack_figureEight :
    (∃ journal w, figureEight.Search [1, 2] journal w ∧ w.stack = [1, 0] ∧
      w.work.map Frame.node = [0] ∧ w.StackInvariant figureEight ∧
        StackEvent.replay [] journal = some [1, 0] ∧ .underflow ∉ journal) ∧
      ∃ journal w, figureEight.Search [] journal w ∧ w.work = [] ∧
        journal.count (.push 1) = 1 ∧ journal.count (.pop 1) = 1 := by
  obtain ⟨hturns, ⟨journal, w, hend, hwork, -⟩, hcounts⟩ := search_stack figureEight
  have hnodes : figureEight.nodes = [0, 1, 2] := by decide
  have hstart : figureEight.Search [0, 1, 2] [] (Walk.start figureEight.nodes) :=
    hnodes ▸ Search.start
  have hturn := ((hstart.take rfl (by decide)).step (by decide)).step (by decide)
  obtain ⟨hstack, hreplay, hunderflow, -⟩ := hturns _ _ _ hturn
  refine ⟨⟨_, _, hturn, by decide, by decide, hstack, ?_, hunderflow⟩, journal, w, hend, hwork, ?_⟩
  · rw [hreplay]
    decide
  · obtain ⟨hpush, hpop⟩ := hcounts journal w hend hwork 1
    rw [hnodes] at hpush hpop
    exact ⟨hpush, hpop⟩

end Graph

end DesignTokens
