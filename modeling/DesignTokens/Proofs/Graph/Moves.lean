import DesignTokens.Proofs.Graph.Components

/-!
# The moves of a walk

A step of a walk enters a node, leaves one, or leaves one and closes its component.
`Invariant.moved` says all that a step can do, so that what a walk keeps is shown
for these three moves.  `events` is what the step does to the stack: it pushes the
node that is entered, or it pops the nodes of the component that closes, one by
one, until the first node of the component is popped (`popsTo`).
-/

namespace DesignTokens

/-- What happens to a stack.  A pop of the empty stack is an `underflow`. -/
inductive StackEvent (α : Type) where
  | push (node : α)
  | pop (node : α)
  | underflow
  deriving DecidableEq, Repr

namespace Walk

variable {α : Type} [DecidableEq α] {g : Graph α} {w w' : Walk α} {above rest : List α}
  {root : α}

/-! ### What a step does to the stack -/

def popsTo (root : α) : List α → List (StackEvent α)
  | [] => [.underflow]
  | member :: rest =>
    if member = root then [.pop member] else .pop member :: popsTo root rest

/-- A walk that has left a node whose component is not closed yet: the frame below
has learned what the node reaches. -/
def leftOpen (w : Walk α) (node : α) : List (Frame α) → Walk α
  | [] => { w with work := [] }
  | parent :: outer => lower { w with work := parent :: outer } parent.node (w.lowOf node)

/-- What a step does to the stack, in order. -/
def events (w : Walk α) : List (StackEvent α) :=
  match w.work with
  | [] => []
  | frame :: outer =>
    match w.consume frame.node frame.pending with
    | (_, some (target, _)) => [.push target]
    | (w, none) =>
      let w := w.leftOpen frame.node outer
      if w.lowOf frame.node = w.indexOf frame.node then popsTo frame.node w.stack else []

theorem popsTo_append (rest : List α) (h : root ∉ above) :
    popsTo root (above ++ root :: rest) = (above ++ [root]).map .pop := by
  induction above with
  | nil => exact if_pos rfl
  | cons member above ih =>
    have hne : member ≠ root := (List.ne_of_not_mem_cons h).symm
    rw [List.cons_append, popsTo, if_neg hne, ih (List.not_mem_of_not_mem_cons h)]
    rfl

theorem leave_eq (g : Graph α) (w : Walk α) (node : α) (outer : List (Frame α)) :
    w.leave g node outer =
      if (w.leftOpen node outer).lowOf node = (w.leftOpen node outer).indexOf node then
        (w.leftOpen node outer).closeComponent g node
      else w.leftOpen node outer := by
  cases outer with
  | nil => rfl
  | cons parent outer => rfl

theorem exists_leftOpen_eq (w : Walk α) (node : α) (outer : List (Frame α)) :
    ∃ low, w.leftOpen node outer = { w with low, work := outer } := by
  cases outer with
  | nil => exact ⟨w.low, rfl⟩
  | cons parent outer => exact ⟨_, rfl⟩

theorem exists_consume_eq (w : Walk α) (node : α) (pending : List α) :
    ∃ low, (w.consume node pending).1 = { w with low } := by
  induction pending generalizing w with
  | nil => exact ⟨w.low, rfl⟩
  | cons target rest ih =>
    unfold consume
    split
    · exact ⟨w.low, rfl⟩
    · split
      · exact ih (w.lower node (w.indexOf target))
      · exact ih w

/-- A component that closes is a cycle, or it is a single node that joins the order. -/
theorem closeComponent_cases (g : Graph α) (hstack : w.stack = above ++ root :: rest)
    (htop : root ∉ above) :
    ∃ onStack cyclic cycles order,
      w.closeComponent g root = { w with stack := rest, onStack, cyclic, cycles, order } ∧
        ((cycles = w.cycles ++ [(above ++ [root]).reverse] ∧ order = w.order) ∨
          (above = [] ∧ cycles = w.cycles ∧ order = w.order ++ [root])) := by
  unfold closeComponent
  rw [hstack, popTo_append rest htop]
  dsimp only
  split
  · exact ⟨_, _, _, _, rfl, Or.inl ⟨rfl, rfl⟩⟩
  · rename_i hlength
    obtain rfl : above = [] := by
      cases above with
      | nil => rfl
      | cons member above => simp at hlength
    split
    · exact ⟨_, _, _, _, rfl, Or.inl ⟨rfl, rfl⟩⟩
    · exact ⟨_, _, _, _, rfl, Or.inr ⟨rfl, rfl, rfl⟩⟩

/-! ### The moves -/

/-- A step with its events: it enters a target of the innermost node, it leaves this
node, or it leaves it and closes the component of which this is the first node. -/
inductive Moved (g : Graph α) (w : Walk α) : List (StackEvent α) → Walk α → Prop
  | enters {node target : α} {pending rest : List α} {outer : List (Frame α)}
      {low : Table α Nat} (work : w.work = ⟨node, pending⟩ :: outer)
      (new : target ∈ w.unvisited) (edge : g.Edge node target) :
      Moved g w [.push target] (enter g { w with low, work := ⟨node, rest⟩ :: outer } target)
  | leaves {frame : Frame α} {outer : List (Frame α)} {low : Table α Nat}
      (work : w.work = frame :: outer) : Moved g w [] { w with low, work := outer }
  | closes {frame : Frame α} {outer : List (Frame α)} {low : Table α Nat}
      {above rest : List α} (work : w.work = frame :: outer)
      (stack : w.stack = above ++ frame.node :: rest) (top : frame.node ∉ above) :
      Moved g w ((above ++ [frame.node]).map .pop)
        (closeComponent g { w with low, work := outer } frame.node)

/-- **Every step is one of the moves.** -/
theorem Invariant.moved (h : Invariant g w.work w) (hwork : w.work ≠ []) :
    Moved g w w.events (w.step g) := by
  obtain ⟨⟨node, pending⟩, outer, hw⟩ := List.exists_cons_of_ne_nil hwork
  rw [hw] at h
  have hconsume := h.consume
  obtain ⟨low, hlow⟩ := exists_consume_eq w node pending
  unfold Walk.step events
  rw [hw]
  dsimp only
  generalize w.consume node pending = result at hconsume hlow ⊢
  obtain ⟨after, _ | ⟨target, rest⟩⟩ := result
  · obtain rfl : after = { w with low } := hlow
    obtain ⟨known, hknown⟩ := exists_leftOpen_eq { w with low } node outer
    dsimp only
    rw [leave_eq, hknown]
    obtain ⟨above, rest, hstack, -⟩ := Invariant.exists_segment hconsume
    have htop : node ∉ above := Invariant.not_mem_above hconsume hstack
    split
    · have hpops : popsTo node w.stack = (above ++ [node]).map .pop := by
        rw [show w.stack = above ++ node :: rest from hstack]
        exact popsTo_append rest htop
      rw [hpops]
      exact .closes hw hstack htop
    · exact .leaves hw
  · obtain rfl : after = { w with low } := hlow
    obtain ⟨hnew, hread⟩ := hconsume
    exact .enters hw hnew (hread.edge_of_pending List.mem_cons_self)

end Walk

end DesignTokens
