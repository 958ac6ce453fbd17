import DesignTokens.Table

/-! # Cycles and a topological order of a directed graph

`Graph.findCycles` walks a graph depth first with an explicit stack of half-read target lists and
closes each strongly connected component when the walk leaves its first node.  A component of
several nodes, or of one node with an edge to itself, is a cycle.  Components close in reverse
topological order, so the closed single nodes already stand dependencies first.

Main statement: `Walk.step_weight_lt` — every step of the walk makes its weight smaller, because it
either visits a node or leaves one.
-/

namespace DesignTokens

/-- A directed graph: each source with its targets, in order. -/
abbrev Graph (α : Type) := Table α (List α)

/-- What a search for cycles found. -/
structure CycleReport (α : Type) where
  cycles : List (List α)
  cyclic : List α
  /-- All nodes, each after its targets; nothing if there is a cycle. -/
  order : Option (List α)
  deriving Repr, Inhabited

def CycleReport.hasCycles {α : Type} (r : CycleReport α) : Bool := !r.cycles.isEmpty

namespace Graph

variable {α : Type} [DecidableEq α]

def targets (g : Graph α) (node : α) : List α := (g.get? node).getD []

/-- Every source and every target once, in the order of first occurrence. -/
def nodes (g : Graph α) : List α := (g.flatMap fun p => p.1 :: p.2).eraseDups

end Graph

/-- A node whose targets are being read, with those that are left. -/
structure Frame (α : Type) where
  node : α
  pending : List α
  deriving Repr

/-- The state of a depth-first walk.  Stacks have their top first. -/
structure Walk (α : Type) where
  unvisited : List α
  /-- The discovery number of each visited node. -/
  index : Table α Nat
  /-- The least discovery number that each visited node is known to reach. -/
  low : Table α Nat
  clock : Nat
  /-- The visited nodes whose component is still open. -/
  stack : List α
  onStack : List α
  work : List (Frame α)
  cycles : List (List α)
  cyclic : List α
  order : List α
  deriving Repr

namespace Walk

variable {α : Type} [DecidableEq α]

/-- The state before any node is visited. -/
def start (nodes : List α) : Walk α where
  unvisited := nodes
  index := []
  low := []
  clock := 0
  stack := []
  onStack := []
  work := []
  cycles := []
  cyclic := []
  order := []

/-- The discovery number of a node. -/
def indexOf (w : Walk α) (node : α) : Nat := (w.index.get? node).getD 0

/-- The least discovery number that a node is known to reach. -/
def lowOf (w : Walk α) (node : α) : Nat := (w.low.get? node).getD 0

/-- A node learns that it reaches a discovery number. -/
def lower (w : Walk α) (node : α) (n : Nat) : Walk α :=
  { w with low := w.low.put node (min (w.lowOf node) n) }

/-- Visits a node. -/
def enter (g : Graph α) (w : Walk α) (node : α) : Walk α :=
  { w with
    unvisited := w.unvisited.erase node
    index := w.index.put node w.clock
    low := w.low.put node w.clock
    clock := w.clock + 1
    stack := node :: w.stack
    onStack := node :: w.onStack
    work := ⟨node, g.targets node⟩ :: w.work }

/-- The top of a stack down to a node, and the rest. -/
def popTo (root : α) : List α → List α × List α
  | [] => ([], [])
  | member :: rest =>
    if member = root then ([member], rest)
    else ((member :: (popTo root rest).1), (popTo root rest).2)

/-- Closes the component of its first node. -/
def closeComponent (g : Graph α) (w : Walk α) (root : α) : Walk α :=
  let (popped, rest) := popTo root w.stack
  let component := popped.reverse
  let w := { w with stack := rest, onStack := w.onStack.filter fun v => !popped.contains v }
  if component.length > 1 then
    { w with cycles := w.cycles ++ [component], cyclic := w.cyclic ++ component }
  else if root ∈ g.targets root then
    { w with cycles := w.cycles ++ [[root]], cyclic := w.cyclic ++ [root] }
  else { w with order := w.order ++ [root] }

/-- Reads targets of a node up to the first that is not visited.  A target whose component is still
open lowers the node. -/
def consume (w : Walk α) (node : α) : List α → Walk α × Option (α × List α)
  | [] => (w, none)
  | target :: rest =>
    if target ∈ w.unvisited then (w, some (target, rest))
    else if target ∈ w.onStack then consume (w.lower node (w.indexOf target)) node rest
    else consume w node rest

/-- Leaves a node: the node before it learns what it reaches, and if it reaches nothing older its
component is closed. -/
def leave (g : Graph α) (w : Walk α) (node : α) (outer : List (Frame α)) : Walk α :=
  let w := { w with work := outer }
  let w :=
    match outer with
    | [] => w
    | parent :: _ => w.lower parent.node (w.lowOf node)
  if w.lowOf node = w.indexOf node then w.closeComponent g node else w

/-- One step of the walk: on to the next unvisited target of the innermost node, or out of it. -/
def step (g : Graph α) (w : Walk α) : Walk α :=
  match w.work with
  | [] => w
  | frame :: outer =>
    match w.consume frame.node frame.pending with
    | (w, some (target, rest)) => enter g { w with work := ⟨frame.node, rest⟩ :: outer } target
    | (w, none) => w.leave g frame.node outer

/-- Twice the nodes to visit and once the nodes to leave. -/
def weight (w : Walk α) : Nat := 2 * w.unvisited.length + w.work.length

@[simp] theorem lower_unvisited (w : Walk α) (node : α) (n : Nat) :
    (w.lower node n).unvisited = w.unvisited := rfl

@[simp] theorem lower_work (w : Walk α) (node : α) (n : Nat) :
    (w.lower node n).work = w.work := rfl

@[simp] theorem closeComponent_unvisited (g : Graph α) (w : Walk α) (root : α) :
    (w.closeComponent g root).unvisited = w.unvisited := by
  simp only [closeComponent]
  split
  · rfl
  · split <;> rfl

@[simp] theorem closeComponent_work (g : Graph α) (w : Walk α) (root : α) :
    (w.closeComponent g root).work = w.work := by
  simp only [closeComponent]
  split
  · rfl
  · split <;> rfl

@[simp] theorem leave_unvisited (g : Graph α) (w : Walk α) (node : α) (outer : List (Frame α)) :
    (w.leave g node outer).unvisited = w.unvisited := by
  cases outer <;> simp only [leave] <;> split <;> simp

@[simp] theorem leave_work (g : Graph α) (w : Walk α) (node : α) (outer : List (Frame α)) :
    (w.leave g node outer).work = outer := by
  cases outer <;> simp only [leave] <;> split <;> simp

theorem consume_unvisited (w : Walk α) (node : α) (pending : List α) :
    (w.consume node pending).1.unvisited = w.unvisited := by
  induction pending generalizing w with
  | nil => rfl
  | cons target rest ih =>
    simp only [consume]
    split
    · rfl
    · split <;> simp [ih]

theorem mem_unvisited_of_consume {w : Walk α} {node : α} {pending : List α} {target : α}
    {rest : List α} (h : (w.consume node pending).2 = some (target, rest)) :
    target ∈ w.unvisited := by
  induction pending generalizing w with
  | nil => simp [consume] at h
  | cons first others ih =>
    simp only [consume] at h
    split at h
    case isTrue hf =>
      simp only [Option.some.injEq, Prod.mk.injEq] at h
      exact h.1 ▸ hf
    case isFalse hf =>
      split at h
      · simpa using ih h
      · exact ih h

/-- Every step visits a node or leaves one. -/
theorem step_weight_lt (g : Graph α) (w : Walk α) (h : w.work ≠ []) :
    (w.step g).weight < w.weight := by
  obtain ⟨frame, outer, hw⟩ : ∃ frame outer, w.work = frame :: outer :=
    List.exists_cons_of_ne_nil h
  have hu := consume_unvisited w frame.node frame.pending
  have hm := @mem_unvisited_of_consume _ _ w frame.node frame.pending
  simp only [step, hw]
  split
  case h_1 after target rest hc =>
    rw [hc] at hu hm
    have hmem : target ∈ w.unvisited := hm rfl
    have hlen := List.length_erase_of_mem hmem
    have hpos := List.length_pos_of_mem hmem
    simp only at hu
    simp only [weight, enter, hu, hlen, hw, List.length_cons]
    omega
  case h_2 after hc =>
    rw [hc] at hu
    simp only at hu
    simp [weight, hu, hw]

/-- Walks until every node that was entered is left again. -/
def run (g : Graph α) (w : Walk α) : Walk α :=
  if _h : w.work = [] then w else run g (w.step g)
termination_by w.weight
decreasing_by exact step_weight_lt g w _h

def visit (g : Graph α) (w : Walk α) (node : α) : Walk α :=
  if node ∈ w.unvisited then (w.enter g node).run g else w

end Walk

namespace Graph

variable {α : Type} [DecidableEq α]

/-- The cycles of a graph, and a topological order if it has none. -/
def findCycles (g : Graph α) : CycleReport α :=
  let w := g.nodes.foldl (Walk.visit g) (Walk.start g.nodes)
  { cycles := w.cycles
    cyclic := w.cyclic
    order := if w.cycles.isEmpty then some w.order else none }

end Graph

end DesignTokens
