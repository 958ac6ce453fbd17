import DesignTokens.Proofs.Token.Places
import Mathlib.Logic.Function.Iterate

/-!
# Going through a tree one node after the other

A tour keeps a stack of open groups with the members that are still ahead in each of them.  One turn
takes the next member of the innermost group and opens it if it is a group, or leaves the group if
nothing is left in it.  What was passed and what is to come make up the same list all the time
(`passed_append_coming_turn`), and every turn brings the end nearer (`weight_turn_lt`), so a tour
ends and has then passed the nodes of the tree in the order of their list (`exists_turns`).
-/

namespace DesignTokens

namespace Node

/-- The nodes below a node: each group before its members. -/
def inside (n : Node) : List Node := (n.under []).map Prod.snd

def whole (n : Node) : List Node := n :: n.inside

theorem map_snd_underChildren {children : List (String × Node)}
    (h : ∀ p ∈ children, ∀ here, (p.2.under here).map Prod.snd = p.2.inside) (here : Place) :
    (underChildren here children).map Prod.snd = (children.map Prod.snd).flatMap whole := by
  induction children with
  | nil => rfl
  | cons p children ih =>
    obtain ⟨hp, hchildren⟩ := List.forall_mem_cons.mp h
    rw [underChildren, List.map_append, List.map_cons, hp, ih hchildren]
    rfl

theorem map_snd_under (n : Node) (here : Place) : (n.under here).map Prod.snd = n.inside := by
  induction n using inductionOn generalizing here with
  | token t => rfl
  | group label children ih =>
    unfold inside
    rw [under, under, map_snd_underChildren ih, map_snd_underChildren ih]

theorem inside_group (label : Label) (children : List (String × Node)) :
    (group label children).inside = (children.map Prod.snd).flatMap whole := by
  unfold inside
  rw [under]
  exact map_snd_underChildren (fun p _ => map_snd_under p.2) []

end Node

/-- A tour of a tree: the members that are still ahead in each open group, the innermost group
first, and the nodes that were passed. -/
structure Tour where
  ahead : List (List Node)
  passed : List Node

namespace Tour

/-- A tour that has to begin. -/
def start (g : Group) : Tour := ⟨[g.children.map Prod.snd], []⟩

/-- The next node is passed, and opened if it is a group; or the innermost group is left. -/
def turn (t : Tour) : Tour :=
  match t.ahead with
  | [] => t
  | [] :: outer => ⟨outer, t.passed⟩
  | (.token token :: later) :: outer => ⟨later :: outer, t.passed ++ [.token token]⟩
  | (.group label children :: later) :: outer =>
    ⟨children.map Prod.snd :: later :: outer, t.passed ++ [.group label children]⟩

def coming (t : Tour) : List Node := t.ahead.flatten.flatMap Node.whole

/-- How far it is to the end. -/
def weight (t : Tour) : Nat := 2 * t.coming.length + t.ahead.length

/-- A turn leaves a group, or passes the first node that is to come. -/
theorem turn_cases (t : Tour) (h : t.ahead ≠ []) :
    (t.turn.passed = t.passed ∧ t.turn.coming = t.coming ∧
      t.turn.ahead.length + 1 = t.ahead.length) ∨
    ∃ n, t.turn.passed = t.passed ++ [n] ∧ t.coming = n :: t.turn.coming ∧
      t.turn.ahead.length ≤ t.ahead.length + 1 := by
  obtain ⟨ahead, passed⟩ := t
  cases ahead with
  | nil => exact absurd rfl h
  | cons members outer =>
    cases members with
    | nil => exact Or.inl ⟨rfl, rfl, rfl⟩
    | cons n later =>
      cases n with
      | token token => exact Or.inr ⟨.token token, rfl, rfl, Nat.le_succ _⟩
      | group label children =>
        refine Or.inr ⟨.group label children, rfl, ?_, Nat.le_refl _⟩
        unfold coming turn
        simp [Node.whole, Node.inside_group]

theorem passed_append_coming_turn (t : Tour) :
    t.turn.passed ++ t.turn.coming = t.passed ++ t.coming := by
  by_cases h : t.ahead = []
  · unfold turn
    rw [h]
  · rcases t.turn_cases h with ⟨hpassed, hcoming, -⟩ | ⟨n, hpassed, hcoming, -⟩
    · rw [hpassed, hcoming]
    · rw [hpassed, hcoming, List.append_assoc]
      rfl

theorem weight_turn_lt (t : Tour) (h : t.ahead ≠ []) : t.turn.weight < t.weight := by
  unfold weight
  rcases t.turn_cases h with ⟨-, hcoming, hlength⟩ | ⟨n, -, hcoming, hlength⟩
  · rw [hcoming]
    omega
  · rw [hcoming, List.length_cons]
    omega

theorem exists_turns (t : Tour) : ∃ turns, turn^[turns] t = ⟨[], t.passed ++ t.coming⟩ := by
  induction hweight : t.weight using Nat.strongRecOn generalizing t with
  | ind weight ih =>
    by_cases h : t.ahead = []
    · refine ⟨0, ?_⟩
      obtain ⟨ahead, passed⟩ := t
      obtain rfl : ahead = [] := h
      exact congrArg (Tour.mk []) (List.append_nil passed).symm
    · obtain ⟨turns, hturns⟩ := ih t.turn.weight (hweight ▸ t.weight_turn_lt h) t.turn rfl
      refine ⟨turns + 1, ?_⟩
      rw [Function.iterate_succ_apply, hturns, passed_append_coming_turn]

theorem exists_turns_start (g : Group) : ∃ turns, turn^[turns] (start g) = ⟨[], g.nodes⟩ := by
  obtain ⟨turns, hturns⟩ := (start g).exists_turns
  refine ⟨turns, hturns.trans (congrArg (Tour.mk []) ?_)⟩
  show [g.children.map Prod.snd].flatten.flatMap Node.whole = g.toNode.inside
  rw [Group.toNode, Node.inside_group, List.flatten_singleton]

end Tour

end DesignTokens
