import DesignTokens.Proofs.Assembly.Expansion
import Mathlib.Data.List.Perm.Subperm

/-!
# Chains of hops

A token makes a hop to each token at which one of its outermost pointers aims.  The limit
of an assembly is met by hops that are made one inside the other: it concerns a chain of
hops that leads down from a token whose turn has come, through tokens that have not had
theirs (`Project.Descends`).  Tokens that stand before the first one of the chain are
finished by then, and the chain ends there.

`Project.Endangered` are the tokens that such a chain can cut off, directly or through a
token to which they lead.  There are none where no chain of hops is longer than the limit
allows (`Project.Endangered.hasChain`), and none where every token stands behind those at
which it aims (`Project.Endangered.exists_leads`).
-/

namespace DesignTokens.Project

/-- A chain of some number of hops begins at a token. -/
def HasChain (p : Project) : Nat → String × Place → Prop
  | 0, _ => True
  | n + 1, x => ∃ y, p.Leads x y ∧ p.HasChain n y

/-- A token stands before another one of its file. -/
def Precedes (p : Project) (x y : String × Place) : Prop :=
  x.1 = y.1 ∧ ∃ tree, p.tree? y.1 = some tree ∧
    (tree.placedTokens.map Prod.fst).idxOf x.2 < (tree.placedTokens.map Prod.fst).idxOf y.2

/-- Some number of hops leads down from a first token to another one, and no token after the
first one stands before it. -/
def Descends (p : Project) (first : String × Place) : Nat → String × Place → Prop
  | 0, x => x = first
  | n + 1, y => (∃ x, p.Descends first n x ∧ p.Leads x y) ∧ ¬ p.Precedes y first

/-- As many hops as a limit allows lead down to a token from a token of a file, and it makes
one hop more. -/
def OutOfReach (p : Project) (file : String) (limit : Int) (x : String × Place) : Prop :=
  (∃ place, p.Descends (file, place) (Assembly.hopsWithin limit) x) ∧ ∃ y, p.Leads x y

/-- A token that leads to one out of reach, or is out of reach itself. -/
def Endangered (p : Project) (file : String) (limit : Int) (x : String × Place) : Prop :=
  ∃ y, Relation.ReflTransGen p.Leads x y ∧ p.OutOfReach file limit y

variable {p : Project} {file : String} {limit : Int} {first x y : String × Place} {m n : Nat}

theorem Descends.hasChain (h : p.Descends first n x) (hx : p.HasChain m x) :
    p.HasChain (n + m) first := by
  induction n generalizing x m with
  | zero =>
    obtain rfl : x = first := h
    rwa [Nat.zero_add]
  | succ n ih =>
    obtain ⟨⟨y, hy, hedge⟩, -⟩ := h
    have hchain : p.HasChain (n + (m + 1)) first := ih hy ⟨x, hedge, hx⟩
    rwa [show n + 1 + m = n + (m + 1) by omega]

theorem Descends.exists_leads (h : p.Descends first (n + 1) x) :
    ∃ y, p.Leads first y ∧ ¬ p.Precedes y first := by
  induction n generalizing x with
  | zero =>
    obtain ⟨⟨y, hy, hedge⟩, hbehind⟩ := h
    obtain rfl : y = first := hy
    exact ⟨x, hedge, hbehind⟩
  | succ n ih =>
    obtain ⟨⟨y, hy, -⟩, -⟩ := h
    exact ih hy

/-- Where hops form no cycle, the tokens on a chain are different. -/
theorem HasChain.exists_nodup (hacyclic : ∀ x, ¬ Relation.TransGen p.Leads x x)
    (h : p.HasChain n x) :
    ∃ ys : List (String × Place), ys.length = n ∧ ys.Nodup ∧
      ∀ y ∈ ys, Relation.TransGen p.Leads x y := by
  induction n generalizing x with
  | zero => exact ⟨[], rfl, List.nodup_nil, fun _ hy => absurd hy List.not_mem_nil⟩
  | succ n ih =>
    obtain ⟨y, hedge, hrest⟩ := h
    obtain ⟨ys, hlength, hnodup, hall⟩ := ih hrest
    refine ⟨y :: ys, congrArg (· + 1) hlength, List.nodup_cons.mpr ⟨?_, hnodup⟩, ?_⟩
    · exact fun hmem => hacyclic y (hall y hmem)
    · refine List.forall_mem_cons.mpr ⟨.single hedge, fun z hz => .head hedge (hall z hz)⟩

theorem HasChain.length_le (hacyclic : ∀ x, ¬ Relation.TransGen p.Leads x x)
    {keys : List (String × Place)} (hkeys : ∀ x y, p.Leads x y → y ∈ keys) (h : p.HasChain n x) :
    n ≤ keys.length := by
  obtain ⟨ys, rfl, hnodup, hall⟩ := h.exists_nodup hacyclic
  refine (List.subperm_of_subset hnodup fun y hy => ?_).length_le
  obtain ⟨z, -, hedge⟩ := Relation.TransGen.tail'_iff.mp (hall y hy)
  exact hkeys z y hedge

theorem Endangered.head (hedge : p.Leads x y) (h : p.Endangered file limit y) :
    p.Endangered file limit x := by
  obtain ⟨z, hpath, hz⟩ := h
  exact ⟨z, .head hedge hpath, hz⟩

theorem Endangered.hasChain (h : p.Endangered file limit x) :
    ∃ place, p.HasChain (Assembly.hopsWithin limit + 1) (file, place) := by
  obtain ⟨y, -, ⟨place, hdescent⟩, z, hedge⟩ := h
  exact ⟨place, hdescent.hasChain ⟨z, hedge, trivial⟩⟩

/-- Only a pointer to a token that stands behind puts a token in danger, if the limit allows
anything at all. -/
theorem Endangered.exists_leads (hlimit : 0 ≤ limit) (h : p.Endangered file limit x) :
    ∃ place y, p.Leads (file, place) y ∧ ¬ p.Precedes y (file, place) := by
  obtain ⟨y, -, ⟨place, hdescent⟩, -⟩ := h
  have hhops : Assembly.hopsWithin limit = limit.toNat + 1 := by
    unfold Assembly.hopsWithin
    omega
  rw [hhops] at hdescent
  exact ⟨place, hdescent.exists_leads⟩

end DesignTokens.Project
