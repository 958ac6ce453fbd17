import DesignTokens.Token.Build

/-! # Chains of aliases

The chain of a token is the token and every token that it refers to, directly or through others.
Texts that no token refers to can never join a chain, so the walk keeps the references that have
not joined yet, and each step either joins some of them or finishes a member.
-/

namespace DesignTokens

namespace Chain

/-- Moves those references that have not joined yet to the end of a queue. -/
def joinAll : (refs queue waiting : List String) → List String × List String
  | [], queue, waiting => (queue, waiting)
  | ref :: refs, queue, waiting =>
    if ref ∈ waiting then joinAll refs (queue ++ [ref]) (waiting.erase ref)
    else joinAll refs queue waiting

theorem joinAll_length (refs queue waiting : List String) :
    (joinAll refs queue waiting).1.length + (joinAll refs queue waiting).2.length =
      queue.length + waiting.length := by
  induction refs generalizing queue waiting with
  | nil => rfl
  | cons ref refs ih =>
    simp only [joinAll]
    split
    · rename_i h
      have hpos := List.length_pos_of_mem h
      rw [ih, List.length_append, List.length_erase_of_mem h]
      simp only [List.length_cons, List.length_nil]
      omega
    · exact ih queue waiting

/-- The members of a chain from a queue on. -/
def walk (references : String → List String) (queue waiting : List String) : List String :=
  match queue with
  | [] => []
  | path :: queue =>
    path :: walk references (joinAll (references path) queue waiting).1
      (joinAll (references path) queue waiting).2
termination_by queue.length + waiting.length
decreasing_by
  rw [joinAll_length]
  simp only [List.length_cons]
  omega

end Chain

namespace Group

def referencesOf (g : Group) (path : String) : List String :=
  ((g.findToken? path).map Token.references).getD []

/-- A path and every path that it refers to, directly or through other tokens, in the order of a
walk in breadth. -/
def chain (g : Group) (path : String) : List String :=
  let all := (g.tokens.flatMap Token.references).eraseDups
  Chain.walk g.referencesOf [path] (all.filter (· ≠ path))

end Group

end DesignTokens
