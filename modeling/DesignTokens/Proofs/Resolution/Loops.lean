import DesignTokens.Proofs.Graph.Discovery
import DesignTokens.Proofs.Reference.Wording
import DesignTokens.Proofs.Resolution.Order

/-!
# The arrows of a cycle of aliases

A message that announces a cycle lists its members with arrows between them and the first one again
at the end.  The members stand in the order in which the search has found them, so an arrow need not
be an alias: `Group.arrows_of_announced_cycle` says which of them are.  They all are in a cycle that
does not branch, where no member refers to two others.

Resolution and validation announce no other cycles than those of the graph of aliases
(`Group.exists_cycle_of_announced`).
-/

namespace DesignTokens

/-! ### Plain problems -/

namespace Check

variable {c : Check} {tree : Group} {outcomes : Table String (Option ProblemKind)} {path : String}

/-- A check that has found no cycle. -/
def IsPlain (c : Check) : Prop := ∀ e ∈ c.problems, e.cause.isPlain = true

theorem IsPlain.fail (h : c.IsPlain) {cause : Cause} (hcause : cause.isPlain = true)
    (path : String) (kind : ProblemKind) (reference : Option String) :
    (c.fail path kind cause reference).IsPlain := by
  intro e he
  rcases List.mem_append.mp he with he | he
  · exact h e he
  · rw [List.mem_singleton.mp he]
    exact hcause

theorem IsPlain.followAlias (h : c.IsPlain) (named : String) :
    (followAlias tree outcomes path c named).IsPlain := by
  unfold Check.followAlias
  split
  · exact h.fail rfl _ _ _
  · exact h.fail rfl _ _ _
  · rename_i target _
    have hnoted : (noted outcomes c named target).IsPlain := by
      intro e he
      rw [noted_problems] at he
      exact h e he
    dsimp only
    split
    · exact hnoted.fail rfl _ _ _
    · exact hnoted

theorem isPlain_followed (tree : Group) (r : Resolver) (t : Token) :
    (followed tree r t).IsPlain := by
  refine List.foldlRecOn _ _ ?_ fun c h named _ => h.followAlias named
  refine List.foldlRecOn _ _ ?_ fun c h ref _ => h.fail rfl _ _ _
  refine List.foldlRecOn _ _ ?_ fun c h text _ => h.fail rfl _ _ _
  exact fun e he => absurd he List.not_mem_nil

theorem isPlain_checked (tree : Group) (r : Resolver) (t : Token) : (checked tree r t).IsPlain := by
  unfold checked
  split
  · exact (isPlain_followed tree r t).fail rfl _ _ _
  · exact isPlain_followed tree r t

end Check

namespace Pass

variable {g : Group} {p : Pass} {place : Place} {t after : Token} {c : Check}

theorem Turn.isPlain (h : p.Turn t after c) : c.IsPlain := by
  have hchecked := Check.isPlain_checked p.tree p.resolver t
  cases h with
  | plain _ _ => exact fun e he => absurd he List.not_mem_nil
  | resolved _ _ _ => exact hchecked
  | unfit _ _ hvalue =>
    refine hchecked.fail ?_ _ _ _
    exact Value.failsOnly_substitute p.tree.meaning_isPlain
      (fun _ x _ => x.textForm_isPlain) _ _ hvalue
  | failed _ _ => exact hchecked

/-- The problems of a pass are about the cycles of a tree, or they are plain. -/
def Announces (g : Group) (p : Pass) : Prop :=
  ∀ e ∈ p.problems, (∃ cycle ∈ g.aliasCycles.cycles, e.cause = .cycle cycle) ∨
    e.cause.isPlain = true

theorem Announces.failMember (h : p.Announces g) {cycle : List String}
    (hcycle : cycle ∈ g.aliasCycles.cycles) (member : String) :
    (p.failMember cycle member).Announces g := by
  unfold Pass.failMember
  split
  · exact h
  · intro e he
    rcases List.mem_append.mp he with he | he
    · exact h e he
    · rw [List.mem_singleton.mp he]
      exact Or.inl ⟨cycle, hcycle, rfl⟩

theorem Announces.resolveToken (h : p.Announces g) (place : Place) :
    (p.resolveToken place).Announces g := by
  refine resolveToken_cases h (fun fault hhalts _ => ?_) fun t after c _ hadvance _ hturn => ?_
  · unfold Announces
    rw [hhalts.problems]
    exact h
  · intro e he
    rw [hadvance.problems] at he
    rcases List.mem_append.mp he with he | he
    · exact h e he
    · exact Or.inr (hturn.isPlain e he)

end Pass

namespace Group

variable {g : Group} {problems : List Problem} {e : Problem}

/-! ### Announced cycles -/

/-- What resolution and validation announce are cycles of the tree. -/
theorem exists_cycle_of_announced
    (hproblems : (∃ r : Resolver, (r.resolve g).2.2 = .ok problems) ∨
      ∃ project file, g.validate project file = .ok problems)
    (he : e ∈ problems) (hannounced : AnnouncesCycle e.message) :
    ∃ cycle ∈ g.aliasCycles.cycles, e.cause = .cycle cycle := by
  have hcases : (∃ cycle ∈ g.aliasCycles.cycles, e.cause = .cycle cycle) ∨
      e.cause.isPlain = true := by
    rcases hproblems with ⟨r, hresolve⟩ | ⟨project, file, hvalidate⟩
    · obtain ⟨-, rfl⟩ := Pass.outcome_eq_ok.mp hresolve
      have hpass : (r.pass g).Announces g :=
        Resolver.pass_induction (I := Pass.Announces g) (fun e he => absurd he List.not_mem_nil)
          (fun p cycle hcycle member h => h.failMember hcycle member)
          fun p place h => h.resolveToken place
      exact hpass e he
    · rcases (mem_validate_iff hvalidate).mp he with ⟨t, -, hwrong⟩ | ⟨cycle, hcycle, _, _, _, rfl⟩
      · exact Or.inr hwrong.isPlain
      · exact Or.inl ⟨cycle, hcycle, rfl⟩
  exact hcases.resolve_right fun hplain => Cause.not_announces_of_isPlain hplain hannounced

/-- **Which arrows of an announced cycle are aliases.**  The members lead to one another, and each
but the first is the target of a member before it.  The arrow from a member to the next one is an
alias if and only if the member refers to any member behind it.  Where no member refers to two of
them, every arrow is an alias, and so is the one back to the first. -/
theorem arrows_of_announced_cycle
    (hproblems : (∃ r : Resolver, (r.resolve g).2.2 = .ok problems) ∨
      ∃ project file, g.validate project file = .ok problems)
    (he : e ∈ problems) (hannounced : AnnouncesCycle e.message) :
    let members := e.cause.members
    e.message = "Circular reference detected: " ++
        Text.joinWith " -> " (members ++ members.take 1) ∧
      g.aliasGraph.IsCycle members ∧
      (∀ x y, g.aliasGraph.Edge x y → ∃ t ∈ g.tokens, t.path = x ∧ y ∈ t.references) ∧
      (∀ before y after, members = before ++ y :: after → before ≠ [] →
        ∃ x ∈ before, g.aliasGraph.Edge x y) ∧
      (∀ before x y after, members = before ++ x :: y :: after →
        (g.aliasGraph.Edge x y ↔ ∃ z ∈ y :: after, g.aliasGraph.Edge x z)) ∧
      ((∀ x ∈ members, ∀ y ∈ members, ∀ z ∈ members,
          g.aliasGraph.Edge x y → g.aliasGraph.Edge x z → y = z) →
        List.IsChain (fun x y => ∃ t ∈ g.tokens, t.path = x ∧ y ∈ t.references)
          (members ++ members.take 1)) := by
  obtain ⟨cycle, hcycle, hcause⟩ := exists_cycle_of_announced hproblems he hannounced
  have hdiscovered := Graph.cycles_discovered hcycle
  have hisCycle := Graph.cycles_isCycle hcycle
  rw [Problem.message, hcause]
  refine ⟨rfl, hisCycle, fun x y => exists_token_of_edge, hdiscovered.called, ?_, fun hsingle => ?_⟩
  · intro before x y after hsplit
    exact ⟨fun hedge => ⟨y, List.mem_cons_self, hedge⟩, hdiscovered.next before x y after hsplit⟩
  · exact (hdiscovered.isChain_of_single hisCycle hsingle).imp fun _ _ => exists_token_of_edge

theorem exists_problem {outcome : Except NumeralFault (List Problem)} {P : Problem → Prop}
    [DecidablePred P] (h : (outcome.toOption.any fun problems => problems.any (P ·)) = true) :
    ∃ problems, outcome = .ok problems ∧ ∃ e ∈ problems, P e := by
  cases outcome with
  | error fault => cases h
  | ok problems =>
    obtain ⟨e, he, hP⟩ := List.any_eq_true.mp h
    exact ⟨problems, rfl, e, he, of_decide_eq_true hP⟩

/-- Three aliases around. -/
def ring : Value :=
  let token := fun s => Value.object [(valueKey, .text s)]
  .object [("a", token "\x7bb\x7d"), ("b", token "\x7bc\x7d"), ("c", token "\x7ba\x7d")]

theorem arrows_of_announced_cycle_ring :
    ∃ problems, ((Resolver.start 10).resolve (build ring)).2.2 = .ok problems ∧
      ∃ e ∈ problems, e.message = "Circular reference detected: a -> b -> c -> a" ∧
        (build ring).aliasGraph.IsCycle ["a", "b", "c"] ∧
        List.IsChain (fun x y => ∃ t ∈ (build ring).tokens, t.path = x ∧ y ∈ t.references)
          ["a", "b", "c", "a"] := by
  obtain ⟨problems, hproblems, e, he, hmessage, hmembers⟩ :
      ∃ problems, ((Resolver.start 10).resolve (build ring)).2.2 = .ok problems ∧
        ∃ e ∈ problems, e.message = "Circular reference detected: a -> b -> c -> a" ∧
          e.cause.members = ["a", "b", "c"] := exists_problem (by decide +kernel)
  obtain ⟨-, hcycle, -, -, -, hchain⟩ := arrows_of_announced_cycle
    (Or.inl ⟨Resolver.start 10, hproblems⟩) he (by rw [hmessage]; decide)
  rw [hmembers] at hcycle hchain
  refine ⟨problems, hproblems, e, he, hmessage, hcycle, hchain ?_⟩
  unfold Graph.Edge
  decide +kernel

/-- A cycle of three aliases with a fourth one across it. -/
def chord : Value :=
  let token := fun s => Value.object [(valueKey, .text s)]
  .object
    [("a", token "\x7bc\x7d \x7bb\x7d"), ("b", token "\x7bc\x7d"), ("c", token "\x7ba\x7d")]

/-- Neither does `c` refer to `b` nor `b` to `a`. -/
theorem not_aliases_of_chord :
    (∃ problems, ((Resolver.start 10).resolve (build chord)).2.2 = .ok problems ∧
        ∃ e ∈ problems, e.message = "Circular reference detected: a -> c -> b -> a") ∧
      (∃ problems, (build chord).validate none none = .ok problems ∧
        ∃ e ∈ problems, e.message = "Circular reference detected: a -> c -> b -> a") ∧
      ∀ t ∈ (build chord).tokens,
        (t.path = "c" → "b" ∉ t.references) ∧ (t.path = "b" → "a" ∉ t.references) := by
  have hvalidate : ∃ problems, (build chord).validate none none = .ok problems :=
    exists_validate (by decide +kernel) none none
  refine ⟨exists_problem (by decide +kernel), ?_, by decide +kernel⟩
  obtain ⟨problems, hproblems⟩ := hvalidate
  refine ⟨problems, hproblems, ⟨.circular, "a", .cycle ["a", "c", "b"], _, none⟩,
    (mem_validate_iff hproblems).mpr (Or.inr ⟨["a", "c", "b"], by decide +kernel, "a",
      List.mem_cons_self, by decide +kernel, rfl⟩), ?_⟩
  decide

end Group

end DesignTokens
