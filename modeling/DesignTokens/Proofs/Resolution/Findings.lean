import DesignTokens.Proofs.Resolution.Order

/-!
# What is found wrong with a token

A finding is the kind of a problem and the reference that it is about.  `Group.Ends` says without
any order of work what a resolution finds wrong with a token: a member of a cycle is circular, and
any other token has what is malformed in it, its pointers, and each alias whose target is missing or
has findings of its own; if there is nothing of that kind, it may still lie too deep, or its value
may not be put together.  The findings are unique (`Ends.unique`).

The check of a token finds just that, once its targets have their outcomes
(`Check.findings_followed`), and its failure is the kind of its first finding (`Check.Headed`).
-/

namespace DesignTokens

/-- The kind of a problem and the reference that it is about. -/
abbrev Finding := ProblemKind × Option String

def Problem.finding (e : Problem) : Finding := (e.kind, e.reference)

/-- The kind of failure that some findings amount to: the first one counts. -/
def failureOf (found : List Finding) : Option ProblemKind := found.head?.map Prod.fst

/-! ### The check of a token -/

namespace Check

variable {c : Check} {path : String} {tree : Group} {outcomes : Table String (Option ProblemKind)}
  {r : Resolver} {t : Token}

def findings (c : Check) : List Finding := c.problems.map Problem.finding

theorem findings_fail (c : Check) (path : String) (kind : ProblemKind) (cause : Cause)
    (reference : Option String) :
    (c.fail path kind cause reference).findings = c.findings ++ [(kind, reference)] :=
  List.map_append

/-- A check whose failure is the kind of its first finding. -/
def Headed (c : Check) : Prop := c.failure = failureOf c.findings

theorem Headed.fail (h : c.Headed) (path : String) (kind : ProblemKind) (cause : Cause)
    (reference : Option String) : (c.fail path kind cause reference).Headed := by
  unfold Headed at h ⊢
  rw [findings_fail]
  show c.failure.or (some kind) = _
  rw [h]
  cases c.findings with
  | nil => rfl
  | cons first rest => rfl

theorem Headed.foldl {α : Type} {step : Check → α → Check}
    (hstep : ∀ c a, c.Headed → (step c a).Headed) (h : c.Headed) (l : List α) :
    (l.foldl step c).Headed :=
  List.foldlRecOn _ _ h fun c h a _ => hstep c a h

theorem findings_foldl {α : Type} {step : Check → α → Check} {found : α → List Finding}
    (hstep : ∀ c a, (step c a).findings = c.findings ++ found a) (l : List α) :
    (l.foldl step c).findings = c.findings ++ l.flatMap found := by
  induction l generalizing c with
  | nil => exact (List.append_nil _).symm
  | cons a l ih => rw [List.foldl_cons, ih, hstep, List.append_assoc, List.flatMap_cons]

/-- What is found wrong with an alias. -/
def aliasFinding? (tree : Group) (outcomes : Table String (Option ProblemKind)) (named : String) :
    Option Finding :=
  match tree.findToken? named with
  | none => some (.missing, some (Alias.ofPath named))
  | some target =>
    (outcomeOf outcomes named target).map fun kind => (kind, some (Alias.ofPath named))

theorem noted_findings (named : String) (target : Token) :
    (noted outcomes c named target).findings = c.findings :=
  congrArg (List.map Problem.finding) (noted_problems named target)

theorem findings_followAlias (c : Check) (named : String) :
    (followAlias tree outcomes path c named).findings =
      c.findings ++ (aliasFinding? tree outcomes named).toList := by
  unfold aliasFinding?
  cases hf : tree.findToken? named with
  | none =>
    unfold Group.findToken? at hf
    unfold followAlias
    cases hn : tree.find? named with
    | none => exact findings_fail _ _ _ _ _
    | some n =>
      rw [hn] at hf
      cases n with
      | token t => cases hf
      | group label children => exact findings_fail _ _ _ _ _
  | some target =>
    rw [followAlias_of_some hf]
    dsimp only
    cases outcomeOf outcomes named target with
    | none => exact (noted_findings named target).trans (List.append_nil _).symm
    | some kind =>
      dsimp only
      rw [findings_fail, noted_findings]
      rfl

theorem Headed.followAlias (h : c.Headed) (named : String) :
    (followAlias tree outcomes path c named).Headed := by
  cases hf : tree.findToken? named with
  | none =>
    obtain ⟨cause, reference, he⟩ := followAlias_of_none hf
    rw [he]
    exact h.fail _ _ _ _
  | some target =>
    have hnoted : (noted outcomes c named target).Headed := by
      unfold Headed
      rw [noted_failure, noted_findings]
      exact h
    rw [followAlias_of_some hf]
    cases outcomeOf outcomes named target with
    | none => exact hnoted
    | some kind => exact hnoted.fail _ _ _ _

theorem findings_followed (tree : Group) (r : Resolver) (t : Token) :
    (followed tree r t).findings =
      t.malformed.map (fun s => (.invalid, some s)) ++
        t.pointers.map (fun ref => (.missing, some ref)) ++
          t.references.filterMap (aliasFinding? tree r.outcomes) := by
  have hpointer : ∀ c ref, (pointer t.path c ref).findings = c.findings ++ [(.missing, some ref)] :=
    fun c _ => findings_fail c _ _ _ _
  have hmalformed : ∀ c s, (malformed t.path c s).findings = c.findings ++ [(.invalid, some s)] :=
    fun c _ => findings_fail c _ _ _ _
  unfold followed
  rw [findings_foldl findings_followAlias, findings_foldl hpointer, findings_foldl hmalformed,
    List.filterMap_eq_flatMap_toList, List.map_eq_flatMap, List.map_eq_flatMap]
  rfl

theorem headed_followed (tree : Group) (r : Resolver) (t : Token) : (followed tree r t).Headed := by
  refine Headed.foldl (fun c named h => h.followAlias named) ?_ _
  refine Headed.foldl (fun c ref h => h.fail _ _ _ _) ?_ _
  refine Headed.foldl (fun c s h => h.fail _ _ _ _) ?_ _
  exact rfl

theorem headed_checked (tree : Group) (r : Resolver) (t : Token) : (checked tree r t).Headed := by
  unfold checked
  split
  · exact (headed_followed tree r t).fail _ _ _ _
  · exact headed_followed tree r t

theorem Reports.findings_eq_nil_iff (h : c.Reports path) : c.findings = [] ↔ c.failure = none := by
  unfold findings
  rw [List.map_eq_nil_iff, h.failure_iff]

theorem findings_checked_of_deep (h : (followed tree r t).failure = none)
    (hdeep : r.maxDepth < ((followed tree r t).depth : Int)) :
    (checked tree r t).findings = [(.depth, none)] := by
  have hnone := (followed_reports tree r t).findings_eq_nil_iff.mpr h
  rw [checked_of_deep h hdeep, findings_fail, hnone]
  rfl

end Check

/-! ### Findings without any order of work -/

namespace Group

variable {g : Group} {limit : Int} {t : Token}

/-- What is found wrong with the references of a token if it is known how their targets end. -/
def referenceFindings (g : Group) (ending : String → List Finding) (t : Token) : List Finding :=
  t.malformed.map (fun s => (.invalid, some s)) ++
    t.pointers.map (fun ref => (.missing, some ref)) ++
      t.references.filterMap fun r =>
        match g.findToken? r with
        | none => some (.missing, some (Alias.ofPath r))
        | some _ => (failureOf (ending r)).map fun kind => (kind, some (Alias.ofPath r))

/-- What comes of the findings about the references of a token. -/
inductive Concludes (g : Group) (limit : Int) (t : Token) : List Finding → List Finding → Prop
  | references {found : List Finding} : found ≠ [] → Concludes g limit t found found
  | deep {n : Nat} : g.AliasChain t n → limit < (n : Int) → Concludes g limit t [] [(.depth, none)]
  | settled {v : Value} : g.Settles limit t v → Concludes g limit t [] []
  | unfit : (∀ n, g.AliasChain t n → (n : Int) ≤ limit) → (∀ v, ¬ g.Settles limit t v) →
      Concludes g limit t [] [(.invalid, none)]

/-- What is found wrong with a token in the end. -/
inductive Ends (g : Group) (limit : Int) : Token → List Finding → Prop
  | cycle {t : Token} : g.OnCycle t.path →
      Ends g limit t [(.circular, some (Alias.ofPath t.path))]
  | turn {t : Token} {found : List Finding} (ending : String → List Finding) :
      ¬ g.OnCycle t.path →
      (∀ r ∈ t.references, ∀ y, g.findToken? r = some y → Ends g limit y (ending r)) →
      g.Concludes limit t (g.referenceFindings ending t) found → Ends g limit t found

theorem referenceFindings_congr {ending ending' : String → List Finding}
    (h : ∀ r ∈ t.references, ∀ y, g.findToken? r = some y → ending r = ending' r) :
    g.referenceFindings ending t = g.referenceFindings ending' t := by
  unfold referenceFindings
  refine congrArg _ (List.filterMap_congr fun r hr => ?_)
  cases hy : g.findToken? r with
  | none => rfl
  | some y =>
    dsimp only
    rw [h r hr y hy]

theorem Concludes.unique {base found found' : List Finding} (h : g.Concludes limit t base found)
    (h' : g.Concludes limit t base found') : found = found' := by
  have hwithin : ∀ {v : Value}, g.Settles limit t v →
      ∀ n, g.AliasChain t n → (n : Int) ≤ limit := by
    rintro v ⟨-, -, -, -, -, -, hwithin, -, -⟩
    exact hwithin
  cases h with
  | references hne =>
    cases h' with
    | references => rfl
    | _ => exact absurd rfl hne
  | deep hchain hlimit =>
    cases h' with
    | references hne => exact absurd rfl hne
    | deep => rfl
    | settled hv => exact absurd hlimit (Int.not_lt.mpr (hwithin hv _ hchain))
    | unfit hbound => exact absurd hlimit (Int.not_lt.mpr (hbound _ hchain))
  | settled hv =>
    cases h' with
    | references hne => exact absurd rfl hne
    | deep hchain hlimit => exact absurd hlimit (Int.not_lt.mpr (hwithin hv _ hchain))
    | settled => rfl
    | unfit _ hnot => exact absurd hv (hnot _)
  | unfit hbound hnot =>
    cases h' with
    | references hne => exact absurd rfl hne
    | deep hchain hlimit => exact absurd hlimit (Int.not_lt.mpr (hbound _ hchain))
    | settled hv => exact absurd hv (hnot _)
    | unfit => rfl

/-- **The findings about a token are unique.** -/
theorem Ends.unique {found found' : List Finding} (h : g.Ends limit t found)
    (h' : g.Ends limit t found') : found = found' := by
  induction h generalizing found' with
  | cycle hcycle =>
    cases h' with
    | cycle => rfl
    | turn _ hnot => exact absurd hcycle hnot
  | turn ending hnot _ hconcludes ih =>
    cases h' with
    | cycle hcycle => exact absurd hcycle hnot
    | turn ending' _ hends' hconcludes' =>
      have hsame := referenceFindings_congr fun r hr y hy => ih r hr y hy (hends' r hr y hy)
      exact hconcludes.unique (hsame ▸ hconcludes')

end Group

end DesignTokens
