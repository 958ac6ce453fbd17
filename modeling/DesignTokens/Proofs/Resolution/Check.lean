import DesignTokens.Proofs.Resolution.Settling

/-!
# The check of the references of a token

`Check.followed` is the check after all references of a token were followed.  It
reports problems of that token only, and it fails exactly when it reports one
(`followed_reports`).  It succeeds if and only if there is nothing malformed, no
pointer, and every alias names a token without a failure (`failure_followed_iff`);
then its depth is one more than the greatest depth of a target (`depth_followed`).
`Check.checked` compares this depth with the limit.
-/

namespace DesignTokens

/-- The length that is stored for the longest chain from a path; 0 if none is. -/
def storedDepth (depths : Table String Nat) (path : String) : Nat := (depths.get? path).getD 0

namespace Check

variable {c : Check} {path : String} {tree : Group}
  {outcomes : Table String (Option ProblemKind)}

/-! ### Problems -/

/-- All problems are about one token, and there is a failure as soon as there is a
problem. -/
structure Reports (path : String) (c : Check) : Prop where
  path_eq : ∀ e ∈ c.problems, e.path = path
  failure_iff : c.failure = none ↔ c.problems = []

theorem reports_fail (h : c.Reports path) (kind : ProblemKind) (cause : Cause)
    (reference : Option String) : (c.fail path kind cause reference).Reports path where
  path_eq := fun e he => by
    rcases List.mem_append.mp he with he | he
    · exact h.path_eq e he
    · rw [List.mem_singleton.mp he]
  failure_iff := by
    unfold fail
    cases c.failure <;> simp

theorem failure_fail (c : Check) (path : String) (kind : ProblemKind) (cause : Cause)
    (reference : Option String) : (c.fail path kind cause reference).failure ≠ none := by
  unfold fail
  cases c.failure <;> simp

theorem reports_foldl {α : Type} {step : Check → α → Check}
    (hstep : ∀ c a, c.Reports path → (step c a).Reports path) (h : c.Reports path) (l : List α) :
    (l.foldl step c).Reports path := by
  induction l generalizing c with
  | nil => exact h
  | cons a l ih => exact ih (hstep c a h)

theorem failure_foldl {α : Type} {step : Check → α → Check} {P : α → Prop}
    (hstep : ∀ c a, (step c a).failure = none ↔ c.failure = none ∧ P a) (l : List α) :
    (l.foldl step c).failure = none ↔ c.failure = none ∧ ∀ a ∈ l, P a := by
  induction l generalizing c with
  | nil => simp
  | cons a l ih =>
    rw [List.foldl_cons, ih, hstep, List.forall_mem_cons, and_assoc]

/-! ### One alias -/

/-- How an alias changes the check when nothing is wrong with it, apart from the
stored lengths. -/
theorem followAlias_of_none {named : String} (h : tree.findToken? named = none) :
    ∃ cause reference, followAlias tree outcomes path c named =
      c.fail path .missing cause reference := by
  unfold Group.findToken? at h
  unfold followAlias
  cases hn : tree.find? named with
  | none => exact ⟨_, _, rfl⟩
  | some n =>
    rw [hn] at h
    cases n with
    | token t => cases h
    | group label children => exact ⟨_, _, rfl⟩

/-- The check with a length stored for a target that is resolved and has no outcome. -/
def noted (outcomes : Table String (Option ProblemKind)) (c : Check) (named : String)
    (target : Token) : Check :=
  if !outcomes.has named && target.resolved then { c with depths := c.depths.putNew named 0 }
  else c

theorem followAlias_of_some {named : String} {target : Token}
    (h : tree.findToken? named = some target) :
    followAlias tree outcomes path c named =
      match outcomeOf outcomes named target with
      | some kind =>
        (noted outcomes c named target).fail path kind (.dependsOn named)
          (some (Alias.ofPath named))
      | none =>
        { noted outcomes c named target with
          depth := max (noted outcomes c named target).depth
            (storedDepth (noted outcomes c named target).depths named + 1) } := by
  obtain ⟨n, hn, ht⟩ := Option.bind_eq_some_iff.mp h
  unfold followAlias
  rw [hn]
  cases n with
  | token t =>
    cases Option.some.inj ht
    dsimp only
    unfold noted storedDepth
    cases outcomeOf outcomes named target <;> rfl
  | group label children => cases ht

theorem noted_failure (named : String) (target : Token) :
    (noted outcomes c named target).failure = c.failure := by
  unfold noted
  split <;> rfl

theorem noted_problems (named : String) (target : Token) :
    (noted outcomes c named target).problems = c.problems := by
  unfold noted
  split <;> rfl

theorem noted_depth (named : String) (target : Token) :
    (noted outcomes c named target).depth = c.depth := by
  unfold noted
  split <;> rfl

theorem storedDepth_noted (named : String) (target : Token) (p : String) :
    storedDepth (noted outcomes c named target).depths p = storedDepth c.depths p := by
  unfold noted
  split
  · exact Table.getD_putNew 0
  · rfl

theorem reports_followAlias (h : c.Reports path) (named : String) :
    (followAlias tree outcomes path c named).Reports path := by
  cases hf : tree.findToken? named with
  | none =>
    obtain ⟨cause, reference, he⟩ := followAlias_of_none hf
    rw [he]
    exact reports_fail h _ _ _
  | some target =>
    have hnoted : (noted outcomes c named target).Reports path :=
      ⟨fun e he => h.path_eq e (noted_problems named target ▸ he), by
        rw [noted_failure, noted_problems, h.failure_iff]⟩
    rw [followAlias_of_some hf]
    split
    · exact reports_fail hnoted _ _ _
    · exact ⟨hnoted.path_eq, hnoted.failure_iff⟩

theorem failure_followAlias_iff (c : Check) (named : String) :
    (followAlias tree outcomes path c named).failure = none ↔ c.failure = none ∧
      ∃ x, tree.findToken? named = some x ∧ outcomeOf outcomes named x = none := by
  cases hf : tree.findToken? named with
  | none =>
    obtain ⟨cause, reference, he⟩ := followAlias_of_none hf
    rw [he]
    refine iff_of_false (failure_fail _ _ _ _ _) ?_
    rintro ⟨-, x, hx, -⟩
    cases hx
  | some target =>
    rw [followAlias_of_some hf]
    cases ho : outcomeOf outcomes named target with
    | none =>
      show (noted outcomes c named target).failure = none ↔ _
      rw [noted_failure]
      exact ⟨fun hc => ⟨hc, target, rfl, ho⟩, fun hc => hc.1⟩
    | some kind =>
      refine iff_of_false (failure_fail _ _ _ _ _) ?_
      rintro ⟨-, x, hx, hx'⟩
      cases hx
      rw [ho] at hx'
      cases hx'

theorem storedDepth_followAlias (c : Check) (named p : String) :
    storedDepth (followAlias tree outcomes path c named).depths p = storedDepth c.depths p := by
  cases hf : tree.findToken? named with
  | none =>
    obtain ⟨cause, reference, he⟩ := followAlias_of_none hf
    rw [he]
    rfl
  | some target =>
    rw [followAlias_of_some hf]
    refine Eq.trans ?_ (@storedDepth_noted c outcomes named target p)
    cases outcomeOf outcomes named target <;> rfl

theorem depth_followAlias {named : String} {target : Token}
    (h : tree.findToken? named = some target) (ho : outcomeOf outcomes named target = none) :
    (followAlias tree outcomes path c named).depth =
      max c.depth (storedDepth c.depths named + 1) := by
  rw [followAlias_of_some h, ho]
  show max (noted outcomes c named target).depth _ = _
  rw [noted_depth, storedDepth_noted]

/-! ### All references -/

variable {r : Resolver} {t : Token}

theorem followed_reports (tree : Group) (r : Resolver) (t : Token) :
    (followed tree r t).Reports t.path := by
  refine reports_foldl (fun c named h => reports_followAlias h named) ?_ _
  refine reports_foldl (fun c ref h => reports_fail h _ _ _) ?_ _
  refine reports_foldl (fun c s h => reports_fail h _ _ _) ?_ _
  exact ⟨fun _ he => absurd he List.not_mem_nil, iff_of_true rfl rfl⟩

theorem failure_followed_iff :
    (followed tree r t).failure = none ↔ t.malformed = [] ∧ t.pointers = [] ∧
      ∀ named ∈ t.references, ∃ x, tree.findToken? named = some x ∧
        outcomeOf r.outcomes named x = none := by
  have hnever : ∀ (step : Check → String → Check), (∀ c s, (step c s).failure ≠ none) →
      ∀ c s, (step c s).failure = none ↔ c.failure = none ∧ False :=
    fun step h c s => iff_of_false (h c s) fun hc => hc.2
  unfold followed
  rw [failure_foldl failure_followAlias_iff,
    failure_foldl (hnever (pointer t.path) fun c s => failure_fail _ _ _ _ _),
    failure_foldl (hnever (malformed t.path) fun c s => failure_fail _ _ _ _ _)]
  simp only [← List.eq_nil_iff_forall_not_mem, true_and, and_assoc]

theorem storedDepth_foldl {α : Type} {step : Check → α → Check} {p : String}
    (hstep : ∀ c a, storedDepth (step c a).depths p = storedDepth c.depths p) (l : List α) :
    storedDepth (l.foldl step c).depths p = storedDepth c.depths p := by
  induction l generalizing c with
  | nil => rfl
  | cons a l ih => rw [List.foldl_cons, ih, hstep]

theorem storedDepth_followed (tree : Group) (r : Resolver) (t : Token) (p : String) :
    storedDepth (followed tree r t).depths p = storedDepth r.depths p := by
  have hpointer : ∀ c ref, storedDepth (pointer t.path c ref).depths p = storedDepth c.depths p :=
    fun _ _ => rfl
  have hmalformed : ∀ c s, storedDepth (malformed t.path c s).depths p = storedDepth c.depths p :=
    fun _ _ => rfl
  unfold followed
  rw [storedDepth_foldl fun c named => storedDepth_followAlias c named p,
    storedDepth_foldl hpointer, storedDepth_foldl hmalformed]

theorem depth_foldl_followAlias {references : List String}
    (h : ∀ named ∈ references, ∃ x, tree.findToken? named = some x ∧
      outcomeOf outcomes named x = none) :
    (∀ named ∈ references,
        storedDepth c.depths named + 1 ≤
          (references.foldl (followAlias tree outcomes path) c).depth) ∧
      c.depth ≤ (references.foldl (followAlias tree outcomes path) c).depth ∧
      ((references.foldl (followAlias tree outcomes path) c).depth = c.depth ∨
        ∃ named ∈ references, (references.foldl (followAlias tree outcomes path) c).depth =
          storedDepth c.depths named + 1) := by
  induction references generalizing c with
  | nil => exact ⟨fun _ hn => absurd hn List.not_mem_nil, Nat.le_refl _, Or.inl rfl⟩
  | cons first references ih =>
    obtain ⟨⟨x, hx, ho⟩, hrest⟩ := List.forall_mem_cons.mp h
    have hdepth := @depth_followAlias c path tree outcomes first x hx ho
    have hstored := @storedDepth_followAlias path tree outcomes c first
    obtain ⟨hall, hle, hreached⟩ := ih (c := followAlias tree outcomes path c first) hrest
    simp only [hstored, hdepth] at hall hle hreached
    rw [List.foldl_cons]
    refine ⟨List.forall_mem_cons.mpr ⟨by omega, hall⟩, by omega, ?_⟩
    rcases hreached with he | ⟨named, hm, he⟩
    · rcases Nat.le_total c.depth (storedDepth c.depths first + 1) with hmax | hmax
      · exact Or.inr ⟨first, List.mem_cons_self, by rw [he, Nat.max_eq_right hmax]⟩
      · exact Or.inl (by rw [he, Nat.max_eq_left hmax])
    · exact Or.inr ⟨named, List.mem_cons_of_mem _ hm, he⟩

/-- The depth is one more than the greatest one of a target. -/
theorem depth_followed (h : (followed tree r t).failure = none) :
    (∀ named ∈ t.references,
        storedDepth r.depths named + 1 ≤ (followed tree r t).depth) ∧
      ((followed tree r t).depth = 0 ∨ ∃ named ∈ t.references,
        (followed tree r t).depth = storedDepth r.depths named + 1) := by
  obtain ⟨hmalformed, hpointers, htargets⟩ := failure_followed_iff.mp h
  have hdepth := @depth_foldl_followAlias ⟨r.depths, [], none, 0⟩ t.path tree r.outcomes
    t.references htargets
  have he : followed tree r t =
      t.references.foldl (followAlias tree r.outcomes t.path) ⟨r.depths, [], none, 0⟩ := by
    unfold followed
    rw [hmalformed, hpointers]
    rfl
  rw [he]
  exact ⟨hdepth.1, hdepth.2.2⟩

/-- The check after the comparison with the limit. -/
def checked (tree : Group) (r : Resolver) (t : Token) : Check :=
  if (followed tree r t).failure.isNone && ((followed tree r t).depth : Int) > r.maxDepth then
    (followed tree r t).fail t.path .depth (.tooDeep r.maxDepth) none
  else followed tree r t

theorem checked_of_failure (h : (followed tree r t).failure ≠ none) :
    checked tree r t = followed tree r t := by
  unfold checked
  rw [Option.isNone_eq_false_iff.mpr (Option.isSome_iff_ne_none.mpr h)]
  rfl

theorem checked_of_deep (h : (followed tree r t).failure = none)
    (hdeep : r.maxDepth < ((followed tree r t).depth : Int)) :
    checked tree r t =
      (followed tree r t).fail t.path .depth (.tooDeep r.maxDepth) none := by
  unfold checked
  rw [h, decide_eq_true hdeep]
  rfl

theorem checked_of_within (tree : Group) (r : Resolver) (t : Token)
    (h : ((followed tree r t).depth : Int) ≤ r.maxDepth) :
    checked tree r t = followed tree r t := by
  unfold checked
  rw [decide_eq_false (Int.not_lt.mpr h), Bool.and_false, if_neg Bool.false_ne_true]

theorem failure_checked_iff :
    (checked tree r t).failure = none ↔
      (followed tree r t).failure = none ∧ ((followed tree r t).depth : Int) ≤ r.maxDepth := by
  unfold checked
  split
  · rename_i hdeep
    rw [Bool.and_eq_true, decide_eq_true_eq] at hdeep
    exact iff_of_false (failure_fail _ _ _ _ _) fun h => absurd hdeep.2 (Int.not_lt.mpr h.2)
  · rename_i hdeep
    constructor
    · intro h
      refine ⟨h, Int.not_lt.mp fun hlt => hdeep ?_⟩
      rw [h, Bool.and_eq_true, decide_eq_true_eq]
      exact ⟨rfl, hlt⟩
    · exact fun h => h.1

theorem depth_checked (tree : Group) (r : Resolver) (t : Token) :
    (checked tree r t).depth = (followed tree r t).depth := by
  unfold checked
  split <;> rfl

theorem storedDepth_checked (tree : Group) (r : Resolver) (t : Token) (p : String) :
    storedDepth (checked tree r t).depths p = storedDepth r.depths p := by
  rw [← storedDepth_followed tree r t p]
  unfold checked
  split <;> rfl

theorem checked_reports (tree : Group) (r : Resolver) (t : Token) :
    (checked tree r t).Reports t.path := by
  unfold checked
  split
  · exact reports_fail (followed_reports tree r t) _ _ _
  · exact followed_reports tree r t

end Check

end DesignTokens
