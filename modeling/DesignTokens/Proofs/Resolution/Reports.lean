import DesignTokens.Proofs.Resolution.Findings

/-!
# What a pass reports

Where every token is found by its own path (`Group.Found`), each token has its turn under that path
and after the tokens that it refers to.  So when its check is made, its targets have ended, and the
check finds what `Group.Ends` says.  The invariant `Pass.Told` keeps this for all tokens that have
had their turn; at the end that is all of them (`Group.ends_final`).
-/

namespace DesignTokens

/-- Whether every token is found by its own path. -/
def Group.Found (g : Group) : Prop :=
  ∀ place t, g.tokenAt? place = some t → g.placeOf t.path = place

theorem Group.Found.direct {g : Group} (h : g.Found) (hlabel : g.label.path = "") : g.Direct :=
  fun q t ht => placeOf_injective hlabel (h (g.placeOf q) t ht)

namespace Pass

variable {g : Group} {limit : Int} {p q : Pass} {place : Place} {t after : Token} {c : Check}

def findingsOf (p : Pass) (path : String) : List Finding :=
  (p.problems.filter fun e => e.path = path).map Problem.finding

theorem count_problems (p : Pass) (path : String) (f : Finding) :
    (p.problems.map fun e => (e.path, e.finding)).count (path, f) =
      (p.findingsOf path).count f := by
  unfold findingsOf
  rw [List.count_eq_countP, List.countP_map, List.count_eq_countP, List.countP_map,
    List.countP_filter]
  refine List.countP_congr fun e _ => ?_
  simp [and_comm]

/-- What the problems say of the tokens that have an outcome. -/
def Told (g : Group) (limit : Int) (p : Pass) : Prop :=
  ∀ place t outcome, g.tokenAt? place = some t →
    p.resolver.outcomes.get? t.path = some outcome →
      g.Ends limit t (p.findingsOf t.path) ∧ outcome = failureOf (p.findingsOf t.path)

/-! ### One turn -/

theorem Faithful.findingsOf_eq_nil (h : p.Faithful g limit) {path : String}
    (hnone : ∀ place t kind, g.tokenAt? place = some t → t.path = path →
      p.resolver.outcomes.get? t.path ≠ some (some kind)) : p.findingsOf path = [] := by
  unfold findingsOf
  rw [List.map_eq_nil_iff, List.filter_eq_nil_iff]
  intro e he hpath
  obtain ⟨place, t, kind, ht, hsame, ho⟩ := h.reported e he
  exact hnone place t kind ht (hsame.trans (of_decide_eq_true hpath)) ho

theorem Advance.findingsOf_here {path : String} (hq : Advance p q place path after c)
    (hreports : c.Reports path) (hnone : p.findingsOf path = []) :
    q.findingsOf path = c.findings := by
  have hall : c.problems.filter (fun e => e.path = path) = c.problems :=
    List.filter_eq_self.mpr fun e he => decide_eq_true (hreports.path_eq e he)
  unfold findingsOf at hnone ⊢
  rw [hq.problems, List.filter_append, List.map_append, hnone, hall]
  rfl

theorem Advance.findingsOf_of_ne {path other : String} (hq : Advance p q place path after c)
    (hreports : c.Reports path) (hne : other ≠ path) :
    q.findingsOf other = p.findingsOf other := by
  have hnone : c.problems.filter (fun e => e.path = other) = [] :=
    List.filter_eq_nil_iff.mpr fun e he hother =>
      hne ((of_decide_eq_true hother).symm.trans (hreports.path_eq e he))
  unfold findingsOf
  rw [hq.problems, List.filter_append, hnone, List.append_nil]

/-- What is kept about the outcomes and the findings of the tokens that have an outcome. -/
def Records (g : Group) (R : Token → Option ProblemKind → List Finding → Prop) (p : Pass) : Prop :=
  ∀ place t outcome, g.tokenAt? place = some t →
    p.resolver.outcomes.get? t.path = some outcome → R t outcome (p.findingsOf t.path)

/-- **The step lemma**: a turn adds what its check has found, and nothing else is recorded
otherwise. -/
theorem Records.advance (hg : g.Prepared) (hfaithful : p.Faithful g limit)
    {R : Token → Option ProblemKind → List Finding → Prop} (h : p.Records g R)
    (ht : g.tokenAt? place = some t) (hq : Advance p q place t.path after c)
    (hreports : c.Reports t.path) (hnew : p.resolver.outcomes.get? t.path = none)
    (hhere : R t c.failure c.findings) : q.Records g R := by
  intro other u outcome hu ho
  by_cases hpath : u.path = t.path
  · have hnone : p.findingsOf t.path = [] :=
      hfaithful.findingsOf_eq_nil fun _ _ _ _ hsame ho => by
        rw [hsame, hnew] at ho
        cases ho
    rw [hg.placed.eq_of_path_eq hu ht hpath, hq.findingsOf_here hreports hnone]
    rw [hpath, hq.outcomes, Table.get?_put_self] at ho
    exact Option.some.inj ho ▸ hhere
  · rw [hq.findingsOf_of_ne hreports hpath]
    exact h other u outcome hu ((hq.unchanged ht hu hpath).1 ▸ ho)

theorem Records.of_halts {R : Token → Option ProblemKind → List Finding → Prop}
    {fault : NumeralFault} (h : p.Records g R) (hq : Halts p q fault) : q.Records g R := by
  intro other u outcome hu ho
  unfold findingsOf
  rw [hq.problems]
  exact h other u outcome hu (hq.outcomes ▸ ho)

namespace Told

theorem advance (hg : g.Prepared) (hfaithful : p.Faithful g limit) (h : p.Told g limit)
    (ht : g.tokenAt? place = some t) (hq : Advance p q place t.path after c)
    (hreports : c.Reports t.path) (hnew : p.resolver.outcomes.get? t.path = none)
    (hends : g.Ends limit t c.findings) (hheaded : c.Headed) : q.Told g limit :=
  Records.advance hg hfaithful
    (R := fun t outcome found => g.Ends limit t found ∧ outcome = failureOf found)
    h ht hq hreports hnew ⟨hends, hheaded⟩

/-- What is found wrong with an alias is what its target has ended with. -/
theorem aliasFinding?_eq (hg : g.Prepared) (hfaithful : p.Faithful g limit) (h : p.Told g limit)
    {r : String} (hr : Alias.HasSegments r)
    (hdone : ∀ y, g.findToken? r = some y → p.resolver.outcomes.has y.path = true) :
    Check.aliasFinding? p.tree p.resolver.outcomes r =
      match g.findToken? r with
      | none => some (.missing, some (Alias.ofPath r))
      | some _ => (failureOf (p.findingsOf r)).map fun kind => (kind, some (Alias.ofPath r)) := by
  unfold Check.aliasFinding?
  rw [hfaithful.findToken?_eq]
  cases hy : g.findToken? r with
  | none => rw [hfaithful.absent _ hy]
  | some y =>
    obtain ⟨u, hu, -⟩ := hfaithful.exists_token hy
    obtain ⟨outcome, ho⟩ := Option.isSome_iff_exists.mp (hdone y hy)
    have htold := (h _ y outcome hy ho).2
    rw [hg.placed.path_of_findToken hr hy] at ho htold
    rw [hu]
    dsimp only
    unfold Check.outcomeOf
    rw [ho, ← htold]

theorem findings_followed (hg : g.Prepared) (hfaithful : p.Faithful g limit) (h : p.Told g limit)
    (ht : g.tokenAt? place = some t)
    (hdone : ∀ r ∈ t.references, ∀ y, g.findToken? r = some y →
      p.resolver.outcomes.has y.path = true) :
    (Check.followed p.tree p.resolver t).findings = g.referenceFindings p.findingsOf t := by
  rw [Check.findings_followed]
  refine congrArg _ (List.filterMap_congr fun r hr => ?_)
  exact h.aliasFinding?_eq hg hfaithful ((hg.tracked place t ht).hasSegments r hr) (hdone r hr)

end Told

/-! ### What a turn comes to -/

theorem Turn.headed (h : p.Turn t after c) : c.Headed := by
  have hchecked := Check.headed_checked p.tree p.resolver t
  cases h with
  | plain => rfl
  | resolved => exact hchecked
  | unfit => exact hchecked.fail _ _ _ _
  | failed => exact hchecked

theorem not_le_of_failed {kind : ProblemKind}
    (h : (Check.checked p.tree p.resolver t).failure = some kind)
    (hfollowed : (Check.followed p.tree p.resolver t).failure = none) :
    p.resolver.maxDepth < ((Check.followed p.tree p.resolver t).depth : Int) := by
  refine Int.not_le.mp fun hle => ?_
  rw [Check.failure_checked_iff.mpr ⟨hfollowed, hle⟩] at h
  cases h

/-- If there are findings about the references of a token, a turn has no others; if there are none,
it has at most one, and that is about the depth or the value. -/
theorem Turn.findings_cases (htracked : t.Tracked) (h : p.Turn t after c) :
    c.findings = (Check.followed p.tree p.resolver t).findings ∨
      (Check.followed p.tree p.resolver t).findings = [] ∧
        ∃ kind, (kind = .depth ∨ kind = .invalid) ∧ c.findings = [(kind, none)] := by
  have hbase := (Check.followed_reports p.tree p.resolver t).findings_eq_nil_iff
  have hchecked := (Check.checked_reports p.tree p.resolver t).findings_eq_nil_iff
  cases h with
  | plain hresolved hreferences =>
    obtain ⟨-, hpointers, hmalformed⟩ := htracked.resolved_iff.mp hresolved
    rw [Check.findings_followed, hmalformed, hpointers, hreferences]
    exact Or.inl rfl
  | resolved _ hf _ =>
    rw [hbase.mpr (Check.failure_checked_iff.mp hf).1, hchecked.mpr hf]
    exact Or.inl rfl
  | unfit _ hf _ =>
    rw [hbase.mpr (Check.failure_checked_iff.mp hf).1, Check.findings_fail, hchecked.mpr hf]
    exact Or.inr ⟨rfl, .invalid, Or.inr rfl, rfl⟩
  | failed _ hf =>
    by_cases hfollowed : (Check.followed p.tree p.resolver t).failure = none
    · have hdeep := not_le_of_failed hf hfollowed
      rw [hbase.mpr hfollowed, Check.findings_checked_of_deep hfollowed hdeep]
      exact Or.inr ⟨rfl, .depth, Or.inl rfl, rfl⟩
    · rw [Check.checked_of_failure hfollowed]
      exact Or.inl rfl

theorem references_ne_nil (htracked : t.Tracked)
    (hnew : (t.resolved && t.references.isEmpty) = false)
    (hf : (Check.followed p.tree p.resolver t).failure = none) : t.references ≠ [] := by
  intro hnone
  obtain ⟨hmalformed, hpointers, -⟩ := Check.failure_followed_iff.mp hf
  rw [htracked.resolved_iff.mpr ⟨hnone, hpointers, hmalformed⟩, hnone] at hnew
  cases hnew

/-- What comes of the findings about the references of a token whose targets have ended. -/
theorem Faithful.concludes (hg : g.Prepared) (hdirect : g.Direct) (h : p.Faithful g limit)
    (ht : g.tokenAt? place = some t) (hturn : p.Turn t after c)
    (hdone : ∀ r ∈ t.references, ∀ y, g.findToken? r = some y →
      p.resolver.outcomes.has y.path = true) :
    g.Concludes limit t (Check.followed p.tree p.resolver t).findings c.findings := by
  have hbase := (Check.followed_reports p.tree p.resolver t).findings_eq_nil_iff
  have hchecked := (Check.checked_reports p.tree p.resolver t).findings_eq_nil_iff
  cases hturn with
  | plain hresolved hreferences =>
    obtain ⟨-, hpointers, hmalformed⟩ := (hg.tracked place t ht).resolved_iff.mp hresolved
    rw [hbase.mpr (Check.failure_followed_iff.mpr ⟨hmalformed, hpointers, fun r hr =>
      absurd (hreferences ▸ hr) List.not_mem_nil⟩)]
    exact .settled (.of_resolved hg ht hresolved)
  | resolved _ hf hv =>
    rw [hbase.mpr (Check.failure_checked_iff.mp hf).1, hchecked.mpr hf]
    exact .settled (h.settles_of_checked hg ht (fun _ => Group.inTime_of_direct hdirect _) hf hv).1
  | unfit hnew hf hv =>
    obtain ⟨hfollowed, hdepth⟩ := Check.failure_checked_iff.mp hf
    rw [hbase.mpr hfollowed, Check.findings_fail, hchecked.mpr hf]
    refine .unfit (fun n hn => ?_) fun v hsettles => ?_
    · have hle := (h.isLongest_followed hg ht hfollowed).bound n hn
      rw [h.limit_eq] at hdepth
      omega
    · rw [(h.checked_of_settles hg ht hnew (fun _ r hr y hy _ => hdone r hr y hy) hsettles).2] at hv
      cases hv
  | failed hnew hf =>
    by_cases hfollowed : (Check.followed p.tree p.resolver t).failure = none
    · have hdeep := not_le_of_failed hf hfollowed
      have hreferences := references_ne_nil (hg.tracked place t ht) hnew hfollowed
      rw [hbase.mpr hfollowed, Check.findings_checked_of_deep hfollowed hdeep]
      exact .deep (h.aliasChain_followed hg ht hreferences hfollowed) (h.limit_eq ▸ hdeep)
    · rw [Check.checked_of_failure hfollowed]
      exact .references (mt hbase.mp hfollowed)

namespace Told

/-- The turn of a token on no cycle, after those of its targets. -/
theorem resolveToken (hg : g.Prepared) (hdirect : g.Direct) (hfaithful : p.Faithful g limit)
    (hgoing : p.halted = none) (h : p.Told g limit) (ht : g.tokenAt? place = some t)
    (hnew : p.resolver.outcomes.get? t.path = none) (hcycle : ¬ g.OnCycle t.path)
    (hdone : ∀ r ∈ t.references, ∀ y, g.findToken? r = some y →
      p.resolver.outcomes.has y.path = true) : (p.resolveToken place).Told g limit := by
  rcases exists_turn hgoing (hfaithful.pending place t ht hnew).1 with
    ⟨fault, hhalts, -⟩ | ⟨after, c, hadvance, hreports, hturn⟩
  · exact Records.of_halts
      (R := fun t outcome found => g.Ends limit t found ∧ outcome = failureOf found) h hhalts
  refine h.advance hg hfaithful ht hadvance hreports hnew ?_ hturn.headed
  have hconcludes := hfaithful.concludes hg hdirect ht hturn hdone
  rw [h.findings_followed hg hfaithful ht hdone] at hconcludes
  refine .turn p.findingsOf hcycle (fun r hr y hy => ?_) hconcludes
  obtain ⟨outcome, ho⟩ := Option.isSome_iff_exists.mp (hdone r hr y hy)
  have hends := (h _ y outcome hy ho).1
  rwa [hg.placed.path_of_findToken ((hg.tracked place t ht).hasSegments r hr) hy] at hends

theorem failMember (hg : g.Prepared) {done : List String} (cycle : List String) {member : String}
    (hmarked : p.Marked g limit done) (hcycle : g.OnCycle member) (hnew : member ∉ done)
    (h : p.Told g limit) : (p.failMember cycle member).Told g limit := by
  cases ht : g.findToken? member with
  | none =>
    rw [hmarked.faithful.failMember_of_none cycle ht]
    exact h
  | some t =>
    obtain ⟨rfl, hout⟩ := hmarked.pending hg hcycle hnew ht
    exact h.advance hg hmarked.faithful ht (hmarked.faithful.advance_failMember cycle ht hout)
      (circular_reports cycle t.path) hout (.cycle hcycle) rfl

/-- A path of the order: its token is on no cycle, and what it refers to stands before it. -/
theorem resolvePath (hg : g.Prepared) (hdirect : g.Direct) {done rest : List String} {q : String}
    (hordered : p.Ordered g limit done) (hgoing : p.halted = none)
    (horder : g.resolutionOrder = done ++ q :: rest) (h : p.Told g limit) :
    (p.resolvePath q).Told g limit := by
  rcases hordered.resolvePath_cases hg hgoing horder with ⟨he, -⟩ | ⟨t, ht, hhas, he⟩
  · rw [he]
    exact h
  · rw [he]
    have hpath : t.path = q := hdirect q t ht
    have hcycle := hordered.not_onCycle hgoing hhas ht hpath
    have hnodup := horder ▸ g.resolutionOrder_nodup
    refine h.resolveToken hg hdirect hordered.faithful hgoing ht
      (hordered.not_has hg hgoing hnodup hhas ht) hcycle fun r hr y hy => ?_
    have hbefore := Group.standsBefore_of_reference hg ht hcycle hr
    rw [horder, hpath] at hbefore
    exact (hordered.has_iff hgoing _ y hy).mpr (Or.inl ⟨r, mem_of_standsBefore hnodup hbefore, rfl⟩)

/-- A token that is left refers to nothing. -/
theorem resolvePlace (hg : g.Prepared) (hfound : g.Found) (hleft : p.Leftover g limit)
    (hgoing : p.halted = none) (ht : g.tokenAt? place = some t) (h : p.Told g limit) :
    (p.resolvePlace place).Told g limit := by
  rw [hleft.faithful.resolvePlace_eq ht]
  split
  · exact h
  · rename_i hhas
    have hplace := hfound place t ht
    have hcycle : ¬ g.OnCycle t.path := fun hcycle =>
      hhas (hleft.has_of_turned hgoing place t ht (Or.inr ⟨hcycle, hplace⟩))
    refine h.resolveToken hg (hfound.direct hg.label_path) hleft.faithful hgoing ht ?_ hcycle ?_
    · simpa [Table.has] using hhas
    · intro r hr
      obtain ⟨before, between, rest, he⟩ := Group.standsBefore_of_reference hg ht hcycle hr
      refine absurd (hleft.has_of_turned hgoing place t ht (Or.inl ⟨t.path, ?_, hplace⟩)) hhas
      rw [he]
      simp

end Told

end Pass

namespace Group

variable {g : Group} {limit : Int} {place : Place} {t : Token}

/-- **The problems of a token at the end are what is found wrong with it.** -/
theorem ends_final (hg : g.Prepared) (hfound : g.Found)
    (hgoing : (g.finalPass limit).halted = none) (ht : g.tokenAt? place = some t) :
    g.Ends limit t ((g.finalPass limit).findingsOf t.path) := by
  have hdirect := hfound.direct hg.label_path
  have hkept : Pass.Kept g limit (Pass.Told g limit) :=
    { mark := fun cycle => Pass.Told.failMember hg cycle
      order := Pass.Told.resolvePath hg hdirect
      leftover := Pass.Told.resolvePlace hg hfound }
  have hstart : (g.firstPass limit).Told g limit := fun _ _ _ _ ho => by cases ho
  obtain ⟨-, htold, hall⟩ := finalPass_rounds hg hkept hstart
  obtain ⟨outcome, ho⟩ := Option.isSome_iff_exists.mp (hall hgoing place t ht)
  exact (htold place t outcome ht ho).1

end Group

end DesignTokens
