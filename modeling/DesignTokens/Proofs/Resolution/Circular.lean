import DesignTokens.Proofs.Resolution.Outcome
import DesignTokens.Proofs.Resolution.Precedence
import DesignTokens.Proofs.Resolution.Reports

/-!
# How far a cycle is reported

The members of a cycle are reported as circular, and so is each token with an alias that leads to a
token whose outcome is circular.  But a token has one outcome, the kind of its first failure, so the
cycle is passed on by a token only if nothing else is wrong with it before
(`Group.CircularOutcome`).  The invariant `Pass.Spread` keeps this for the tokens that have had
their turn.

So every token with a circular problem reaches a cycle (`CircularProblem.reachesCycle`), and a token
that reaches a cycle has one if the tokens on its way there fail by cycles only
(`circularOutcome_of_failsByCycles`).  `brokenChain` is a document in which a token on the way has
failed before: the tokens behind it are not reported as circular.
-/

namespace DesignTokens

namespace Group

variable {g : Group} {limit : Int} {place : Place} {t y : Token} {path r : String}

/-! ### Circular tokens without any order of work -/

/-- An alias that a token with a path finds in order: its target settles and is done before. -/
def Stands (g : Group) (limit : Int) (path r : String) : Prop :=
  ∃ y v, g.findToken? r = some y ∧ g.Settles limit y v ∧ (y.references ≠ [] → g.Precedes r path)

/-- The outcome of a token is circular: it is a member of a cycle, or nothing is wrong with it
before an alias that leads to such a token. -/
inductive CircularOutcome (g : Group) (limit : Int) : Token → Prop
  | member {t : Token} : g.Member t → CircularOutcome g limit t
  | dependant {t y : Token} {before after : List String} {r : String} :
      t.malformed = [] → t.pointers = [] → t.references = before ++ r :: after →
      (∀ q ∈ before, g.Stands limit t.path q) → g.findToken? r = some y → g.Precedes r t.path →
      CircularOutcome g limit y → CircularOutcome g limit t

/-- A token is reported as circular: it is a member of a cycle, or one of its aliases leads to a
token whose outcome is circular. -/
def CircularProblem (g : Group) (limit : Int) (t : Token) : Prop :=
  g.Member t ∨ ∃ r ∈ t.references, ∃ y, g.findToken? r = some y ∧ g.Precedes r t.path ∧
    g.CircularOutcome limit y

/-- A path from which aliases lead to a cycle. -/
def ReachesCycle (g : Group) (path : String) : Prop :=
  ∃ c, g.aliasGraph.Reaches path c ∧ g.OnCycle c

/-- Nothing can be wrong with a token but that it is on a cycle or depends on one: if it is on a
cycle it is found there, it has no malformed reference, and each alias leads to a token that is done
before and that settles or reaches a cycle. -/
structure FailsByCycles (g : Group) (limit : Int) (t : Token) : Prop where
  found : g.OnCycle t.path → (g.findToken? t.path).isSome = true
  malformed : t.malformed = []
  targets : ∀ r ∈ t.references, ∃ y, g.findToken? r = some y ∧
    (y.references ≠ [] → g.Precedes r t.path) ∧
      (g.ReachesCycle r ∨ ∃ v, g.Settles limit y v)

theorem CircularOutcome.problem (h : g.CircularOutcome limit t) : g.CircularProblem limit t := by
  cases h with
  | member hmember => exact Or.inl hmember
  | @dependant _ y before after r _ _ hsplit _ hy hprecedes hcircular =>
    exact Or.inr ⟨r, hsplit ▸ List.mem_append_cons_self, y, hy, hprecedes, hcircular⟩

theorem references_ne_nil_of_onCycle (hg : g.Prepared) (ht : g.tokenAt? place = some t)
    (hcycle : g.OnCycle t.path) : t.references ≠ [] := by
  obtain ⟨other, u, hu, hpath, r, hr, -⟩ := hcycle.exists_next hg
  rw [hg.placed.eq_of_path_eq hu ht hpath] at hr
  exact List.ne_nil_of_mem hr

theorem CircularOutcome.references_ne_nil (hg : g.Prepared) (h : g.CircularOutcome limit t) :
    t.references ≠ [] := by
  cases h with
  | member hmember => exact references_ne_nil_of_onCycle hg hmember.2 hmember.1
  | dependant _ _ hsplit =>
    rw [hsplit]
    exact List.append_ne_nil_of_right_ne_nil _ (List.cons_ne_nil _ _)

/-! ### Circular tokens reach a cycle -/

theorem ReachesCycle.of_reference (hg : g.Prepared) (ht : g.tokenAt? place = some t)
    (hr : r ∈ t.references) (h : g.ReachesCycle r) : g.ReachesCycle t.path := by
  obtain ⟨c, hreaches, hcycle⟩ := h
  have hedge : g.aliasGraph.Edge t.path r := (edge_aliasGraph_iff hg).mpr ⟨place, t, ht, rfl, hr⟩
  exact ⟨c, Relation.ReflTransGen.head hedge hreaches, hcycle⟩

theorem CircularOutcome.reachesCycle (hg : g.Prepared) (ht : g.tokenAt? place = some t)
    (h : g.CircularOutcome limit t) : g.ReachesCycle t.path := by
  induction h generalizing place with
  | member hmember => exact ⟨_, Relation.ReflTransGen.refl, hmember.1⟩
  | @dependant t y before after r _ _ hsplit _ hy _ _ ih =>
    have hr : r ∈ t.references := hsplit ▸ List.mem_append_cons_self
    have hpath := hg.placed.path_of_findToken ((hg.tracked place t ht).hasSegments r hr) hy
    exact .of_reference hg ht hr (hpath ▸ ih hy)

theorem CircularProblem.reachesCycle (hg : g.Prepared) (ht : g.tokenAt? place = some t)
    (h : g.CircularProblem limit t) : g.ReachesCycle t.path := by
  rcases h with hmember | ⟨r, hr, y, hy, -, hcircular⟩
  · exact ⟨_, Relation.ReflTransGen.refl, hmember.1⟩
  · have hpath := hg.placed.path_of_findToken ((hg.tracked place t ht).hasSegments r hr) hy
    exact .of_reference hg ht hr (hpath ▸ hcircular.reachesCycle hg hy)

/-! ### Tokens that reach a cycle -/

/-- The first alias of a token that leads to a cycle, where the token is not on one itself. -/
theorem ReachesCycle.exists_first (hg : g.Prepared) (ht : g.tokenAt? place = some t)
    (h : g.ReachesCycle t.path) (hcycle : ¬ g.OnCycle t.path) :
    ∃ before r after, t.references = before ++ r :: after ∧ g.ReachesCycle r ∧
      ∀ q ∈ before, ¬ g.ReachesCycle q := by
  classical
  have hsome : ∃ r ∈ t.references, decide (g.ReachesCycle r) = true := by
    obtain ⟨c, hreaches, hc⟩ := h
    rcases hreaches.cases_head with rfl | ⟨r, hedge, hrest⟩
    · exact absurd hc hcycle
    · obtain ⟨other, u, hu, hpath, hr⟩ := (edge_aliasGraph_iff hg).mp hedge
      rw [hg.placed.eq_of_path_eq hu ht hpath] at hr
      exact ⟨r, hr, decide_eq_true ⟨c, hrest, hc⟩⟩
  obtain ⟨r, hfind⟩ := Option.isSome_iff_exists.mp (List.find?_isSome.mpr hsome)
  obtain ⟨hr, before, after, hsplit, hbefore⟩ := List.find?_eq_some_iff_append.mp hfind
  exact ⟨before, r, after, hsplit, of_decide_eq_true hr, fun q hq => by simpa using hbefore q hq⟩

theorem member_of_onCycle (hg : g.Prepared) (ht : g.tokenAt? place = some t)
    (hcycle : g.OnCycle t.path) (hfound : (g.findToken? t.path).isSome = true) : g.Member t := by
  obtain ⟨u, hu⟩ := Option.isSome_iff_exists.mp hfound
  have hpath := hg.placed.path_of_findToken (hcycle.hasSegments hg) hu
  exact ⟨hcycle, hg.placed.eq_of_path_eq hu ht hpath ▸ hu⟩

/-- **A token that reaches a cycle has a circular outcome** if it and the tokens on its way that
reach a cycle fail by cycles only. -/
theorem circularOutcome_of_failsByCycles (hg : g.Prepared) (hrefs : ∀ place t,
      g.tokenAt? place = some t → t.pointers = []) (ht : g.tokenAt? place = some t)
    (hreaches : g.ReachesCycle t.path)
    (hway : ∀ place u, g.tokenAt? place = some u → g.aliasGraph.Reaches t.path u.path →
      g.ReachesCycle u.path → g.FailsByCycles limit u) : g.CircularOutcome limit t := by
  -- outside of cycles the order of resolution goes down along the aliases
  induction hn : g.resolutionOrder.idxOf t.path using Nat.strongRecOn generalizing place t with
  | ind n ih =>
    have hfails := hway place t ht Relation.ReflTransGen.refl hreaches
    by_cases hcycle : g.OnCycle t.path
    · exact .member (member_of_onCycle hg ht hcycle (hfails.found hcycle))
    obtain ⟨before, r, after, hsplit, hr, hbefore⟩ := hreaches.exists_first hg ht hcycle
    have hmem : r ∈ t.references := hsplit ▸ List.mem_append_cons_self
    obtain ⟨y, hy, hprecedes, -⟩ := hfails.targets r hmem
    have hpath := hg.placed.path_of_findToken ((hg.tracked place t ht).hasSegments r hmem) hy
    have hedge : g.aliasGraph.Edge t.path r :=
      (edge_aliasGraph_iff hg).mpr ⟨place, t, ht, rfl, hmem⟩
    have hcircular : g.CircularOutcome limit y := by
      refine ih _ ?_ hy (hpath ▸ hr) (fun other u hu hreach => hway other u hu ?_) rfl
      · rw [hpath, ← hn]
        exact (standsBefore_of_reference hg ht hcycle hmem).idxOf_lt g.resolutionOrder_nodup
      · exact Relation.ReflTransGen.head hedge (hpath ▸ hreach)
    refine .dependant hfails.malformed (hrefs place t ht) hsplit (fun q hq => ?_) hy
      (hprecedes (hcircular.references_ne_nil hg)) hcircular
    obtain ⟨x, hx, hdone, hcase⟩ := hfails.targets q (hsplit ▸ List.mem_append_left _ hq)
    obtain ⟨v, hv⟩ := hcase.resolve_left (hbefore q hq)
    exact ⟨x, v, hx, hv, hdone⟩

/-- The outcome of a token that is no member of a cycle. -/
theorem circularOutcome_iff (hmember : ¬ g.Member t) :
    g.CircularOutcome limit t ↔ t.malformed = [] ∧ t.pointers = [] ∧
      ∃ before r after, t.references = before ++ r :: after ∧
        (∃ y, g.findToken? r = some y ∧ g.Precedes r t.path ∧ g.CircularOutcome limit y) ∧
        ∀ q ∈ before, g.Stands limit t.path q := by
  constructor
  · intro h
    cases h with
    | member hm => exact absurd hm hmember
    | dependant hmalformed hpointers hsplit hstands hy hprecedes hcircular =>
      exact ⟨hmalformed, hpointers, _, _, _, hsplit, ⟨_, hy, hprecedes, hcircular⟩, hstands⟩
  · rintro ⟨hmalformed, hpointers, before, r, after, hsplit, ⟨y, hy, hprecedes, hcircular⟩, hstands⟩
    exact .dependant hmalformed hpointers hsplit hstands hy hprecedes hcircular

end Group

/-- Whether one of some findings is circular. -/
def HasCircular (found : List Finding) : Prop := ∃ reference, (.circular, reference) ∈ found

/-! ### The check of a token -/

namespace Check

variable {tree : Group} {outcomes : Table String (Option ProblemKind)} {r : Resolver} {t : Token}
  {named : String}

theorem aliasFinding?_eq_none_iff : aliasFinding? tree outcomes named = none ↔
    ∃ x, tree.findToken? named = some x ∧ outcomeOf outcomes named x = none := by
  unfold aliasFinding?
  cases tree.findToken? named <;> simp

/-- An alias is found to be circular if it leads to a token with that outcome. -/
theorem aliasFinding?_circular_iff :
    (∃ reference, aliasFinding? tree outcomes named = some (.circular, reference)) ↔
      (∃ x, tree.findToken? named = some x) ∧ outcomes.get? named = some (some .circular) := by
  unfold aliasFinding?
  cases tree.findToken? named with
  | none => simp
  | some x =>
    unfold outcomeOf
    cases outcomes.get? named with
    | none => cases x.resolved <;> simp
    | some outcome => simp

theorem hasCircular_followed_iff : HasCircular (followed tree r t).findings ↔
    ∃ named ∈ t.references, ∃ reference,
      aliasFinding? tree r.outcomes named = some (.circular, reference) := by
  rw [findings_followed]
  unfold HasCircular
  simp only [List.mem_append, List.mem_map, List.mem_filterMap]
  constructor
  · rintro ⟨reference, (⟨s, -, he⟩ | ⟨s, -, he⟩) | ⟨named, hm, he⟩⟩
    · cases he
    · cases he
    · exact ⟨named, hm, reference, he⟩
  · rintro ⟨named, hm, reference, he⟩
    exact ⟨reference, Or.inr ⟨named, hm, he⟩⟩

/-- The first thing that is wrong with a token is an alias that is found to be circular. -/
theorem failureOf_followed_circular_iff :
    failureOf (followed tree r t).findings = some .circular ↔
      t.malformed = [] ∧ t.pointers = [] ∧ ∃ before named after,
        t.references = before ++ named :: after ∧
          (∃ reference, aliasFinding? tree r.outcomes named = some (.circular, reference)) ∧
          ∀ q ∈ before, aliasFinding? tree r.outcomes q = none := by
  rw [findings_followed]
  unfold failureOf
  cases t.malformed with
  | cons s rest => simp
  | nil =>
    cases t.pointers with
    | cons ref rest => simp
    | nil =>
      simp only [List.map_nil, List.nil_append, List.head?_filterMap, Option.map_eq_some_iff,
        List.findSome?_eq_some_iff, true_and]
      constructor
      · rintro ⟨⟨kind, reference⟩, ⟨before, named, after, hsplit, hfound, hbefore⟩, rfl⟩
        exact ⟨before, named, after, hsplit, ⟨reference, hfound⟩, hbefore⟩
      · rintro ⟨before, named, after, hsplit, ⟨reference, hfound⟩, hbefore⟩
        exact ⟨_, ⟨before, named, after, hsplit, hfound, hbefore⟩, rfl⟩

end Check

/-! ### The invariant -/

namespace Pass

variable {g : Group} {limit : Int} {p q : Pass} {place : Place} {t after : Token} {c : Check}

theorem hasCircular_findingsOf_iff {path : String} : HasCircular (p.findingsOf path) ↔
    ∃ e ∈ p.problems, e.path = path ∧ e.kind = .circular := by
  unfold HasCircular findingsOf
  simp only [List.mem_map, List.mem_filter, decide_eq_true_eq]
  constructor
  · rintro ⟨reference, e, ⟨he, hpath⟩, hfinding⟩
    exact ⟨e, he, hpath, congrArg Prod.fst hfinding⟩
  · rintro ⟨e, he, hpath, hkind⟩
    exact ⟨e.reference, e, ⟨he, hpath⟩, congrArg (·, e.reference) hkind⟩

/-- Whether a turn is circular is a matter of the references of its token. -/
theorem Turn.circular_iff (htracked : t.Tracked) (h : p.Turn t after c) :
    (c.failure = some .circular ↔
        failureOf (Check.followed p.tree p.resolver t).findings = some .circular) ∧
      (HasCircular c.findings ↔ HasCircular (Check.followed p.tree p.resolver t).findings) := by
  rw [h.headed]
  rcases h.findings_cases htracked with he | ⟨hnone, kind, hkind, he⟩
  · rw [he]
    exact ⟨Iff.rfl, Iff.rfl⟩
  · have hother : kind ≠ .circular := by
      rcases hkind with rfl | rfl <;> decide
    rw [he, hnone]
    constructor
    · refine iff_of_false (fun h => hother (Option.some.inj h)) fun h => ?_
      cases h
    · refine iff_of_false ?_ fun ⟨reference, hm⟩ => List.not_mem_nil hm
      rintro ⟨reference, hm⟩
      exact hother (congrArg Prod.fst (List.mem_singleton.mp hm)).symm

/-- What the outcomes and the problems say of cycles, for the tokens that have an outcome. -/
def Spread (g : Group) (limit : Int) (p : Pass) : Prop :=
  p.Records g fun t outcome found => (outcome = some .circular ↔ g.CircularOutcome limit t) ∧
    (HasCircular found ↔ g.CircularProblem limit t)

namespace Spread

section

variable (hg : g.Prepared) (hfaithful : p.Faithful g limit) (ht : g.tokenAt? place = some t)
  (hready : p.Ready g t) {r : String} (hr : r ∈ t.references)
include hg hfaithful ht hready hr

theorem aliasFinding?_eq_none_iff :
    Check.aliasFinding? p.tree p.resolver.outcomes r = none ↔ g.Stands limit t.path r := by
  have hsegments := (hg.tracked place t ht).hasSegments r hr
  rw [Check.aliasFinding?_eq_none_iff]
  constructor
  · rintro ⟨x, hx, ho⟩
    obtain ⟨y, hy, hsettles, -, hdone⟩ := hfaithful.target_settles hg hsegments hx ho
    refine ⟨y, _, hy, hsettles, fun hne => (hready r hr y hy hne).mp ?_⟩
    rw [Table.has, hdone hne]
    rfl
  · rintro ⟨y, v, hy, hsettles, hprecedes⟩
    exact hfaithful.target_of_settles hg hsegments hy hsettles fun hne =>
      (hready r hr y hy hne).mpr (hprecedes hne)

theorem aliasFinding?_circular_iff (h : p.Spread g limit) :
    (∃ reference, Check.aliasFinding? p.tree p.resolver.outcomes r = some (.circular, reference)) ↔
      ∃ y, g.findToken? r = some y ∧ g.Precedes r t.path ∧ g.CircularOutcome limit y := by
  have hsegments := (hg.tracked place t ht).hasSegments r hr
  rw [Check.aliasFinding?_circular_iff, hfaithful.findToken?_eq]
  constructor
  · rintro ⟨⟨x, hx⟩, hout⟩
    cases hy : g.findToken? r with
    | none =>
      rw [hfaithful.absent _ hy] at hx
      cases hx
    | some y =>
      have hpath := hg.placed.path_of_findToken hsegments hy
      rw [← hpath] at hout
      have hcircular := (h _ y _ hy hout).1.mp rfl
      refine ⟨y, rfl, (hready r hr y hy (hcircular.references_ne_nil hg)).mp ?_, hcircular⟩
      rw [Table.has, hout]
      rfl
  · rintro ⟨y, hy, hprecedes, hcircular⟩
    have hhas := (hready r hr y hy (hcircular.references_ne_nil hg)).mpr hprecedes
    obtain ⟨outcome, ho⟩ := Option.isSome_iff_exists.mp hhas
    obtain ⟨x, hx, -⟩ := hfaithful.exists_token hy
    rw [(h _ y outcome hy ho).1.mpr hcircular, hg.placed.path_of_findToken hsegments hy] at ho
    exact ⟨⟨x, hx⟩, ho⟩

end

/-- The turn of a token that is ready and no member of a cycle. -/
theorem resolveToken (hg : g.Prepared) (hfaithful : p.Faithful g limit) (hgoing : p.halted = none)
    (h : p.Spread g limit) (ht : g.tokenAt? place = some t)
    (hnew : p.resolver.outcomes.get? t.path = none) (hmember : ¬ g.Member t)
    (hready : p.Ready g t) : (p.resolveToken place).Spread g limit := by
  rcases exists_turn hgoing (hfaithful.pending place t ht hnew).1 with
    ⟨fault, hhalts, -⟩ | ⟨after, c, hadvance, hreports, hturn⟩
  · exact Records.of_halts h hhalts
  obtain ⟨hfailure, hfindings⟩ := hturn.circular_iff (hg.tracked place t ht)
  have hcircular := fun r hr =>
    aliasFinding?_circular_iff hg hfaithful ht hready (r := r) hr h
  refine Records.advance hg hfaithful h ht hadvance hreports hnew ⟨hfailure.trans ?_,
    hfindings.trans ?_⟩
  · rw [Check.failureOf_followed_circular_iff, Group.circularOutcome_iff hmember]
    refine and_congr_right fun _ => and_congr_right fun _ => exists_congr fun before =>
      exists_congr fun r => exists_congr fun after => and_congr_right fun hsplit => ?_
    exact and_congr (hcircular r (hsplit ▸ List.mem_append_cons_self)) <| forall₂_congr fun q hq =>
      aliasFinding?_eq_none_iff hg hfaithful ht hready (hsplit ▸ List.mem_append_left _ hq)
  · rw [Check.hasCircular_followed_iff, Group.CircularProblem, or_iff_right hmember]
    exact exists_congr fun r => and_congr_right fun hr => hcircular r hr

theorem failMember (hg : g.Prepared) (cycle : List String) (hfaithful : p.Faithful g limit)
    (hmember : g.Member t) (hnew : p.resolver.outcomes.get? t.path = none)
    (h : p.Spread g limit) : (p.failMember cycle t.path).Spread g limit := by
  refine Records.advance hg hfaithful h hmember.2
    (hfaithful.advance_failMember cycle hmember.2 hnew)
    (circular_reports cycle t.path) hnew ⟨iff_of_true rfl (.member hmember), ?_⟩
  exact iff_of_true ⟨_, List.mem_cons_self⟩ (Or.inl hmember)

end Spread

end Pass

/-! ### The end of all turns -/

namespace Group

variable {g : Group} {limit : Int} {place : Place} {t : Token}

/-- **Which tokens are reported as circular.** -/
theorem circular_final (hg : g.Prepared) (hgoing : (g.finalPass limit).halted = none)
    (ht : g.tokenAt? place = some t) :
    (∃ e ∈ (g.finalPass limit).problems, e.path = t.path ∧ e.kind = .circular) ↔
      g.CircularProblem limit t := by
  have hkept : Pass.Kept g limit (Pass.Spread g limit) :=
    .of_turns hg (fun cycle => Pass.Spread.failMember hg cycle)
      fun hfaithful hgoing ht hnew hmember hready h =>
        h.resolveToken hg hfaithful hgoing ht hnew hmember hready
  have hstart : (g.firstPass limit).Spread g limit := fun _ _ _ _ ho => by cases ho
  obtain ⟨-, hspread, hall⟩ := finalPass_rounds hg hkept hstart
  obtain ⟨outcome, ho⟩ := Option.isSome_iff_exists.mp (hall hgoing place t ht)
  rw [← Pass.hasCircular_findingsOf_iff]
  exact (hspread place t outcome ht ho).2

theorem reachesCycle_of_circular (hg : g.Prepared) (hgoing : (g.finalPass limit).halted = none)
    {e : Problem} (he : e ∈ (g.finalPass limit).problems) (hkind : e.kind = .circular) :
    ∃ place t, g.tokenAt? place = some t ∧ t.path = e.path ∧ g.ReachesCycle t.path := by
  obtain ⟨place, t, -, ht, hpath, -⟩ := (finalPass_spec hg limit).1.reported e he
  exact ⟨place, t, ht, hpath,
    ((circular_final hg hgoing ht).mp ⟨e, he, hpath.symm, hkind⟩).reachesCycle hg ht⟩

/-- **Which tokens of a document without `$ref` are reported as circular.**  They all reach a cycle.
A token is reported if it reaches a cycle and nothing on its way can fail but by cycles.  There is a
report if the limit and all integers in values have numerals. -/
theorem resolve_circular_iff (document : Value) (maxDepth : Int) (hkeys : document.KeysDistinct)
    (hpaths : ((build document).tokens.map Token.path).Nodup)
    (hrefs : ∀ t ∈ (build document).tokens, t.value.NoRefs) :
    let g := build document
    let outcome := ((Resolver.start maxDepth).resolve g).2.2
    (∀ problems, outcome = .ok problems →
      (∀ t ∈ g.tokens, (∃ e ∈ problems, e.path = t.path ∧ e.kind = .circular) ↔
          g.CircularProblem maxDepth t) ∧
        (∀ e ∈ problems, e.kind = .circular →
          ∃ t ∈ g.tokens, t.path = e.path ∧ g.ReachesCycle t.path) ∧
        (∀ t ∈ g.tokens,
          (∀ u ∈ g.tokens, g.aliasGraph.Reaches t.path u.path → g.ReachesCycle u.path →
            g.FailsByCycles maxDepth u) →
          ((∃ e ∈ problems, e.path = t.path ∧ e.kind = .circular) ↔ g.ReachesCycle t.path))) ∧
      (isWritable maxDepth = true → (∀ t ∈ g.tokens, t.value.HasNumerals) →
        ∃ problems, outcome = .ok problems) := by
  intro g outcome
  have hg : g.Prepared := prepared_build hkeys hpaths fun t ht => (hrefs t ht).refsAreTexts
  have hmem : ∀ {t}, t ∈ g.tokens ↔ ∃ place, g.tokenAt? place = some t :=
    mem_tokens_iff hg.keysDistinct
  have hpointers : ∀ place t, g.tokenAt? place = some t → t.pointers = [] := fun place t ht =>
    (hg.tracked place t ht).pointers_eq_nil (hrefs t (hmem.mpr ⟨place, ht⟩))
  refine ⟨fun problems houtcome => ?_, fun hlimit hnumerals =>
    ⟨_, exists_resolve hkeys hlimit hnumerals⟩⟩
  obtain ⟨hgoing, rfl⟩ : (g.finalPass maxDepth).halted = none ∧
      (g.finalPass maxDepth).problems = problems := Pass.outcome_eq_ok.mp houtcome
  refine ⟨fun t ht => ?_, fun e he hkind => ?_, fun t ht hway => ?_⟩
  · obtain ⟨place, hat⟩ := hmem.mp ht
    exact circular_final hg hgoing hat
  · obtain ⟨place, t, ht, hpath, hreaches⟩ := reachesCycle_of_circular hg hgoing he hkind
    exact ⟨t, hmem.mpr ⟨place, ht⟩, hpath, hreaches⟩
  · obtain ⟨place, hat⟩ := hmem.mp ht
    rw [circular_final hg hgoing hat]
    refine ⟨fun h => h.reachesCycle hg hat, fun hreaches => ?_⟩
    exact (circularOutcome_of_failsByCycles hg hpointers hat hreaches fun other u hu =>
      hway u (hmem.mpr ⟨other, hu⟩)).problem

/-- A document with a cycle and a token `c` that depends on it.  So does the token `t`, but it
depends before on a token that is not there, and `u` depends on `t`. -/
def brokenChain : Value :=
  let token := fun s => Value.object [(valueKey, .text s)]
  .object
    [("a", token "\x7ba\x7d"), ("c", token "\x7ba\x7d"), ("t", token "\x7bnope\x7d \x7ba\x7d"),
      ("u", token "\x7bt\x7d")]

theorem onCycle_brokenChain : (build brokenChain).OnCycle "a" := by
  refine .single ?_
  unfold Graph.Edge
  decide +kernel

theorem reaches_brokenChain {path next : String} (hpath : path = "a" ∨ path = "c")
    (h : (build brokenChain).aliasGraph.Reaches path next) : next = "a" ∨ next = "c" := by
  refine Graph.closed_of_reaches (P := fun path => path = "a" ∨ path = "c") ?_ hpath h
  unfold Graph.Edge
  rintro _ (rfl | rfl)
  · decide +kernel
  · decide +kernel

theorem resolve_circular_iff_brokenChain :
    brokenChain.KeysDistinct ∧ ((build brokenChain).tokens.map Token.path).Nodup ∧
      (∀ t ∈ (build brokenChain).tokens, t.value.NoRefs) ∧ isWritable 10 = true ∧
      (∀ t ∈ (build brokenChain).tokens, t.value.HasNumerals) ∧
      ∃ problems, ((Resolver.start 10).resolve (build brokenChain)).2.2 = .ok problems ∧
        (∀ t ∈ (build brokenChain).tokens,
          (∃ e ∈ problems, e.path = t.path ∧ e.kind = .circular) ↔
            (build brokenChain).CircularProblem 10 t) ∧
        ∀ t ∈ (build brokenChain).tokens, t.path = "a" ∨ t.path = "c" →
          ((∃ e ∈ problems, e.path = t.path ∧ e.kind = .circular) ↔
            (build brokenChain).ReachesCycle t.path) := by
  have hkeys : brokenChain.KeysDistinct := by decide +kernel
  have hpaths : ((build brokenChain).tokens.map Token.path).Nodup := by decide +kernel
  have hrefs : ∀ t ∈ (build brokenChain).tokens, t.value.NoRefs := by decide +kernel
  have hlimit : isWritable 10 = true := by decide +kernel
  have hnumerals : ∀ t ∈ (build brokenChain).tokens, t.value.HasNumerals := by decide +kernel
  obtain ⟨hends, hreturns⟩ := resolve_circular_iff brokenChain 10 hkeys hpaths hrefs
  obtain ⟨problems, hproblems⟩ := hreturns hlimit hnumerals
  obtain ⟨hiff, -, hway⟩ := hends problems hproblems
  refine ⟨hkeys, hpaths, hrefs, hlimit, hnumerals, problems, hproblems, hiff,
    fun t ht hpath => hway t ht fun u hu hreaches _ => ?_⟩
  have hfields : ∀ u ∈ (build brokenChain).tokens, u.path = "a" ∨ u.path = "c" →
      ((build brokenChain).findToken? u.path).isSome = true ∧ u.malformed = [] ∧
        u.references = ["a"] := by decide +kernel
  obtain ⟨hfound, hmalformed, hreferences⟩ := hfields u hu (reaches_brokenChain hpath hreaches)
  refine ⟨fun _ => hfound, hmalformed, fun r hr => ?_⟩
  rw [hreferences, List.mem_singleton] at hr
  obtain ⟨y, hy⟩ : ∃ y, (build brokenChain).findToken? "a" = some y :=
    Option.isSome_iff_exists.mp (by decide +kernel)
  exact ⟨y, hr ▸ hy, fun _ => Or.inl (hr ▸ onCycle_brokenChain),
    Or.inl ⟨"a", hr ▸ .refl, onCycle_brokenChain⟩⟩

/-- A token that depends on a cycle is not reported as circular if the token in between has failed
before for another reason. -/
theorem not_circular_of_broken_chain :
    ∃ problems, ((Resolver.start 10).resolve (build brokenChain)).2.2 = .ok problems ∧
      ∃ t ∈ (build brokenChain).tokens, (build brokenChain).ReachesCycle t.path ∧
        ¬ ∃ e ∈ problems, e.path = t.path ∧ e.kind = .circular := by
  have hmiddle : (build brokenChain).aliasGraph.Edge "t" "a" := by
    unfold Graph.Edge
    decide +kernel
  have hlast : (build brokenChain).aliasGraph.Edge "u" "t" := by
    unfold Graph.Edge
    decide +kernel
  have hreaches : (build brokenChain).ReachesCycle "u" :=
    ⟨"a", .head hlast (.single hmiddle), onCycle_brokenChain⟩
  obtain ⟨t, ht, hpath⟩ : ∃ t ∈ (build brokenChain).tokens, t.path = "u" := by decide +kernel
  have hnone : ((Resolver.start 10).resolve (build brokenChain)).2.2.toOption.map (fun problems =>
      problems.any fun e => e.path = "u" ∧ e.kind = .circular) = some false := by decide +kernel
  cases hresolve : ((Resolver.start 10).resolve (build brokenChain)).2.2 with
  | error fault =>
    rw [hresolve] at hnone
    cases hnone
  | ok problems =>
    rw [hresolve] at hnone
    refine ⟨problems, rfl, t, ht, hpath ▸ hreaches, ?_⟩
    rintro ⟨e, he, hsame, hkind⟩
    refine List.any_eq_false.mp (Option.some.inj hnone) e he ?_
    exact decide_eq_true ⟨hsame.trans hpath, hkind⟩

end Group

end DesignTokens
