import DesignTokens.Proofs.Resolution.Outcome
import DesignTokens.Proofs.Resolution.Precedence
import DesignTokens.Proofs.Resolution.Reports

/-!
# Every broken reference is named

A reference of a token is broken in the end if it is a malformed text, a pointer that is left, or an
alias that leads to no resolved token (`Group.Breaks`).  A pass names each broken reference in a
problem with the path of the token, unless the token is a member of a cycle and reported as such
(`Group.blamed_final`).

While the pass goes on, it is the tokens that settle which count (`Group.Hinders`): an alias is
without a finding only if its target has settled (`Faithful.names_of_turn`), and what has settled
is resolved in the end.
-/

namespace DesignTokens

/-- A problem of a token names a reference. -/
def Names (problems : List Problem) (path reference : String) : Prop :=
  ∃ e ∈ problems, e.path = path ∧ e.reference = some reference

theorem Names.mono {problems others : List Problem} {path reference : String}
    (h : Names problems path reference) (hsub : ∀ e ∈ problems, e ∈ others) :
    Names others path reference := by
  obtain ⟨e, he, hpath⟩ := h
  exact ⟨e, hsub e he, hpath⟩

/-- A token is reported as a member of a cycle. -/
def ReportedCircular (problems : List Problem) (path : String) : Prop :=
  ∃ e ∈ problems, e.kind = .circular ∧ e.path = path ∧ e.reference = some (Alias.ofPath path)

namespace Group

/-- A reference that keeps a token from settling. -/
inductive Hinders (g : Group) (limit : Int) (t : Token) : String → Prop
  | malformed {text : String} : text ∈ t.malformed → Hinders g limit t text
  | pointer {ref : String} : ref ∈ t.pointers → Hinders g limit t ref
  | aliasOf {named : String} : named ∈ t.references →
      (∀ y v, g.findToken? named = some y → ¬ g.Settles limit y v) →
      Hinders g limit t (Alias.ofPath named)

theorem Hinders.not_settles {g : Group} {limit : Int} {t : Token} {reference : String}
    (h : g.Hinders limit t reference) (v : Value) : ¬ g.Settles limit t v := by
  intro hv
  cases hv with
  | intro target value hmalformed hpointers hfound hsettles _ _ _ =>
    cases h with
    | malformed hm => exact List.not_mem_nil (hmalformed ▸ hm)
    | pointer hm => exact List.not_mem_nil (hpointers ▸ hm)
    | aliasOf hm hall => exact hall _ _ (hfound _ hm) (hsettles _ hm)

/-- Every reference that hinders a token is named, or the token is reported as a member of a
cycle. -/
def Blames (g : Group) (limit : Int) (problems : List Problem) (t : Token) : Prop :=
  (g.OnCycle t.path ∧ ReportedCircular problems t.path) ∨
    ∀ reference, g.Hinders limit t reference → Names problems t.path reference

theorem Blames.mono {g : Group} {limit : Int} {problems others : List Problem} {t : Token}
    (h : g.Blames limit problems t) (hsub : ∀ e ∈ problems, e ∈ others) :
    g.Blames limit others t := by
  rcases h with ⟨hcycle, e, he, hcircular⟩ | hnames
  · exact Or.inl ⟨hcycle, e, hsub e he, hcircular⟩
  · exact Or.inr fun reference href => (hnames reference href).mono hsub

end Group

namespace Pass

variable {g : Group} {limit : Int} {p q : Pass} {place : Place} {t after : Token} {c : Check}

/-- Where the references of a token are not all right, its turn names each that hinders it. -/
theorem Faithful.names_of_turn (hg : g.Prepared) (h : p.Faithful g limit)
    (ht : g.tokenAt? place = some t) (hturn : p.Turn t after c) (hreports : c.Reports t.path)
    (hfailed : c.failure ≠ none) {reference : String} (href : g.Hinders limit t reference) :
    Names c.problems t.path reference := by
  have hnot : (Check.followed p.tree p.resolver t).failure ≠ none := by
    intro hf
    obtain ⟨hmalformed, hpointers, -⟩ := Check.failure_followed_iff.mp hf
    cases href with
    | malformed hm => exact List.not_mem_nil (hmalformed ▸ hm)
    | pointer hm => exact List.not_mem_nil (hpointers ▸ hm)
    | aliasOf hm hall =>
      obtain ⟨x, y, -, hy, hsettles, -⟩ := h.targets_of_followed hg ht hf hm
      exact hall y _ hy hsettles
  have hc : c = Check.followed p.tree p.resolver t := by
    have hchecked := Check.checked_of_failure hnot
    cases hturn with
    | plain => exact absurd rfl hfailed
    | resolved _ hf _ => exact absurd hf hfailed
    | unfit _ hf _ => exact absurd (Check.failure_checked_iff.mp hf).1 hnot
    | failed => exact hchecked
  have hfound : ∃ kind, (kind, some reference) ∈ c.findings := by
    rw [hc, Check.findings_followed]
    simp only [List.mem_append, List.mem_map, List.mem_filterMap]
    cases href with
    | malformed hm => exact ⟨_, Or.inl (Or.inl ⟨_, hm, rfl⟩)⟩
    | pointer hm => exact ⟨_, Or.inl (Or.inr ⟨_, hm, rfl⟩)⟩
    | @aliasOf named hm hall =>
      have hsome : ∃ kind, Check.aliasFinding? p.tree p.resolver.outcomes named =
          some (kind, some (Alias.ofPath named)) := by
        unfold Check.aliasFinding?
        cases hx : p.tree.findToken? named with
        | none => exact ⟨_, rfl⟩
        | some x =>
          dsimp only
          cases ho : Check.outcomeOf p.resolver.outcomes named x with
          | some kind => exact ⟨kind, rfl⟩
          | none =>
            obtain ⟨y, hy, hsettles, -⟩ :=
              h.target_settles hg ((hg.tracked place t ht).hasSegments named hm) hx ho
            exact absurd hsettles (hall y _ hy)
      obtain ⟨kind, hkind⟩ := hsome
      exact ⟨kind, Or.inr ⟨named, hm, hkind⟩⟩
  obtain ⟨kind, hfinding⟩ := hfound
  obtain ⟨e, he, hsame⟩ := List.mem_map.mp hfinding
  exact ⟨e, he, hreports.path_eq e he, congrArg Prod.snd hsame⟩

/-- What the problems say of the tokens that have failed. -/
def Blamed (g : Group) (limit : Int) (p : Pass) : Prop :=
  ∀ place t kind, g.tokenAt? place = some t →
    p.resolver.outcomes.get? t.path = some (some kind) → g.Blames limit p.problems t

namespace Blamed

/-- **The step lemma**: a turn keeps the invariant if it blames the references of its token when it
fails. -/
theorem advance (hg : g.Prepared) (h : p.Blamed g limit) (ht : g.tokenAt? place = some t)
    (hq : Advance p q place t.path after c)
    (hblames : c.failure ≠ none → g.Blames limit c.problems t) : q.Blamed g limit := by
  intro other u kind hu ho
  by_cases hpath : u.path = t.path
  · rw [hg.placed.eq_of_path_eq hu ht hpath, hq.problems]
    rw [hpath, hq.outcomes, Table.get?_put_self] at ho
    refine (hblames ?_).mono fun e he => List.mem_append_right _ he
    rw [Option.some.inj ho]
    exact Option.some_ne_none kind
  · rw [hq.problems]
    refine (h other u kind hu ?_).mono fun e he => List.mem_append_left _ he
    exact (hq.unchanged ht hu hpath).1 ▸ ho

theorem of_halts {fault : NumeralFault} (h : p.Blamed g limit) (hq : Halts p q fault) :
    q.Blamed g limit := by
  unfold Blamed
  rw [hq.outcomes, hq.problems]
  exact h

theorem resolveToken (hg : g.Prepared) (hfaithful : p.Faithful g limit) (hgoing : p.halted = none)
    (h : p.Blamed g limit) (ht : g.tokenAt? place = some t)
    (hnew : p.resolver.outcomes.get? t.path = none) : (p.resolveToken place).Blamed g limit := by
  rcases exists_turn hgoing (hfaithful.pending place t ht hnew).1 with
    ⟨fault, hhalts, -⟩ | ⟨after, c, hadvance, hreports, hturn⟩
  · exact h.of_halts hhalts
  exact h.advance hg ht hadvance fun hfailed => Or.inr fun reference href =>
    hfaithful.names_of_turn hg ht hturn hreports hfailed href

theorem failMember (hg : g.Prepared) (cycle : List String) (hfaithful : p.Faithful g limit)
    (hmember : g.Member t) (hnew : p.resolver.outcomes.get? t.path = none)
    (h : p.Blamed g limit) : (p.failMember cycle t.path).Blamed g limit := by
  refine h.advance hg hmember.2 (hfaithful.advance_failMember cycle hmember.2 hnew) fun _ =>
    Or.inl ⟨hmember.1, _, List.mem_cons_self, rfl, rfl, rfl⟩

end Blamed

end Pass

namespace Group

variable {g : Group} {limit : Int} {place : Place} {t u : Token}

/-- A reference of a token that is broken: malformed, a pointer, or an alias that leads to no
resolved token. -/
inductive Breaks (g : Group) (t : Token) : String → Prop
  | malformed {text : String} : text ∈ t.malformed → Breaks g t text
  | pointer {ref : String} : ref ∈ t.pointers → Breaks g t ref
  | aliasOf {named : String} : named ∈ t.references →
      (∀ y, g.findToken? named = some y → y.resolved = false) → Breaks g t (Alias.ofPath named)

/-- **Every broken reference is named in the end**, unless the token is on a cycle and reported as
such. -/
theorem blamed_final (hg : g.Prepared) (hgoing : (g.finalPass limit).halted = none)
    (hu : (g.finalPass limit).tree.tokenAt? place = some u) {reference : String}
    (hbreaks : (g.finalPass limit).tree.Breaks u reference) :
    Names (g.finalPass limit).problems u.path reference ∨
      (g.OnCycle u.path ∧ ReportedCircular (g.finalPass limit).problems u.path) := by
  have hkept : Pass.Kept g limit (Pass.Blamed g limit) :=
    .of_turns hg (fun cycle => Pass.Blamed.failMember hg cycle)
      fun hfaithful hgoing ht hnew _ _ h => h.resolveToken hg hfaithful hgoing ht hnew
  have hstart : (g.firstPass limit).Blamed g limit := fun _ _ _ _ ho => by cases ho
  obtain ⟨hfaithful, hblamed, hall⟩ := finalPass_rounds hg hkept hstart
  have ht : ∃ t, g.tokenAt? place = some t := by
    refine Option.ne_none_iff_exists'.mp fun hnone => ?_
    rw [hfaithful.absent place hnone] at hu
    cases hu
  obtain ⟨t, ht⟩ := ht
  have hsource := source_eq_of_final hg ht hu
  obtain ⟨hpath, -, hreferences, hmalformed⟩ := Token.eq_of_source hsource
  have hpointers : u.pointers = t.pointers :=
    show u.source.pointers = t.source.pointers from congrArg Token.pointers hsource
  have hhinders : g.Hinders limit t reference := by
    cases hbreaks with
    | malformed hm => exact .malformed (hmalformed ▸ hm)
    | pointer hm => exact .pointer (hpointers ▸ hm)
    | aliasOf hm hall =>
      refine .aliasOf (hreferences ▸ hm) fun y v hy hsettles => ?_
      have hfinal := hall _ (findToken?_of_settles hg hgoing hy hsettles)
      cases hfinal
  rw [hpath]
  obtain ⟨outcome, ho⟩ := Option.isSome_iff_exists.mp (hall hgoing place t ht)
  cases outcome with
  | none =>
    obtain ⟨v, hsettles, -⟩ := hfaithful.succeeded place t ht ho
    exact absurd hsettles (hhinders.not_settles v)
  | some kind => exact (hblamed place t kind ht ho).symm.imp_left fun hnames => hnames _ hhinders

end Group

end DesignTokens
