import DesignTokens.Proofs.Resolution.Precedence
import DesignTokens.Proofs.Resolution.Reports

/-!
# Resolution of a tree in which every alias leads to a token

`Group.Navigable` is what a tree is like in which resolution finds nothing missing and nothing
circular: only aliases are left to follow, they lead to tokens and form no cycle, and every token
has its turn after those to which it refers.  Chains may still be too long and values unfit for a
text.

The turn of a token finds what its targets have ended with, so no kind but these two comes up if
none has come up before (`Pass.Mild.resolveToken`), and at the end none has (`Group.mild_final`).
-/

namespace DesignTokens

/-- A kind of problem that no reference causes by leading nowhere or back to where it stands. -/
def ProblemKind.Mild (kind : ProblemKind) : Prop := kind ≠ .missing ∧ kind ≠ .circular

/-- A tree in which only aliases are left to follow, these lead to tokens and form no cycle, and
every token has its turn in time. -/
structure Group.Navigable (g : Group) : Prop where
  pointers : ∀ place t, g.tokenAt? place = some t → t.pointers = []
  malformed : ∀ place t, g.tokenAt? place = some t → t.malformed = []
  found : ∀ place t, g.tokenAt? place = some t → ∀ r ∈ t.references,
    ∃ y, g.findToken? r = some y
  acyclic : ∀ path, ¬ g.OnCycle path
  inTime : ∀ place t, g.tokenAt? place = some t → g.InTime t.path

namespace Pass

/-- No token has failed and nothing is reported because a reference leads nowhere or in a circle. -/
structure Mild (p : Pass) : Prop where
  outcomes : ∀ path kind, p.resolver.outcomes.get? path = some (some kind) → kind.Mild
  problems : ∀ e ∈ p.problems, e.kind.Mild

namespace Mild

variable {g : Group} {limit : Int} {p q : Pass} {place : Place} {t after : Token} {c : Check}
  {path r : String}

/-- **The step lemma**: a turn that finds nothing of these kinds adds nothing of them. -/
theorem advance (h : p.Mild) (hq : Advance p q place path after c) (hheaded : c.Headed)
    (hfound : ∀ f ∈ c.findings, f.1.Mild) : q.Mild where
  outcomes := fun other kind ho => by
    rw [hq.outcomes] at ho
    by_cases hpath : other = path
    · rw [hpath, Table.get?_put_self] at ho
      have hfirst : failureOf c.findings = some kind := hheaded.symm.trans (Option.some.inj ho)
      obtain ⟨f, hf, rfl⟩ := Option.map_eq_some_iff.mp hfirst
      exact hfound f (List.mem_of_mem_head? hf)
    · rw [Table.get?_put_of_ne _ _ hpath] at ho
      exact h.outcomes other kind ho
  problems := fun e he => by
    rw [hq.problems] at he
    rcases List.mem_append.mp he with he | he
    · exact h.problems e he
    · exact hfound _ (List.mem_map.mpr ⟨e, he, rfl⟩)

theorem of_halts {fault : NumeralFault} (h : p.Mild) (hq : Halts p q fault) : q.Mild where
  outcomes := hq.outcomes ▸ h.outcomes
  problems := hq.problems ▸ h.problems

/-- What is found wrong with an alias is what its target has ended with: a target without aliases
is resolved, and one with aliases has had its turn. -/
theorem aliasFinding (hg : g.Prepared) (hnavigable : g.Navigable) (hfaithful : p.Faithful g limit)
    (h : p.Mild) (ht : g.tokenAt? place = some t) (hr : r ∈ t.references)
    (hdone : ∀ y, g.findToken? r = some y → y.references ≠ [] →
      p.resolver.outcomes.has y.path = true)
    {f : Finding} (hf : Check.aliasFinding? p.tree p.resolver.outcomes r = some f) : f.1.Mild := by
  obtain ⟨y, hy⟩ := hnavigable.found place t ht r hr
  have hpath := hg.placed.path_of_findToken ((hg.tracked place t ht).hasSegments r hr) hy
  obtain ⟨u, hu, -⟩ := hfaithful.exists_token hy
  unfold Check.aliasFinding? at hf
  rw [hfaithful.findToken?_eq, hu] at hf
  obtain ⟨kind, hkind, rfl⟩ := Option.map_eq_some_iff.mp hf
  unfold Check.outcomeOf at hkind
  cases hget : p.resolver.outcomes.get? r with
  | some outcome =>
    rw [hget] at hkind
    obtain rfl : outcome = some kind := hkind
    exact h.outcomes r kind hget
  | none =>
    have hnone : y.references = [] := by
      by_contra hne
      have hhas := hdone y hy hne
      rw [Table.has, hpath, hget] at hhas
      cases hhas
    have hresolved : y.resolved = true := (hg.tracked _ y hy).resolved_iff.mpr
      ⟨hnone, hnavigable.pointers _ y hy, hnavigable.malformed _ y hy⟩
    obtain ⟨hpending, -⟩ := hfaithful.pending _ y hy (hpath ▸ hget)
    obtain rfl := Option.some.inj (hpending.symm.trans hu)
    rw [hget] at hkind
    dsimp only at hkind
    rw [if_pos hresolved] at hkind
    cases hkind

/-- The turn of a token whose targets have had theirs. -/
theorem resolveToken (hg : g.Prepared) (hnavigable : g.Navigable)
    (hfaithful : p.Faithful g limit) (hgoing : p.halted = none) (ht : g.tokenAt? place = some t)
    (hnew : p.resolver.outcomes.get? t.path = none)
    (hdone : ∀ r ∈ t.references, ∀ y, g.findToken? r = some y → y.references ≠ [] →
      p.resolver.outcomes.has y.path = true) (h : p.Mild) : (p.resolveToken place).Mild := by
  rcases exists_turn hgoing (hfaithful.pending place t ht hnew).1 with
    ⟨fault, hhalts, -⟩ | ⟨after, c, hadvance, -, hturn⟩
  · exact h.of_halts hhalts
  refine h.advance hadvance hturn.headed ?_
  rcases hturn.findings_cases (hg.tracked place t ht) with he | ⟨-, kind, hkind, he⟩
  · intro f hf
    rw [he, Check.findings_followed, hnavigable.malformed place t ht,
      hnavigable.pointers place t ht] at hf
    obtain ⟨r, hr, hf⟩ := List.mem_filterMap.mp hf
    exact h.aliasFinding hg hnavigable hfaithful ht hr (hdone r hr) hf
  · intro f hf
    rw [he] at hf
    rw [List.mem_singleton.mp hf]
    rcases hkind with rfl | rfl
    · exact ⟨nofun, nofun⟩
    · exact ⟨nofun, nofun⟩

theorem kept (hg : g.Prepared) (hnavigable : g.Navigable) : Kept g limit Mild :=
  .of_turns hg (fun _ _ _ hmember _ _ => absurd hmember.1 (hnavigable.acyclic _))
    fun hfaithful hgoing ht hnew _ hready h =>
      h.resolveToken hg hnavigable hfaithful hgoing ht hnew fun r hr y hy hne =>
        (hready r hr y hy hne).mpr
          (Group.precedes_of_inTime hg ht (hnavigable.inTime _ _ ht) hr hy hne)

end Mild

end Pass

/-- **Resolution of a tree in which every alias leads to a token finds nothing missing and nothing
circular.** -/
theorem Group.mild_final {g : Group} (hg : g.Prepared) (hnavigable : g.Navigable) (limit : Int) :
    (g.finalPass limit).Mild := by
  have hstart : (g.firstPass limit).Mild :=
    { outcomes := fun _ _ ho => by cases ho
      problems := fun _ he => absurd he List.not_mem_nil }
  exact (finalPass_rounds hg (Pass.Mild.kept hg hnavigable) hstart).2.1

end DesignTokens
