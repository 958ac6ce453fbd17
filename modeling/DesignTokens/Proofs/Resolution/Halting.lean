import DesignTokens.Proofs.Reference.Numerals
import DesignTokens.Proofs.Resolution.Precedence

/-!
# What halts a pass

A pass is halted where the limit would have to be put into words or a value into a text, and there
is no numeral for it.  As long as all integers have numerals, this does not happen
(`Resolver.going_pass`).

Which tokens halt a pass can be said without any order of work (`Group.Halting`): all their
references are right, and what they settle on cannot be put together.  Such a token never gets an
outcome, and no other token halts a pass, so a pass comes to its end if and only if there is no
such token (`Group.going_final_iff`).
-/

namespace DesignTokens

/-! ### Integers with numerals -/

namespace Pass

/-- A pass that goes on and holds no integer without a numeral. -/
structure Numbered (p : Pass) : Prop where
  limit : isWritable p.resolver.maxDepth = true
  tokens : ∀ place t, p.tree.tokenAt? place = some t → t.HasNumerals
  going : p.halted = none

namespace Numbered

variable {p q : Pass} {place : Place} {t after : Token} {c : Check} {fault : NumeralFault}

theorem advance (h : p.Numbered) (hq : Advance p q place t.path after c)
    (hafter : after.HasNumerals) : q.Numbered where
  limit := hq.limit_eq ▸ h.limit
  tokens := fun other u hu => by
    by_cases he : other = place
    · rw [he, hq.here] at hu
      exact Option.some.inj hu ▸ hafter
    · exact h.tokens other u (hq.elsewhere other he ▸ hu)
  going := hq.halted.trans h.going

theorem meaning (h : p.Numbered) {path : String} {x : Value}
    (hx : p.tree.meaning path = .ok x) : x.HasNumerals := by
  unfold Group.meaning at hx
  split at hx
  · rename_i u hu
    exact Except.ok.inj hx ▸ (h.tokens _ u hu).resolvedValue
  · cases hx

theorem not_stuck (h : p.Numbered) : ¬ Stuck p t fault := by
  intro hstuck
  cases hstuck with
  | limit _ _ _ hlimit => exact absurd h.limit (by rw [hlimit]; exact Bool.false_ne_true)
  | form _ _ hv =>
    exact Value.failsOnly_substitute (P := Obstacle.IsCause) p.tree.meaning_isCause
      (fun _ _ hx => (h.meaning hx).failsOnly_textForm) t.value _ hv

theorem resolveToken (h : p.Numbered) (place : Place) : (p.resolveToken place).Numbered := by
  cases ht : p.tree.tokenAt? place with
  | none =>
    unfold Pass.resolveToken
    rw [h.going, ht]
    exact h
  | some t =>
    have hnumerals := h.tokens place t ht
    rcases exists_turn h.going ht with ⟨fault, -, hstuck⟩ | ⟨after, c, hadvance, -, hcase⟩
    · exact absurd hstuck h.not_stuck
    refine h.advance hadvance ?_
    cases hcase with
    | plain => exact hnumerals
    | resolved _ _ hv =>
      exact ⟨hnumerals.value, hnumerals.value.substitute (fun _ _ => h.meaning) hv⟩
    | unfit | failed => exact ⟨hnumerals.value, hnumerals.resolvedValue⟩

theorem failMember (h : p.Numbered) (cycle : List String) (member : String) :
    (p.failMember cycle member).Numbered := by
  unfold Pass.failMember
  split
  · exact h
  · exact ⟨h.limit, h.tokens, h.going⟩

end Numbered

end Pass

/-- **A pass over integers with numerals comes to its end.** -/
theorem Resolver.going_pass {r : Resolver} {g : Group} (hlimit : isWritable r.maxDepth = true)
    (h : ∀ place t, g.tokenAt? place = some t → t.HasNumerals) : (r.pass g).halted = none :=
  (pass_induction (I := Pass.Numbered) ⟨hlimit, h, rfl⟩
    (fun _ cycle _ member h => h.failMember cycle member)
    fun _ place h => h.resolveToken place).going

/-! ### Tokens that halt a pass -/

namespace Group

variable {g : Group} {limit : Int} {place : Place} {t : Token} {value : String → Value}
  {fault : NumeralFault}

/-- A token whose references are all right: its aliases name tokens that settle on some values, and
its turn comes after theirs. -/
structure Grounded (g : Group) (limit : Int) (value : String → Value) (t : Token) : Prop where
  malformed : t.malformed = []
  pointers : t.pointers = []
  targets : ∀ r ∈ t.references, ∃ y, g.findToken? r = some y ∧ g.Settles limit y (value r)
  inTime : g.InTime t.path

/-- A token whose references are right, but the limit that its chains are longer than has no
numeral, or an integer among the values has none that has to stand inside a text. -/
inductive Halting (g : Group) (limit : Int) (t : Token) : NumeralFault → Prop
  | limit {value : String → Value} {n : Nat} : g.Grounded limit value t → g.AliasChain t n →
      limit < n → isWritable limit = false → Halting g limit t (.unwritable limit)
  | form {value : String → Value} {fault : NumeralFault} : g.Grounded limit value t →
      (∀ n, g.AliasChain t n → (n : Int) ≤ limit) →
      t.value.substitute (fun r => .ok (value r)) = .error (.numeral fault) →
        Halting g limit t fault

theorem Grounded.not_onCycle (hg : g.Prepared) (ht : g.tokenAt? place = some t)
    (h : g.Grounded limit value t) : ¬ g.OnCycle t.path := by
  intro hcycle
  obtain ⟨other, u, hu, hpath, r, hr, hnext⟩ := hcycle.exists_next hg
  rw [hg.placed.eq_of_path_eq hu ht hpath] at hr
  obtain ⟨y, hy, hsettles⟩ := h.targets r hr
  refine hsettles.not_onCycle hg hy ?_
  rw [hg.placed.path_of_findToken ((hg.tracked place t ht).hasSegments r hr) hy]
  exact hnext

/-- What the aliases of such a token stand for is put together in the same way whenever they have
these values. -/
theorem Grounded.substitute_eq (hg : g.Prepared) (ht : g.tokenAt? place = some t)
    (h : g.Grounded limit value t) {meaning : String → Except Obstacle Value}
    (hmeaning : ∀ r ∈ t.references, meaning r = .ok (value r)) :
    t.value.substitute meaning = t.value.substitute fun r => .ok (value r) := by
  have htracked := hg.tracked place t ht
  exact Value.substitute_congr (htracked.onlyAliases h.pointers h.malformed) fun a ha =>
    hmeaning a (htracked.mem_references ha)

theorem Halting.references_ne_nil (hg : g.Prepared) (ht : g.tokenAt? place = some t)
    (h : g.Halting limit t fault) : t.references ≠ [] := by
  cases h with
  | limit _ hchain => exact hchain.references_ne_nil
  | form hgrounded _ hsub =>
    intro hnone
    have htracked := hg.tracked place t ht
    have honly := htracked.onlyAliases hgrounded.pointers hgrounded.malformed
    have hresolved := htracked.resolved_iff.mpr ⟨hnone, hgrounded.pointers, hgrounded.malformed⟩
    rw [Value.substitute_of_occurrences_eq_nil honly (htracked.occurrences_eq_nil hresolved)]
      at hsub
    cases hsub

theorem Halting.grounded (h : g.Halting limit t fault) : ∃ value, g.Grounded limit value t := by
  cases h with
  | limit hgrounded => exact ⟨_, hgrounded⟩
  | form hgrounded => exact ⟨_, hgrounded⟩

end Group

namespace Pass

variable {g : Group} {limit : Int} {p : Pass} {place : Place} {t : Token} {fault : NumeralFault}

/-- A token whose targets have succeeded when its turn comes is in time. -/
theorem Ready.inTime (hg : g.Prepared) (h : p.Faithful g limit) (ht : g.tokenAt? place = some t)
    (hready : p.Ready g t)
    (hall : ∀ r ∈ t.references, ∀ y, g.findToken? r = some y → y.references ≠ [] →
      p.resolver.outcomes.get? y.path = some none) : g.InTime t.path := by
  intro q hq hne u hu hpath r hr y hy hyne
  rw [hg.placed.eq_of_path_eq hu ht hpath] at hr
  have hsuccess := hall r hr y hy hyne
  rcases (hready r hr y hy hyne).mp (by rw [Table.has, hsuccess]; rfl) with hcycle | hbefore
  · obtain ⟨v, hv, -⟩ := h.succeeded _ y hy hsuccess
    rw [← hg.placed.path_of_findToken ((hg.tracked place t ht).hasSegments r hr) hy] at hcycle
    exact absurd hcycle (hv.not_onCycle hg hy)
  · exact hbefore q hq hne u hu hpath

/-- What keeps a turn from coming to its end is said of the token without any order of work. -/
theorem Stuck.halting (hg : g.Prepared) (h : p.Faithful g limit) (ht : g.tokenAt? place = some t)
    (hready : p.Ready g t) (hstuck : Stuck p t fault) : g.Halting limit t fault := by
  have hgrounded : (Check.followed p.tree p.resolver t).failure = none →
      g.Grounded limit (fun r => ((p.tree.findToken? r).map Token.resolvedValue).getD .null) t := by
    intro hc
    obtain ⟨hmalformed, hpointers, -⟩ := Check.failure_followed_iff.mp hc
    refine ⟨hmalformed, hpointers, fun r hr => ?_, hready.inTime hg h ht fun r hr y hy hne => ?_⟩
    · obtain ⟨x, y, hx, hy, hsettles, -⟩ := h.targets_of_followed hg ht hc hr
      rw [hx]
      exact ⟨y, hy, hsettles⟩
    · obtain ⟨_, z, -, hz, -, -, hsuccess⟩ := h.targets_of_followed hg ht hc hr
      rw [← Option.some.inj (hy.symm.trans hz)] at hsuccess
      exact hsuccess hne
  cases hstuck with
  | limit hnew hc hdeep hlimit =>
    have hreferences : t.references ≠ [] := fun hnone => by
      obtain ⟨hmalformed, hpointers, -⟩ := Check.failure_followed_iff.mp hc
      rw [(hg.tracked place t ht).resolved_iff.mpr ⟨hnone, hpointers, hmalformed⟩, hnone] at hnew
      cases hnew
    rw [h.limit_eq] at hdeep hlimit ⊢
    exact .limit (hgrounded hc) (h.aliasChain_followed hg ht hreferences hc) hdeep hlimit
  | form _ hc hv =>
    obtain ⟨hfollowed, hdepth⟩ := Check.failure_checked_iff.mp hc
    refine .form (hgrounded hfollowed) (fun n hn => ?_) ?_
    · rw [h.limit_eq] at hdepth
      have hle := (h.isLongest_followed hg ht hfollowed).bound n hn
      omega
    · rw [← hv]
      refine ((hgrounded hfollowed).substitute_eq hg ht fun r hr => ?_).symm
      obtain ⟨x, -, hx, -⟩ := h.targets_of_followed hg ht hfollowed hr
      unfold Group.meaning
      rw [hx]
      rfl

theorem Faithful.followed_of_grounded (hg : g.Prepared) (h : p.Faithful g limit)
    (ht : g.tokenAt? place = some t) (hready : p.Ready g t) {value : String → Value}
    (hgrounded : g.Grounded limit value t) :
    (Check.followed p.tree p.resolver t).failure = none := by
  refine Check.failure_followed_iff.mpr ⟨hgrounded.malformed, hgrounded.pointers, fun r hr => ?_⟩
  obtain ⟨y, hy, hsettles⟩ := hgrounded.targets r hr
  refine h.target_of_settles hg ((hg.tracked place t ht).hasSegments r hr) hy hsettles fun hne => ?_
  exact (hready r hr y hy hne).mpr
    (Group.precedes_of_inTime hg ht hgrounded.inTime hr hy hne)

/-- Its turn halts the pass. -/
theorem halted_of_halting (hg : g.Prepared) (h : p.Faithful g limit) (hgoing : p.halted = none)
    (ht : g.tokenAt? place = some t) (hnew : p.resolver.outcomes.get? t.path = none)
    (hready : p.Ready g t) (hhalting : g.Halting limit t fault) :
    Halts p (p.resolveToken place) fault := by
  obtain ⟨value', hgrounded'⟩ := hhalting.grounded
  have hfollowed := h.followed_of_grounded hg ht hready hgrounded'
  have hreferences := hhalting.references_ne_nil hg ht
  have hlongest := h.isLongest_followed hg ht hfollowed
  have hplain : ¬ (t.resolved && t.references.isEmpty) = true := by
    simp [hreferences]
  rw [resolveToken_eq hgoing (h.pending place t ht hnew).1, if_neg hplain]
  cases hhalting with
  | limit _ hchain hdeep hlimit =>
    have hle := hlongest.bound _ hchain
    rw [← h.limit_eq] at hdeep hlimit ⊢
    rw [turn_of_deep hfollowed (by omega), hlimit]
    exact halts_halt (Check.storedDepth_followed p.tree p.resolver t)
  | form hgrounded hwithin hsub =>
    have hdepth := hwithin _ (h.aliasChain_followed hg ht hreferences hfollowed)
    rw [turn_of_within hfollowed (h.limit_eq.symm ▸ hdepth),
      hgrounded.substitute_eq hg ht fun r hr => ?_, hsub]
    · exact halts_halt (Check.storedDepth_checked p.tree p.resolver t)
    · obtain ⟨x, y, hx, hy, hsettles, -⟩ := h.targets_of_followed hg ht hfollowed hr
      obtain ⟨z, hz, hsettles'⟩ := hgrounded.targets r hr
      rw [← Option.some.inj (hy.symm.trans hz)] at hsettles'
      unfold Group.meaning
      rw [hx]
      exact congrArg Except.ok (hsettles.unique hg hy hsettles')

/-- The invariant of the rounds: tokens that halt a pass have no outcome, and a pass is halted by
one of them. -/
structure Watched (g : Group) (limit : Int) (p : Pass) : Prop where
  pending : ∀ place t fault, g.tokenAt? place = some t → g.Halting limit t fault →
    p.resolver.outcomes.get? t.path = none
  halted : ∀ fault, p.halted = some fault →
    ∃ place t, g.tokenAt? place = some t ∧ g.Halting limit t fault

theorem kept_watched (hg : g.Prepared) : Kept g limit (Watched g limit) := by
  refine .of_turns hg (fun {p} cycle t hfaithful hmember hout hwatched => ?_)
    (fun {p place t} hfaithful hgoing ht hout hmember hready hwatched => ?_)
  · refine ⟨fun place u fault hu hhalting => ?_, fun fault hhalted => ?_⟩
    · have hne : u.path ≠ t.path := by
        intro hpath
        obtain ⟨value, hgrounded⟩ := hhalting.grounded
        exact hgrounded.not_onCycle hg hu (hpath ▸ hmember.1)
      rw [(hfaithful.failMember hg cycle hmember.2 hout hmember.1).2,
        Table.get?_put_of_ne _ _ hne]
      exact hwatched.pending place u fault hu hhalting
    · exact hwatched.halted fault ((halted_failMember p cycle t.path).symm.trans hhalted)
  · rcases exists_turn hgoing (hfaithful.pending place t ht hout).1 with
      ⟨fault, hhalts, hstuck⟩ | ⟨after, c, hadvance, -, -⟩
    · refine ⟨fun other u other' hu hhalting => ?_, fun fault' hhalted => ?_⟩
      · rw [hhalts.outcomes]
        exact hwatched.pending other u other' hu hhalting
      · rw [Option.some.inj (hhalted.symm.trans hhalts.halted)]
        exact ⟨place, t, ht, hstuck.halting hg hfaithful ht hready⟩
    · refine ⟨fun other u fault hu hhalting => ?_, fun fault hhalted => ?_⟩
      · have hne : u.path ≠ t.path := by
          intro hpath
          rw [hg.placed.eq_of_path_eq hu ht hpath] at hhalting
          have hhalts := halted_of_halting hg hfaithful hgoing ht hout hready hhalting
          have hnone := hadvance.halted.trans hgoing
          exact absurd (hhalts.halted.symm.trans hnone) (Option.some_ne_none fault)
        rw [hadvance.outcomes, Table.get?_put_of_ne _ _ hne]
        exact hwatched.pending other u fault hu hhalting
      · exact absurd (hhalted.symm.trans (hadvance.halted.trans hgoing)) (Option.some_ne_none fault)

end Pass

namespace Group

variable {g : Group} {limit : Int}

/-- **A pass comes to its end if and only if no token halts it.** -/
theorem going_final_iff (hg : g.Prepared) (limit : Int) :
    (g.finalPass limit).halted = none ↔
      ∀ place t fault, g.tokenAt? place = some t → ¬ g.Halting limit t fault := by
  have hstart : (g.firstPass limit).Watched g limit := ⟨fun _ _ _ _ _ => rfl, nofun⟩
  obtain ⟨-, hwatched, hall⟩ := finalPass_rounds hg (Pass.kept_watched hg) hstart
  constructor
  · intro hgoing place t fault ht hhalting
    have hhas := hall hgoing place t ht
    rw [Table.has, hwatched.pending place t fault ht hhalting] at hhas
    cases hhas
  · intro hnone
    cases hhalted : (g.finalPass limit).halted with
    | none => rfl
    | some fault =>
      obtain ⟨place, t, ht, hhalting⟩ := hwatched.halted fault hhalted
      exact absurd hhalting (hnone place t fault ht)

end Group

end DesignTokens
