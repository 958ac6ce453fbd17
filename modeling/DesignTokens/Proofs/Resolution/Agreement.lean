import DesignTokens.Proofs.Resolution.Outcome
import DesignTokens.Proofs.Resolution.Reports

/-!
# Trees with the same tokens

Resolution goes through a tree in an order that depends on the order of its groups.  What comes of
it does not, where every token is found by its own path: two such trees with the same tokens at the
same places have the same cycles and chains of aliases (`Agree.onCycle`, `Agree.aliasChain`), their
tokens settle on the same values (`Agree.settles`), halt a pass alike (`Agree.halting`) and end with
the same findings (`Agree.ends`).  So resolution comes to its end for both or for neither
(`Agree.going_iff`); if it does, the tokens are resolved alike (`Agree.tokenAt?_final`), and the
problems differ in their order (`Agree.problems_perm`).
-/

namespace DesignTokens

namespace Group

/-- Two trees that are ready for resolution, with the same tokens at the same places, each of which
is found by its own path. -/
structure Agree (g h : Group) : Prop where
  left : g.Prepared
  right : h.Prepared
  found : g.Found
  tokenAt?_eq : ∀ place, h.tokenAt? place = g.tokenAt? place

namespace Agree

variable {g h : Group} {limit : Int} {t : Token}

theorem placeOf_eq (hs : g.Agree h) (path : String) : h.placeOf path = g.placeOf path := by
  unfold placeOf
  rw [hs.left.label_path, hs.right.label_path]

theorem findToken?_eq (hs : g.Agree h) (path : String) :
    h.findToken? path = g.findToken? path := by
  show h.tokenAt? (h.placeOf path) = g.tokenAt? (g.placeOf path)
  rw [hs.placeOf_eq, hs.tokenAt?_eq]

theorem symm (hs : g.Agree h) : h.Agree g where
  left := hs.right
  right := hs.left
  found := fun place t ht =>
    (hs.placeOf_eq t.path).trans (hs.found place t (hs.tokenAt?_eq place ▸ ht))
  tokenAt?_eq := fun place => (hs.tokenAt?_eq place).symm

theorem direct (hs : g.Agree h) : g.Direct := hs.found.direct hs.left.label_path

/-! ### What is said of the tokens -/

theorem edge (hs : g.Agree h) {u v : String} (he : g.aliasGraph.Edge u v) :
    h.aliasGraph.Edge u v := by
  obtain ⟨place, t, ht, hedge⟩ := (edge_aliasGraph_iff hs.left).mp he
  exact (edge_aliasGraph_iff hs.right).mpr ⟨place, t, (hs.tokenAt?_eq place).trans ht, hedge⟩

theorem onCycle (hs : g.Agree h) {path : String} (hcycle : g.OnCycle path) : h.OnCycle path :=
  Relation.TransGen.mono (fun _ _ he => hs.edge he) _ _ hcycle

theorem aliasChain (hs : g.Agree h) {n : Nat} (hchain : g.AliasChain t n) : h.AliasChain t n := by
  induction hchain with
  | one hr => exact .one hr
  | more hr hx _ ih => exact .more hr ((hs.findToken?_eq _).trans hx) ih

theorem settles (hs : g.Agree h) {v : Value} (hv : g.Settles limit t v) : h.Settles limit t v := by
  induction hv with
  | intro target value hmalformed hpointers hfound _ hwithin _ hvalue ih =>
    exact .intro target value hmalformed hpointers
      (fun r hr => (hs.findToken?_eq r).trans (hfound r hr)) ih
      (fun n hn => hwithin n (hs.symm.aliasChain hn)) (inTime_of_direct hs.symm.direct _) hvalue

theorem grounded (hs : g.Agree h) {value : String → Value} (ht : g.Grounded limit value t) :
    h.Grounded limit value t where
  malformed := ht.malformed
  pointers := ht.pointers
  targets := fun r hr => by
    obtain ⟨y, hy, hv⟩ := ht.targets r hr
    exact ⟨y, (hs.findToken?_eq r).trans hy, hs.settles hv⟩
  inTime := inTime_of_direct hs.symm.direct _

theorem halting (hs : g.Agree h) {fault : NumeralFault} (ht : g.Halting limit t fault) :
    h.Halting limit t fault := by
  cases ht with
  | limit hgrounded hchain hdeep hlimit =>
    exact .limit (hs.grounded hgrounded) (hs.aliasChain hchain) hdeep hlimit
  | form hgrounded hwithin hsub =>
    exact .form (hs.grounded hgrounded) (fun n hn => hwithin n (hs.symm.aliasChain hn)) hsub

theorem concludes (hs : g.Agree h) {base found : List Finding}
    (hc : g.Concludes limit t base found) : h.Concludes limit t base found := by
  cases hc with
  | references hne => exact .references hne
  | deep hchain hlimit => exact .deep (hs.aliasChain hchain) hlimit
  | settled hv => exact .settled (hs.settles hv)
  | unfit hbound hnot =>
    exact .unfit (fun n hn => hbound n (hs.symm.aliasChain hn)) fun v hv =>
      hnot v (hs.symm.settles hv)

theorem referenceFindings_eq (hs : g.Agree h) (ending : String → List Finding) (t : Token) :
    h.referenceFindings ending t = g.referenceFindings ending t := by
  unfold referenceFindings
  refine congrArg _ (List.filterMap_congr fun r _ => ?_)
  rw [hs.findToken?_eq]

theorem ends (hs : g.Agree h) {found : List Finding} (he : g.Ends limit t found) :
    h.Ends limit t found := by
  induction he with
  | cycle hcycle => exact .cycle (hs.onCycle hcycle)
  | turn ending hnot _ hconcludes ih =>
    refine .turn ending (fun hcycle => hnot (hs.symm.onCycle hcycle)) (fun r hr y hy => ?_) ?_
    · exact ih r hr y ((hs.findToken?_eq r).symm.trans hy)
    · rw [hs.referenceFindings_eq]
      exact hs.concludes hconcludes

/-! ### What comes of resolution -/

/-- **Resolution comes to its end for both trees or for neither.** -/
theorem going_iff (hs : g.Agree h) (limit : Int) :
    (h.finalPass limit).halted = none ↔ (g.finalPass limit).halted = none := by
  rw [going_final_iff hs.left, going_final_iff hs.right]
  exact ⟨fun hall place t fault ht hhalting =>
      hall place t fault ((hs.tokenAt?_eq place).trans ht) (hs.halting hhalting),
    fun hall place t fault ht hhalting =>
      hall place t fault ((hs.tokenAt?_eq place).symm.trans ht) (hs.symm.halting hhalting)⟩

variable (hs : g.Agree h) (hgoing : (g.finalPass limit).halted = none)

include hs hgoing

/-- **Tokens at the same place are resolved alike.** -/
theorem tokenAt?_final (place : Place) :
    (h.finalPass limit).tree.tokenAt? place = (g.finalPass limit).tree.tokenAt? place := by
  have hgoing' := (hs.going_iff limit).mpr hgoing
  cases ht : g.tokenAt? place with
  | none =>
    rw [(finalPass_spec hs.left limit).1.absent place ht,
      (finalPass_spec hs.right limit).1.absent place ((hs.tokenAt?_eq place).trans ht)]
  | some t =>
    have ht' := (hs.tokenAt?_eq place).trans ht
    rcases final_cases hs.left hgoing ht with ⟨v, hv, hat⟩ | ⟨hnot, hat, -⟩
    · rcases final_cases hs.right hgoing' ht' with ⟨w, hw, hat'⟩ | ⟨hnot', -⟩
      · rw [hat, hat', (hs.settles hv).unique hs.right ht' hw]
      · exact absurd (hs.settles hv) (hnot' v)
    · rcases final_cases hs.right hgoing' ht' with ⟨w, hw, -⟩ | ⟨-, hat', -⟩
      · exact absurd (hs.symm.settles hw) (hnot w)
      · rw [hat, hat']

/-- The problems of a path are the same and stand in the same order. -/
theorem findingsOf_final (path : String) :
    (h.finalPass limit).findingsOf path = (g.finalPass limit).findingsOf path := by
  by_cases htoken : ∃ place t, g.tokenAt? place = some t ∧ t.path = path
  · obtain ⟨place, t, ht, rfl⟩ := htoken
    have hends : g.Ends limit t ((g.finalPass limit).findingsOf t.path) :=
      ends_final hs.left hs.found hgoing ht
    have hat := (hs.tokenAt?_eq place).trans ht
    exact (ends_final hs.right hs.symm.found ((hs.going_iff limit).mpr hgoing) hat).unique
      (hs.ends hends)
  · have hnone : ∀ place t, g.tokenAt? place = some t → t.path ≠ path :=
      fun place t ht hpath => htoken ⟨place, t, ht, hpath⟩
    rw [(finalPass_spec hs.left limit).1.findingsOf_eq_nil fun place t _ ht hpath =>
        absurd hpath (hnone place t ht),
      (finalPass_spec hs.right limit).1.findingsOf_eq_nil fun place t _ ht hpath =>
        absurd hpath (hnone place t (hs.tokenAt?_eq place ▸ ht))]

/-- **The problems differ in their order.** -/
theorem problems_perm :
    ((h.finalPass limit).problems.map fun e => (e.path, e.kind, e.reference)).Perm
      ((g.finalPass limit).problems.map fun e => (e.path, e.kind, e.reference)) := by
  refine List.perm_iff_count.mpr fun ⟨path, found⟩ => ?_
  refine ((h.finalPass limit).count_problems path found).trans ?_
  rw [hs.findingsOf_final hgoing]
  exact ((g.finalPass limit).count_problems path found).symm

end Agree

end Group

end DesignTokens
