import DesignTokens.Proofs.Resolution.Clean

/-!
# Passes that end without a problem

`Pass.Clear` is what a pass keeps over any tree whose tokens have the references of their values,
whatever else these values hold: no token is resolved to a value with a reference in it, a token
that succeeded is resolved, and nothing has failed as long as there is no problem.  In the end every
token has its outcome, so without a problem every token is resolved (`Group.resolved_of_clear`).
-/

namespace DesignTokens

theorem Group.Placed.of_outline {g h : Group} (hg : g.Placed) (he : h.outline = g.outline) :
    h.Placed := by
  refine hg.of_paths ?_ (Node.KeysDistinct.of_outline hg.keysDistinct he) fun place => ?_
  · exact (Node.group.inj he).1
  · have hpath := congrArg (fun n => (Node.tokenAt? n place).map Token.path) he
    simp only [Group.outline, Node.tokenAt?_outline, Option.map_map] at hpath
    exact hpath

theorem Token.Scanned.unresolved {t : Token} (h : t.Scanned) :
    Token.Scanned { t with resolved := false } :=
  ⟨h.aliases, h.pointers, h.malformed, h.hasSegments, nofun⟩

namespace Pass

/-- The invariant of a pass over tokens that have the references of their values. -/
structure Clear (p : Pass) : Prop where
  placed : p.tree.Placed
  scanned : ∀ place t, p.tree.tokenAt? place = some t → t.Scanned
  settled : ∀ place t, p.tree.tokenAt? place = some t →
    p.resolver.outcomes.get? t.path = some none → t.resolved = true
  unfailed : p.problems = [] → ∀ path kind, p.resolver.outcomes.get? path ≠ some (some kind)

namespace Clear

variable {p q : Pass} {place : Place} {t after : Token} {c : Check}

/-- **The step lemma**: a turn keeps the invariant if it leaves a scanned token, which is resolved
if the turn succeeds. -/
theorem advance (h : p.Clear) (ht : p.tree.tokenAt? place = some t)
    (hq : Advance p q place t.path after c) (hreports : c.Reports t.path)
    (hpath : after.path = t.path) (hscanned : after.Scanned)
    (hsuccess : c.failure = none → after.resolved = true) : q.Clear := by
  have hat : ∀ other u, q.tree.tokenAt? other = some u →
      (other = place ∧ u = after) ∨ (other ≠ place ∧ p.tree.tokenAt? other = some u) := by
    intro other u hu
    by_cases he : other = place
    · rw [he, hq.here] at hu
      exact Or.inl ⟨he, (Option.some.inj hu).symm⟩
    · exact Or.inr ⟨he, hq.elsewhere other he ▸ hu⟩
  refine ⟨h.placed.of_paths hq.label (hq.keysDistinct h.placed.keysDistinct) fun other => ?_,
    fun other u hu => ?_, fun other u hu ho => ?_, fun hnone path kind ho => ?_⟩
  · by_cases he : other = place
    · rw [he, hq.here, ht]
      exact congrArg some hpath
    · rw [hq.elsewhere other he]
  · rcases hat other u hu with ⟨-, rfl⟩ | ⟨-, hu⟩
    · exact hscanned
    · exact h.scanned other u hu
  · rw [hq.outcomes] at ho
    rcases hat other u hu with ⟨-, rfl⟩ | ⟨he, hu⟩
    · rw [hpath, Table.get?_put_self] at ho
      exact hsuccess (Option.some.inj ho)
    · have hne : u.path ≠ t.path := fun hp => he (h.placed.distinct other place u t hu ht hp)
      rw [Table.get?_put_of_ne _ _ hne] at ho
      exact h.settled other u hu ho
  · rw [hq.problems] at hnone
    obtain ⟨hbefore, hnew⟩ := List.append_eq_nil_iff.mp hnone
    rw [hq.outcomes] at ho
    by_cases hp : path = t.path
    · rw [hp, Table.get?_put_self, hreports.failure_iff.mpr hnew] at ho
      cases Option.some.inj ho
    · rw [Table.get?_put_of_ne _ _ hp] at ho
      exact h.unfailed hbefore path kind ho

/-- A token that passes its check is given a value without references. -/
theorem occurrences_of_checked (h : p.Clear) (ht : p.tree.tokenAt? place = some t)
    (hc : (Check.checked p.tree p.resolver t).failure = none) {v : Value}
    (hv : t.value.substitute p.tree.meaning = .ok v) : v.occurrences = [] := by
  obtain ⟨hmalformed, hpointers, htargets⟩ :=
    Check.failure_followed_iff.mp (Check.failure_checked_iff.mp hc).1
  have hscanned := h.scanned place t ht
  refine Value.occurrences_of_substitute (fun o ho => ?_) (fun a ha x hx => ?_) hv
  · obtain ⟨a, -, rfl⟩ := hscanned.exists_aliasOf hpointers hmalformed ho
    exact ⟨a, rfl⟩
  · have hr := hscanned.aliases a (Value.mem_aliases_iff.mpr ha)
    obtain ⟨u, hu, ho⟩ := htargets a hr
    unfold Group.meaning at hx
    rw [hu] at hx
    rw [← Except.ok.inj hx]
    refine (h.scanned _ u hu).free ?_
    unfold Check.outcomeOf at ho
    cases hget : p.resolver.outcomes.get? a with
    | none =>
      rw [hget] at ho
      simpa using ho
    | some outcome =>
      rw [hget] at ho
      have hpath := h.placed.path_of_findToken (hscanned.hasSegments a hr) hu
      exact h.settled _ u hu (by rw [hpath, hget]; exact congrArg some ho)

theorem of_halts {fault : NumeralFault} (h : p.Clear) (hq : Halts p q fault) : q.Clear := by
  obtain ⟨hplaced, hscanned, hsettled, hunfailed⟩ := h
  constructor
  · exact hq.tree_eq ▸ hplaced
  · exact hq.tree_eq ▸ hscanned
  · rw [hq.tree_eq, hq.outcomes]
    exact hsettled
  · rw [hq.problems, hq.outcomes]
    exact hunfailed

theorem resolveToken (h : p.Clear) (place : Place) : (p.resolveToken place).Clear := by
  refine resolveToken_cases h (fun _ hhalts _ => h.of_halts hhalts)
    fun t after c ht hadvance hreports hcase => ?_
  have hscanned := h.scanned place t ht
  cases hcase with
  | plain hresolved _ => exact h.advance ht hadvance hreports rfl hscanned fun _ => hresolved
  | resolved _ hc hv =>
    refine h.advance ht hadvance hreports rfl ?_ fun _ => rfl
    exact ⟨hscanned.aliases, hscanned.pointers, hscanned.malformed, hscanned.hasSegments,
      fun _ => h.occurrences_of_checked ht hc hv⟩
  | unfit =>
    exact h.advance ht hadvance hreports rfl hscanned.unresolved
      fun hnone => absurd hnone (Check.failure_fail _ _ _ _ _)
  | failed _ hf =>
    refine h.advance ht hadvance hreports rfl hscanned.unresolved fun hnone => ?_
    rw [hf] at hnone
    cases hnone

theorem failMember (h : p.Clear) (cycle : List String) (member : String) :
    (p.failMember cycle member).Clear := by
  unfold Pass.failMember
  split
  · exact h
  · refine ⟨h.placed, h.scanned, fun place t ht ho => ?_, fun hnone => ?_⟩
    · dsimp only at ho
      by_cases hp : t.path = member
      · rw [hp, Table.get?_put_self] at ho
        cases Option.some.inj ho
      · rw [Table.get?_put_of_ne _ _ hp] at ho
        exact h.settled place t ht ho
    · exact absurd (List.append_eq_nil_iff.mp hnone).2 (List.cons_ne_nil _ _)

end Clear

/-! ### Every token has its turn -/

variable {p : Pass} {place : Place} {t : Token}

theorem has_resolveToken (ht : p.tree.tokenAt? place = some t)
    (hgoing : (p.resolveToken place).halted = none) (path : String) :
    (p.resolveToken place).resolver.outcomes.has path = true ↔
      path = t.path ∨ p.resolver.outcomes.has path = true := by
  cases hbefore : p.halted with
  | some fault =>
    rw [resolveToken_of_halted hbefore, hbefore] at hgoing
    cases hgoing
  | none =>
    rcases exists_turn hbefore ht with ⟨fault, hhalts, -⟩ | ⟨after, c, hadvance, -⟩
    · exact absurd (hhalts.halted.symm.trans hgoing) (Option.some_ne_none fault)
    · rw [hadvance.outcomes, Table.has_put]

theorem has_resolvePlace (ht : p.tree.tokenAt? place = some t)
    (hgoing : (p.resolvePlace place).halted = none) (path : String) :
    (p.resolvePlace place).resolver.outcomes.has path = true ↔
      path = t.path ∨ p.resolver.outcomes.has path = true := by
  unfold resolvePlace at hgoing ⊢
  rw [ht] at hgoing ⊢
  dsimp only at hgoing ⊢
  split at hgoing
  · rename_i hhas
    rw [if_pos hhas]
    refine (or_iff_right_of_imp ?_).symm
    rintro rfl
    exact hhas
  · rename_i hhas
    rw [if_neg hhas]
    exact has_resolveToken ht hgoing path

/-- After a round over some places the tokens there have their outcomes. -/
theorem has_resolvePlaces {places : List Place}
    (hplaces : ∀ place ∈ places, ∃ t, p.tree.tokenAt? place = some t)
    (hgoing : (places.foldl resolvePlace p).halted = none) :
    (∀ path, p.resolver.outcomes.has path = true →
        (places.foldl resolvePlace p).resolver.outcomes.has path = true) ∧
      ∀ place ∈ places, ∀ t, p.tree.tokenAt? place = some t →
        (places.foldl resolvePlace p).resolver.outcomes.has t.path = true := by
  induction places generalizing p with
  | nil => exact ⟨fun _ hhas => hhas, fun _ hm => absurd hm List.not_mem_nil⟩
  | cons place places ih =>
    obtain ⟨⟨t, ht⟩, hrest⟩ := List.forall_mem_cons.mp hplaces
    have hkept : ∀ other u, p.tree.tokenAt? other = some u →
        ∃ v, (p.resolvePlace place).tree.tokenAt? other = some v ∧ u.outline = v.outline :=
      fun other u hu => Group.exists_tokenAt?_of_outline (outline_resolvePlace p place).symm hu
    obtain ⟨hgrows, hall⟩ := ih (fun other hm => by
      obtain ⟨u, hu⟩ := hrest other hm
      obtain ⟨v, hv, -⟩ := hkept other u hu
      exact ⟨v, hv⟩) hgoing
    have hhas := has_resolvePlace ht
      (going_of_foldl (fun p place _ hp => resolvePlace_of_halted hp place) hgoing)
    refine ⟨fun path hpath => hgrows path ((hhas path).mpr (Or.inr hpath)), ?_⟩
    refine List.forall_mem_cons.mpr ⟨fun u hu => ?_, fun other hm u hu => ?_⟩
    · rw [← Option.some.inj (ht.symm.trans hu)]
      exact hgrows t.path ((hhas t.path).mpr (Or.inl rfl))
    · obtain ⟨v, hv, hsame⟩ := hkept other u hu
      rw [Token.path_eq_of_outline hsame]
      exact hall other hm v hv

end Pass

/-- At the end of a pass every token has an outcome. -/
theorem Resolver.has_pass {r : Resolver} {g : Group} (hg : g.KeysDistinct)
    (hgoing : (r.pass g).halted = none) {place : Place} {u : Token}
    (hu : (r.pass g).tree.tokenAt? place = some u) :
    (r.pass g).resolver.outcomes.has u.path = true := by
  obtain ⟨t, ht, hsame⟩ := Group.exists_tokenAt?_of_outline (r.outline_pass g) hu
  rw [Token.path_eq_of_outline hsame]
  unfold pass at hgoing ⊢
  have houtline : (r.orderedPass g).tree.outline = g.outline :=
    orderedPass_induction (I := fun p => p.tree.outline = g.outline) rfl
      (fun p cycle _ member h => by rw [Pass.tree_failMember, h])
      fun p place h => (p.outline_resolveToken place).trans h
  have hkept : ∀ other v, g.tokenAt? other = some v →
      ∃ w, (r.orderedPass g).tree.tokenAt? other = some w ∧ v.outline = w.outline :=
    fun other v hv => Group.exists_tokenAt?_of_outline houtline.symm hv
  have hplaces : ∀ other ∈ g.placedTokens.map Prod.fst,
      ∃ w, (r.orderedPass g).tree.tokenAt? other = some w := by
    intro other hm
    obtain ⟨⟨other, v⟩, hpair, rfl⟩ := List.mem_map.mp hm
    obtain ⟨w, hw, -⟩ := hkept other v ((Group.mem_placedTokens_iff hg).mp hpair)
    exact ⟨w, hw⟩
  obtain ⟨w, hw, hsame⟩ := hkept place t ht
  rw [Token.path_eq_of_outline hsame]
  refine (Pass.has_resolvePlaces hplaces hgoing).2 place ?_ w hw
  exact List.mem_map.mpr ⟨(place, t), (Group.mem_placedTokens_iff hg).mpr ht, rfl⟩

namespace Group

variable {g : Group} {limit : Int} {place : Place} {t u : Token}

theorem clear_finalPass (hg : g.Placed)
    (hscanned : ∀ place t, g.tokenAt? place = some t → t.Scanned) (limit : Int) :
    (g.finalPass limit).Clear := by
  have hstart : (g.firstPass limit).Clear :=
    ⟨hg, hscanned, fun _ _ _ => nofun, fun _ _ _ => nofun⟩
  exact finalPass_induction hstart (fun p cycle _ member h => h.failMember cycle member)
    fun p place h => h.resolveToken place

/-- **If there is no problem in the end, every token is resolved to a value without references.** -/
theorem resolved_of_clear (hg : g.Placed)
    (hscanned : ∀ place t, g.tokenAt? place = some t → t.Scanned)
    (hgoing : (g.finalPass limit).halted = none) (hnone : (g.finalPass limit).problems = [])
    (hu : (g.finalPass limit).tree.tokenAt? place = some u) :
    u.resolved = true ∧ u.resolvedValue.occurrences = [] := by
  have hclear := clear_finalPass hg hscanned limit
  obtain ⟨outcome, ho⟩ := Option.isSome_iff_exists.mp
    (Resolver.has_pass (r := Resolver.start limit) hg.keysDistinct hgoing hu)
  have hresolved : u.resolved = true := by
    cases outcome with
    | none => exact hclear.settled place u hu ho
    | some kind => exact absurd ho (hclear.unfailed hnone u.path kind)
  exact ⟨hresolved, (hclear.scanned place u hu).free hresolved⟩

end Group

end DesignTokens
