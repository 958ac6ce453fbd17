import DesignTokens.Proofs.Resolution.Check

/-!
# The turn of a token

`Pass.Faithful` is the invariant of a pass: a token without an outcome is as it was,
a token that succeeded has settled on its value, and a token that failed does not
settle and has a problem.

`Pass.Advance` says what the turn of one token may change: its outcome, its depth,
the token itself and the problems about it.  A turn that comes to no end halts the pass and changes
nothing else (`Pass.Halts`).  `Faithful.advance` is the step lemma, and `Faithful.resolveToken` its
use for a token whose turn it is.
-/

namespace DesignTokens.Pass

/-- The invariant of a pass over a tree, with the greatest length of a chain. -/
structure Faithful (g : Group) (limit : Int) (p : Pass) : Prop where
  limit_eq : p.resolver.maxDepth = limit
  label : p.tree.label = g.label
  keysDistinct : p.tree.KeysDistinct
  absent : ∀ place, g.tokenAt? place = none → p.tree.tokenAt? place = none
  pending : ∀ place t, g.tokenAt? place = some t → p.resolver.outcomes.get? t.path = none →
    p.tree.tokenAt? place = some t ∧ storedDepth p.resolver.depths t.path = 0
  succeeded : ∀ place t, g.tokenAt? place = some t →
    p.resolver.outcomes.get? t.path = some none →
      ∃ v, g.Settles limit t v ∧
        p.tree.tokenAt? place = some { t with resolved := true, resolvedValue := v } ∧
        g.IsLongest t (storedDepth p.resolver.depths t.path)
  grounded : ∀ place t, g.tokenAt? place = some t →
    p.resolver.outcomes.get? t.path = some none → ∀ r ∈ t.references, ∀ y,
      g.findToken? r = some y → y.references ≠ [] → p.resolver.outcomes.get? y.path = some none
  failed : ∀ place t kind, g.tokenAt? place = some t →
    p.resolver.outcomes.get? t.path = some (some kind) →
      (∀ v, ¬ g.Settles limit t v) ∧
        p.tree.tokenAt? place = some { t with resolved := false } ∧
        ∃ e ∈ p.problems, e.path = t.path
  reported : ∀ e ∈ p.problems, ∃ place t kind, g.tokenAt? place = some t ∧ t.path = e.path ∧
    p.resolver.outcomes.get? t.path = some (some kind)
  known : ∀ path, p.resolver.outcomes.has path = true →
    ∃ place t, g.tokenAt? place = some t ∧ t.path = path

/-- What the turn of the token at a place may change: `after` is the token then, and
`c` holds its problems, its failure and its depth. -/
structure Advance (p q : Pass) (place : Place) (path : String) (after : Token) (c : Check) :
    Prop where
  limit_eq : q.resolver.maxDepth = p.resolver.maxDepth
  label : q.tree.label = p.tree.label
  keysDistinct : p.tree.KeysDistinct → q.tree.KeysDistinct
  here : q.tree.tokenAt? place = some after
  elsewhere : ∀ other, other ≠ place → q.tree.tokenAt? other = p.tree.tokenAt? other
  outcomes : q.resolver.outcomes = p.resolver.outcomes.put path c.failure
  depth_here : storedDepth q.resolver.depths path = c.depth
  depth_elsewhere : ∀ other, other ≠ path →
    storedDepth q.resolver.depths other = storedDepth p.resolver.depths other
  problems : q.problems = p.problems ++ c.problems
  halted : q.halted = p.halted

/-- A pass that is halted by a fault is as it was otherwise. -/
structure Halts (p q : Pass) (fault : NumeralFault) : Prop where
  limit_eq : q.resolver.maxDepth = p.resolver.maxDepth
  tree_eq : q.tree = p.tree
  outcomes : q.resolver.outcomes = p.resolver.outcomes
  depths : ∀ path, storedDepth q.resolver.depths path = storedDepth p.resolver.depths path
  problems : q.problems = p.problems
  halted : q.halted = some fault

theorem Advance.unchanged {g : Group} {p q : Pass} {place other : Place} {t u after : Token}
    {c : Check} (hq : Advance p q place t.path after c) (ht : g.tokenAt? place = some t)
    (hu : g.tokenAt? other = some u) (hne : u.path ≠ t.path) :
    q.resolver.outcomes.get? u.path = p.resolver.outcomes.get? u.path ∧
      q.tree.tokenAt? other = p.tree.tokenAt? other ∧
      storedDepth q.resolver.depths u.path = storedDepth p.resolver.depths u.path := by
  refine ⟨?_, hq.elsewhere other ?_, hq.depth_elsewhere _ hne⟩
  · rw [hq.outcomes, Table.get?_put_of_ne _ _ hne]
  · rintro rfl
    rw [ht] at hu
    exact hne (congrArg Token.path (Option.some.inj hu)).symm

namespace Faithful

variable {g : Group} {limit : Int} {p q : Pass} {place : Place} {t after : Token} {c : Check}

/-- **The step lemma**: a turn keeps the invariant if it succeeds with the value on
which the token settles and fails only if there is none. -/
theorem advance (hg : g.Prepared) (h : p.Faithful g limit) (ht : g.tokenAt? place = some t)
    (hq : Advance p q place t.path after c) (hreports : c.Reports t.path)
    (hnew : p.resolver.outcomes.get? t.path = none)
    (hsuccess : c.failure = none → ∃ v, g.Settles limit t v ∧
      after = { t with resolved := true, resolvedValue := v } ∧ g.IsLongest t c.depth)
    (hground : c.failure = none → ∀ r ∈ t.references, ∀ y, g.findToken? r = some y →
      y.references ≠ [] → p.resolver.outcomes.get? y.path = some none)
    (hfailure : c.failure ≠ none → (∀ v, ¬ g.Settles limit t v) ∧
      after = { t with resolved := false }) : q.Faithful g limit := by
  have hhere : q.resolver.outcomes.get? t.path = some c.failure := by
    rw [hq.outcomes, Table.get?_put_self]
  have hsame : ∀ other u, g.tokenAt? other = some u → u.path = t.path → other = place ∧ u = t :=
    fun other u hu hpath => ⟨hg.distinct _ _ _ _ hu ht hpath, hg.placed.eq_of_path_eq hu ht hpath⟩
  have hkept : ∀ path, p.resolver.outcomes.get? path = some none →
      q.resolver.outcomes.get? path = some none := by
    intro path ho
    have hne : path ≠ t.path := by
      rintro rfl
      rw [hnew] at ho
      cases ho
    rw [hq.outcomes, Table.get?_put_of_ne _ _ hne, ho]
  refine ⟨hq.limit_eq.trans h.limit_eq, hq.label.trans h.label, hq.keysDistinct h.keysDistinct,
    ?_, ?_, ?_, ?_, ?_, ?_, ?_⟩
  · intro other hnone
    rw [hq.elsewhere other, h.absent other hnone]
    rintro rfl
    rw [ht] at hnone
    cases hnone
  · intro other u hu ho
    by_cases hpath : u.path = t.path
    · rw [hpath, hhere] at ho
      cases ho
    · obtain ⟨houtcome, htree, hdepth⟩ := hq.unchanged ht hu hpath
      rw [htree, hdepth]
      exact h.pending other u hu (houtcome ▸ ho)
  · intro other u hu ho
    by_cases hpath : u.path = t.path
    · obtain ⟨rfl, rfl⟩ := hsame other u hu hpath
      rw [hhere] at ho
      obtain ⟨v, hv, hafter, hlongest⟩ := hsuccess (Option.some.inj ho)
      exact ⟨v, hv, hafter ▸ hq.here, hq.depth_here.symm ▸ hlongest⟩
    · obtain ⟨houtcome, htree, hdepth⟩ := hq.unchanged ht hu hpath
      rw [htree, hdepth]
      exact h.succeeded other u hu (houtcome ▸ ho)
  · intro other u hu ho r hr y hy hne
    refine hkept y.path ?_
    by_cases hpath : u.path = t.path
    · obtain ⟨rfl, rfl⟩ := hsame other u hu hpath
      rw [hhere] at ho
      exact hground (Option.some.inj ho) r hr y hy hne
    · obtain ⟨houtcome, -, -⟩ := hq.unchanged ht hu hpath
      exact h.grounded other u hu (houtcome ▸ ho) r hr y hy hne
  · intro other u kind hu ho
    by_cases hpath : u.path = t.path
    · obtain ⟨rfl, rfl⟩ := hsame other u hu hpath
      rw [hhere] at ho
      have hne : c.failure ≠ none := by
        rw [Option.some.inj ho]
        exact Option.some_ne_none kind
      obtain ⟨hnot, hafter⟩ := hfailure hne
      obtain ⟨e, he⟩ := List.exists_mem_of_ne_nil _ (mt hreports.failure_iff.mpr hne)
      refine ⟨hnot, hafter ▸ hq.here, e, ?_, hreports.path_eq e he⟩
      rw [hq.problems]
      exact List.mem_append_right _ he
    · obtain ⟨houtcome, htree, -⟩ := hq.unchanged ht hu hpath
      obtain ⟨hnot, hat, e, he, hpath'⟩ := h.failed other u kind hu (houtcome ▸ ho)
      refine ⟨hnot, htree.trans hat, e, ?_, hpath'⟩
      rw [hq.problems]
      exact List.mem_append_left _ he
  · intro e he
    rw [hq.problems] at he
    rcases List.mem_append.mp he with he | he
    · obtain ⟨other, u, kind, hu, hpath, ho⟩ := h.reported e he
      have hne : u.path ≠ t.path := by
        intro heq
        rw [heq, hnew] at ho
        cases ho
      exact ⟨other, u, kind, hu, hpath, (hq.unchanged ht hu hne).1.trans ho⟩
    · cases hf : c.failure with
      | none =>
        rw [hreports.failure_iff.mp hf] at he
        exact absurd he List.not_mem_nil
      | some kind => exact ⟨place, t, kind, ht, (hreports.path_eq e he).symm, hf ▸ hhere⟩
  · intro path hpath
    rw [hq.outcomes, Table.has_put] at hpath
    rcases hpath with rfl | hpath
    · exact ⟨place, t, ht, rfl⟩
    · exact h.known path hpath

theorem of_halts {fault : NumeralFault} (h : p.Faithful g limit) (hq : Halts p q fault) :
    q.Faithful g limit := by
  obtain ⟨hlimit, htree, houtcomes, hdepths, hproblems, -⟩ := hq
  refine ⟨hlimit.trans h.limit_eq, ?_, ?_, ?_, ?_, ?_, ?_, ?_, ?_, ?_⟩
  · exact htree ▸ h.label
  · exact htree ▸ h.keysDistinct
  · exact htree ▸ h.absent
  · rw [htree, houtcomes]
    intro place t ht ho
    exact (hdepths t.path).symm ▸ h.pending place t ht ho
  · rw [htree, houtcomes]
    intro place t ht ho
    exact (hdepths t.path).symm ▸ h.succeeded place t ht ho
  · rw [houtcomes]
    exact h.grounded
  · rw [htree, houtcomes, hproblems]
    exact h.failed
  · rw [houtcomes, hproblems]
    exact h.reported
  · rw [houtcomes]
    exact h.known

/-! ### Looking up a target -/

theorem findToken?_eq (h : p.Faithful g limit) (path : String) :
    p.tree.findToken? path = p.tree.tokenAt? (g.placeOf path) := by
  show p.tree.tokenAt? (p.tree.placeOf path) = _
  unfold Group.placeOf
  rw [h.label]

/-- A target without a failure has settled, and it is found with its value. -/
theorem target_settles (hg : g.Prepared) (h : p.Faithful g limit) {r : String}
    (hr : Alias.HasSegments r) {x : Token} (hx : p.tree.findToken? r = some x)
    (ho : Check.outcomeOf p.resolver.outcomes r x = none) :
    ∃ y, g.findToken? r = some y ∧ g.Settles limit y x.resolvedValue ∧
      g.IsLongest y (storedDepth p.resolver.depths r) ∧
      (y.references ≠ [] → p.resolver.outcomes.get? y.path = some none) := by
  rw [h.findToken?_eq] at hx
  cases hy : g.findToken? r with
  | none =>
    rw [h.absent _ hy] at hx
    cases hx
  | some y =>
    refine ⟨y, rfl, ?_⟩
    have hpath := hg.placed.path_of_findToken hr hy
    have htracked := hg.tracked _ y hy
    unfold Check.outcomeOf at ho
    cases hget : p.resolver.outcomes.get? r with
    | none =>
      obtain ⟨htree, hdepth⟩ := h.pending _ y hy (hpath ▸ hget)
      rw [htree] at hx
      cases Option.some.inj hx
      rw [hget] at ho
      have hresolved : x.resolved = true := by simpa using ho
      have hnone := (htracked.resolved_iff.mp hresolved).1
      rw [htracked.resolvedValue hresolved, ← hpath, hdepth]
      exact ⟨.of_resolved hg hy hresolved, Group.isLongest_zero hnone, fun hne => absurd hnone hne⟩
    | some outcome =>
      rw [hget] at ho
      simp only at ho
      rw [ho, ← hpath] at hget
      obtain ⟨v, hv, htree, hlongest⟩ := h.succeeded _ y hy hget
      rw [htree] at hx
      cases Option.some.inj hx
      exact ⟨hv, hpath ▸ hlongest, fun _ => hget⟩

/-- A target that settles has no failure, once it has had its turn. -/
theorem target_of_settles (hg : g.Prepared) (h : p.Faithful g limit) {r : String}
    (hr : Alias.HasSegments r) {y : Token} (hy : g.findToken? r = some y) {v : Value}
    (hv : g.Settles limit y v)
    (hturn : y.references ≠ [] → p.resolver.outcomes.has y.path = true) :
    ∃ x, p.tree.findToken? r = some x ∧ Check.outcomeOf p.resolver.outcomes r x = none := by
  have hpath := hg.placed.path_of_findToken hr hy
  have htracked := hg.tracked _ y hy
  rw [h.findToken?_eq]
  unfold Check.outcomeOf
  cases hget : p.resolver.outcomes.get? r with
  | none =>
    obtain ⟨htree, -⟩ := h.pending _ y hy (hpath ▸ hget)
    refine ⟨y, htree, ?_⟩
    have hnone : y.references = [] := by
      by_contra hne
      have hhas := hturn hne
      rw [Table.has, hpath, hget] at hhas
      cases hhas
    rw [hv.resolved_of_references htracked hnone]
    rfl
  | some outcome =>
    rw [← hpath] at hget
    cases outcome with
    | none =>
      obtain ⟨w, -, htree, -⟩ := h.succeeded _ y hy hget
      exact ⟨_, htree, rfl⟩
    | some kind => exact absurd hv ((h.failed _ y kind hy hget).1 v)

/-! ### The outcome of a turn -/

theorem targets_of_followed (hg : g.Prepared) (h : p.Faithful g limit)
    (ht : g.tokenAt? place = some t) (hc : (Check.followed p.tree p.resolver t).failure = none)
    {r : String} (hr : r ∈ t.references) :
    ∃ x y, p.tree.findToken? r = some x ∧ g.findToken? r = some y ∧
      g.Settles limit y x.resolvedValue ∧ g.IsLongest y (storedDepth p.resolver.depths r) ∧
      (y.references ≠ [] → p.resolver.outcomes.get? y.path = some none) := by
  obtain ⟨x, hx, ho⟩ := (Check.failure_followed_iff.mp hc).2.2 r hr
  obtain ⟨y, hy⟩ := h.target_settles hg ((hg.tracked place t ht).hasSegments r hr) hx ho
  exact ⟨x, y, hx, hy⟩

theorem isLongest_followed (hg : g.Prepared) (h : p.Faithful g limit)
    (ht : g.tokenAt? place = some t) (hc : (Check.followed p.tree p.resolver t).failure = none) :
    g.IsLongest t (Check.followed p.tree p.resolver t).depth := by
  obtain ⟨hbound, hreached⟩ := Check.depth_followed hc
  refine Group.isLongest_of_targets (fun r hr => ?_) hbound hreached
  obtain ⟨x, y, -, hy, -, hlong, -⟩ := h.targets_of_followed hg ht hc hr
  exact ⟨y, hy, hlong⟩

theorem aliasChain_followed (hg : g.Prepared) (h : p.Faithful g limit)
    (ht : g.tokenAt? place = some t) (hreferences : t.references ≠ [])
    (hc : (Check.followed p.tree p.resolver t).failure = none) :
    g.AliasChain t (Check.followed p.tree p.resolver t).depth := by
  obtain ⟨r, hr⟩ := List.exists_mem_of_ne_nil _ hreferences
  have hbound := (Check.depth_followed hc).1 r hr
  exact (h.isLongest_followed hg ht hc).reached.resolve_left (by omega)

/-- A check without a failure and a result of the substitution are all that a token
needs to settle. -/
theorem settles_of_checked (hg : g.Prepared) (h : p.Faithful g limit)
    (ht : g.tokenAt? place = some t)
    (htime : (∀ r ∈ t.references, ∀ y, g.findToken? r = some y → y.references ≠ [] →
      p.resolver.outcomes.get? y.path = some none) → g.InTime t.path)
    (hc : (Check.checked p.tree p.resolver t).failure = none) {v : Value}
    (hv : t.value.substitute p.tree.meaning = .ok v) :
    g.Settles limit t v ∧ g.IsLongest t (Check.checked p.tree p.resolver t).depth := by
  have htracked := hg.tracked place t ht
  obtain ⟨hfollowed, hdepth⟩ := Check.failure_checked_iff.mp hc
  obtain ⟨hmalformed, hpointers, -⟩ := Check.failure_followed_iff.mp hfollowed
  have htarget := fun r hr => h.targets_of_followed hg ht hfollowed (r := r) hr
  have hlongest := h.isLongest_followed hg ht hfollowed
  refine ⟨?_, Check.depth_checked p.tree p.resolver t ▸ hlongest⟩
  refine .intro (fun r => (g.findToken? r).getD default)
    (fun r => ((p.tree.findToken? r).map Token.resolvedValue).getD .null) hmalformed hpointers
    ?_ ?_ ?_ (htime ?_) ?_
  · intro r hr
    obtain ⟨x, y, -, hy, -⟩ := htarget r hr
    rw [hy]
    rfl
  · intro r hr
    obtain ⟨x, y, hx, hy, hsettles, -⟩ := htarget r hr
    rw [hx, hy]
    exact hsettles
  · intro n hn
    have hle := hlongest.bound n hn
    rw [h.limit_eq] at hdepth
    omega
  · intro r hr y hy hne
    obtain ⟨x, y', -, hy', -, -, ho⟩ := htarget r hr
    rw [hy] at hy'
    rw [Option.some.inj hy'] at hne ⊢
    exact ho hne
  · rw [← hv]
    refine Value.substitute_congr (htracked.onlyAliases hpointers hmalformed) ?_
    intro a ha
    obtain ⟨x, y, hx, -⟩ := htarget a (htracked.mem_references ha)
    unfold Group.meaning
    rw [hx]
    rfl

/-- A token that settles passes the check, and the substitution gives its value. -/
theorem checked_of_settles (hg : g.Prepared) (h : p.Faithful g limit)
    (ht : g.tokenAt? place = some t) (hnew : (t.resolved && t.references.isEmpty) = false)
    (hturn : g.InTime t.path → ∀ r ∈ t.references, ∀ y, g.findToken? r = some y →
      y.references ≠ [] → p.resolver.outcomes.has y.path = true)
    {v : Value} (hv : g.Settles limit t v) :
    (Check.checked p.tree p.resolver t).failure = none ∧
      t.value.substitute p.tree.meaning = .ok v := by
  have htracked := hg.tracked place t ht
  have hreferences : t.references ≠ [] := fun hnone => by
    rw [hv.resolved_of_references htracked hnone, hnone] at hnew
    cases hnew
  cases hv with
  | intro target value hmalformed hpointers hfound hsettled hwithin htime hvalue =>
    have hfollowed : (Check.followed p.tree p.resolver t).failure = none :=
      Check.failure_followed_iff.mpr ⟨hmalformed, hpointers, fun r hr =>
        h.target_of_settles hg (htracked.hasSegments r hr) (hfound r hr) (hsettled r hr)
          (hturn htime r hr _ (hfound r hr))⟩
    refine ⟨Check.failure_checked_iff.mpr ⟨hfollowed, ?_⟩, ?_⟩
    · rw [h.limit_eq]
      exact hwithin _ (h.aliasChain_followed hg ht hreferences hfollowed)
    · rw [← hvalue]
      refine Value.substitute_congr (htracked.onlyAliases hpointers hmalformed) ?_
      intro a ha
      have hr := htracked.mem_references ha
      obtain ⟨x, y, hx, hy, hsettles, -⟩ := h.targets_of_followed hg ht hfollowed hr
      rw [hfound a hr] at hy
      rw [← Option.some.inj hy] at hsettles
      unfold Group.meaning
      rw [hx]
      exact congrArg Except.ok (hsettles.unique hg (hfound a hr) (hsettled a hr))

end Faithful

/-! ### The turn itself -/

variable {g : Group} {limit : Int} {p : Pass} {place : Place} {t : Token}

theorem resolveToken_of_halted {fault : NumeralFault} (h : p.halted = some fault) (place : Place) :
    p.resolveToken place = p := by
  unfold resolveToken
  rw [h]

theorem resolveToken_eq (hgoing : p.halted = none) (ht : p.tree.tokenAt? place = some t) :
    p.resolveToken place =
      if t.resolved && t.references.isEmpty then p.accept t.path else p.turn place t := by
  unfold resolveToken
  rw [hgoing, ht]

theorem advance_record {after : Token} {c : Check} (ht : p.tree.tokenAt? place = some t)
    (hdepths : ∀ other, storedDepth c.depths other = storedDepth p.resolver.depths other) :
    Advance p (p.record place after c) place after.path after c where
  limit_eq := rfl
  label := Group.label_modifyToken _ _ _
  keysDistinct := fun hk => hk.modifyToken _ _
  here := by
    show (p.tree.modifyToken place fun _ => after).tokenAt? place = _
    rw [Group.tokenAt?_modifyToken, if_pos rfl, ht]
    rfl
  elsewhere := fun other hne => by
    show (p.tree.modifyToken place fun _ => after).tokenAt? other = _
    rw [Group.tokenAt?_modifyToken, if_neg hne]
  outcomes := rfl
  depth_here := by
    show storedDepth (c.depths.put after.path c.depth) after.path = _
    unfold storedDepth
    rw [Table.get?_put_self]
    rfl
  depth_elsewhere := fun other hne => by
    rw [← hdepths other]
    show storedDepth (c.depths.put after.path c.depth) other = _
    unfold storedDepth
    rw [Table.get?_put_of_ne _ _ hne]
  problems := rfl
  halted := rfl

theorem halts_halt {c : Check} {fault : NumeralFault}
    (hdepths : ∀ other, storedDepth c.depths other = storedDepth p.resolver.depths other) :
    Halts p (p.halt c fault) fault := ⟨rfl, rfl, rfl, hdepths, rfl, rfl⟩

/-- A token that refers to nothing and is resolved succeeds as it is. -/
theorem advance_accept (ht : p.tree.tokenAt? place = some t) :
    Advance p (p.accept t.path) place t.path t ⟨[], [], none, 0⟩ := by
  refine ⟨rfl, rfl, id, ht, fun _ _ => rfl, rfl, ?_, ?_, ?_, rfl⟩
  · show storedDepth (p.resolver.depths.put t.path 0) t.path = 0
    unfold storedDepth
    rw [Table.get?_put_self]
    rfl
  · intro other hne
    show storedDepth (p.resolver.depths.put t.path 0) other = _
    unfold storedDepth
    rw [Table.get?_put_of_ne _ _ hne]
  · exact (List.append_nil _).symm

/-- How the turn of a token goes: what the token is then, and the check with its problems. -/
inductive Turn (p : Pass) (t : Token) : Token → Check → Prop
  | plain : t.resolved = true → t.references = [] → Turn p t t ⟨[], [], none, 0⟩
  | resolved {v : Value} : (t.resolved && t.references.isEmpty) = false →
      (Check.checked p.tree p.resolver t).failure = none →
      t.value.substitute p.tree.meaning = .ok v →
      Turn p t { t with resolved := true, resolvedValue := v } (Check.checked p.tree p.resolver t)
  | unfit {cause : Cause} : (t.resolved && t.references.isEmpty) = false →
      (Check.checked p.tree p.resolver t).failure = none →
      t.value.substitute p.tree.meaning = .error (.cause cause) →
      Turn p t { t with resolved := false }
        ((Check.checked p.tree p.resolver t).fail t.path .invalid cause none)
  | failed {kind : ProblemKind} : (t.resolved && t.references.isEmpty) = false →
      (Check.checked p.tree p.resolver t).failure = some kind →
      Turn p t { t with resolved := false } (Check.checked p.tree p.resolver t)

/-- What keeps a turn from coming to its end: the limit would have to be put into words, or a
value into a text. -/
inductive Stuck (p : Pass) (t : Token) : NumeralFault → Prop
  | limit : (t.resolved && t.references.isEmpty) = false →
      (Check.followed p.tree p.resolver t).failure = none →
      p.resolver.maxDepth < (Check.followed p.tree p.resolver t).depth →
      isWritable p.resolver.maxDepth = false → Stuck p t (.unwritable p.resolver.maxDepth)
  | form {fault : NumeralFault} : (t.resolved && t.references.isEmpty) = false →
      (Check.checked p.tree p.resolver t).failure = none →
      t.value.substitute p.tree.meaning = .error (.numeral fault) → Stuck p t fault

theorem turn_of_failure (h : (Check.followed p.tree p.resolver t).failure ≠ none) :
    p.turn place t =
      p.record place { t with resolved := false } (Check.checked p.tree p.resolver t) := by
  rw [Check.checked_of_failure h]
  exact if_pos (Option.isSome_iff_ne_none.mpr h)

theorem turn_of_deep (h : (Check.followed p.tree p.resolver t).failure = none)
    (hdeep : p.resolver.maxDepth < (Check.followed p.tree p.resolver t).depth) :
    p.turn place t =
      if isWritable p.resolver.maxDepth then
        p.record place { t with resolved := false } (Check.checked p.tree p.resolver t)
      else
        p.halt (Check.followed p.tree p.resolver t) (.unwritable p.resolver.maxDepth) := by
  rw [Check.checked_of_deep h hdeep]
  exact (if_neg (by simp [h])).trans (if_pos hdeep)

theorem turn_of_within (h : (Check.followed p.tree p.resolver t).failure = none)
    (hwithin : ((Check.followed p.tree p.resolver t).depth : Int) ≤ p.resolver.maxDepth) :
    p.turn place t =
      match t.value.substitute p.tree.meaning with
      | .ok v =>
        p.record place { t with resolved := true, resolvedValue := v }
          (Check.checked p.tree p.resolver t)
      | .error (.cause cause) =>
        p.record place { t with resolved := false }
          ((Check.checked p.tree p.resolver t).fail t.path .invalid cause none)
      | .error (.numeral fault) => p.halt (Check.checked p.tree p.resolver t) fault := by
  rw [Check.checked_of_within p.tree p.resolver t hwithin]
  exact (if_neg (by simp [h])).trans (if_neg (Int.not_lt.mpr hwithin))

/-- A turn that has something to do ends with a check of these, or it comes to no end. -/
theorem turn_cases (ht : p.tree.tokenAt? place = some t)
    (hnew : (t.resolved && t.references.isEmpty) = false) :
    (∃ fault, Halts p (p.turn place t) fault ∧ Stuck p t fault) ∨
      ∃ after c, Advance p (p.turn place t) place t.path after c ∧ c.Reports t.path ∧
        Turn p t after c := by
  have hreports := Check.checked_reports p.tree p.resolver t
  have hdepths := Check.storedDepth_checked p.tree p.resolver t
  cases hf : (Check.followed p.tree p.resolver t).failure with
  | some kind =>
    have hne : (Check.followed p.tree p.resolver t).failure ≠ none := by
      rw [hf]
      exact Option.some_ne_none kind
    have hc := (congrArg Check.failure (Check.checked_of_failure hne)).trans hf
    rw [turn_of_failure hne]
    exact .inr ⟨_, _, advance_record ht hdepths, hreports, .failed hnew hc⟩
  | none =>
    rcases Int.lt_or_le p.resolver.maxDepth (Check.followed p.tree p.resolver t).depth with
      hdeep | hwithin
    · rw [turn_of_deep hf hdeep]
      split
      · have hc : (Check.checked p.tree p.resolver t).failure = some .depth := by
          rw [Check.checked_of_deep hf hdeep, Check.fail, hf]
          rfl
        exact .inr ⟨_, _, advance_record ht hdepths, hreports, .failed hnew hc⟩
      · rename_i hlimit
        exact .inl ⟨_, halts_halt (Check.storedDepth_followed p.tree p.resolver t),
          .limit hnew hf hdeep (by simpa using hlimit)⟩
    · have hc := Check.failure_checked_iff.mpr ⟨hf, hwithin⟩
      rw [turn_of_within hf hwithin]
      split
      · rename_i v hv
        exact .inr ⟨_, _, advance_record ht hdepths, hreports, .resolved hnew hc hv⟩
      · rename_i cause hv
        exact .inr ⟨_, _, advance_record ht hdepths, Check.reports_fail hreports _ _ _,
          .unfit hnew hc hv⟩
      · rename_i fault hv
        exact .inl ⟨fault, halts_halt hdepths, .form hnew hc hv⟩

/-- Every turn of a token is one of these, and it changes nothing else. -/
theorem exists_turn (hgoing : p.halted = none) (ht : p.tree.tokenAt? place = some t) :
    (∃ fault, Halts p (p.resolveToken place) fault ∧ Stuck p t fault) ∨
      ∃ after c, Advance p (p.resolveToken place) place t.path after c ∧ c.Reports t.path ∧
        Turn p t after c := by
  rw [resolveToken_eq hgoing ht]
  cases hplain : t.resolved && t.references.isEmpty with
  | true =>
    have hadvance := advance_accept ht
    rw [Bool.and_eq_true, List.isEmpty_iff] at hplain
    exact .inr ⟨t, _, hadvance, ⟨fun _ he => absurd he List.not_mem_nil, iff_of_true rfl rfl⟩,
      .plain hplain.1 hplain.2⟩
  | false => exact turn_cases ht hplain

/-- What is kept where a pass stays as it is, is halted or goes on is kept by every turn. -/
theorem resolveToken_cases {I : Pass → Prop} (same : I p)
    (halts : ∀ fault, Halts p (p.resolveToken place) fault → p.halted = none →
      I (p.resolveToken place))
    (goes : ∀ t after c, p.tree.tokenAt? place = some t →
      Advance p (p.resolveToken place) place t.path after c → c.Reports t.path →
        Turn p t after c → I (p.resolveToken place)) : I (p.resolveToken place) := by
  cases hgoing : p.halted with
  | some fault =>
    rw [resolveToken_of_halted hgoing]
    exact same
  | none =>
    cases ht : p.tree.tokenAt? place with
    | none =>
      unfold Pass.resolveToken
      rw [hgoing, ht]
      exact same
    | some t =>
      rcases exists_turn hgoing ht with
        ⟨fault, hhalts, -⟩ | ⟨after, c, hadvance, hreports, hturn⟩
      · exact halts fault hhalts hgoing
      · exact goes t after c ht hadvance hreports hturn

/-- **The turn of a token keeps the invariant and gives the token an outcome**,
provided that the order of turns is right for it. -/
theorem Faithful.resolveToken (hg : g.Prepared) (h : p.Faithful g limit)
    (ht : g.tokenAt? place = some t) (hnew : p.resolver.outcomes.get? t.path = none)
    (hturn : g.InTime t.path → ∀ r ∈ t.references, ∀ y, g.findToken? r = some y →
      y.references ≠ [] → p.resolver.outcomes.has y.path = true)
    (htime : (∀ r ∈ t.references, ∀ y, g.findToken? r = some y → y.references ≠ [] →
      p.resolver.outcomes.get? y.path = some none) → g.InTime t.path) :
    (p.resolveToken place).Faithful g limit ∧
      ((p.resolveToken place).halted = none → ∃ outcome,
        (p.resolveToken place).resolver.outcomes = p.resolver.outcomes.put t.path outcome) := by
  cases hgoing : p.halted with
  | some fault =>
    rw [resolveToken_of_halted hgoing]
    exact ⟨h, fun hnone => absurd (hgoing.symm.trans hnone) (Option.some_ne_none fault)⟩
  | none =>
  rcases exists_turn hgoing (h.pending place t ht hnew).1 with
    ⟨fault, hhalts, -⟩ | ⟨after, c, hadvance, hreports, hcase⟩
  · refine ⟨h.of_halts hhalts, fun hnone => ?_⟩
    exact absurd (hhalts.halted.symm.trans hnone) (Option.some_ne_none fault)
  refine ⟨h.advance hg ht hadvance hreports hnew (fun hnone => ?_) (fun hnone => ?_)
    (fun hsome => ?_), fun _ => ⟨_, hadvance.outcomes⟩⟩
  · cases hcase with
    | plain hresolved hreferences =>
      exact ⟨t.value, .of_resolved hg ht hresolved,
        (hg.tracked place t ht).eq_of_resolved hresolved, Group.isLongest_zero hreferences⟩
    | resolved _ hf hv =>
      obtain ⟨hsettles, hlongest⟩ := h.settles_of_checked hg ht htime hf hv
      exact ⟨_, hsettles, rfl, hlongest⟩
    | unfit => exact absurd hnone (Check.failure_fail _ _ _ _ _)
    | failed _ hf =>
      rw [hf] at hnone
      cases hnone
  · intro r hr y hy hne
    cases hcase with
    | plain _ hreferences => exact absurd (hreferences ▸ hr) List.not_mem_nil
    | resolved _ hf _ =>
      have hfollowed := (Check.failure_checked_iff.mp hf).1
      obtain ⟨_, z, -, hz, -, -, ho⟩ := h.targets_of_followed hg ht hfollowed hr
      rw [← Option.some.inj (hy.symm.trans hz)] at ho
      exact ho hne
    | unfit => exact absurd hnone (Check.failure_fail _ _ _ _ _)
    | failed _ hf =>
      rw [hf] at hnone
      cases hnone
  · cases hcase with
    | plain => exact absurd rfl hsome
    | resolved _ hf _ => exact absurd hf hsome
    | unfit hplain _ hv =>
      refine ⟨fun v hsettles => ?_, rfl⟩
      rw [(h.checked_of_settles hg ht hplain hturn hsettles).2] at hv
      cases hv
    | failed hplain hf =>
      refine ⟨fun v hsettles => ?_, rfl⟩
      rw [(h.checked_of_settles hg ht hplain hturn hsettles).1] at hf
      cases hf

end DesignTokens.Pass
