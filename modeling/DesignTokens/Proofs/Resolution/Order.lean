import DesignTokens.Proofs.Resolution.Turn

/-!
# All turns

Resolution gives out turns in three rounds: the members of cycles fail, then come the
paths of the order of resolution, then the tokens that are left.  After each round it
is known which tokens have had their turn (`Pass.Marked`, `Pass.Ordered`), and with
that the step lemma applies to the next turn.  At the end the invariant holds, every token has had
its turn unless the pass was halted (`finalPass_spec`), and whatever else every turn keeps holds
with it (`Pass.Kept`, `finalPass_rounds`).
-/

namespace DesignTokens

namespace Pass

variable {g : Group} {limit : Int} {p : Pass}

/-! ### Members of cycles -/

/-- The invariant while members of cycles fail: just those have had their turn. -/
structure Marked (g : Group) (limit : Int) (done : List String) (p : Pass) : Prop where
  faithful : p.Faithful g limit
  going : p.halted = none
  has_iff : ∀ place t, g.tokenAt? place = some t →
    (p.resolver.outcomes.has t.path = true ↔ t.path ∈ done ∧ g.placeOf t.path = place)

theorem marked_start (hg : g.Prepared) (limit : Int) (cycles : Option (CycleReport String)) :
    Marked g limit [] ⟨g, { Resolver.start limit with cycles }, [], none⟩ where
  going := rfl
  faithful :=
    { limit_eq := rfl
      label := rfl
      keysDistinct := hg.keysDistinct
      absent := fun _ h => h
      pending := fun _ _ ht _ => ⟨ht, rfl⟩
      succeeded := fun _ _ _ ho => by cases ho
      grounded := fun _ _ _ ho => by cases ho
      failed := fun _ _ _ _ ho => by cases ho
      reported := fun _ he => absurd he List.not_mem_nil
      known := fun _ h => by cases h }
  has_iff := fun _ _ _ => by
    refine iff_of_false ?_ fun h => List.not_mem_nil h.1
    intro h
    cases h

theorem not_resolved_of_onCycle (hg : g.Prepared) {place : Place} {t : Token}
    (ht : g.tokenAt? place = some t) (hcycle : g.OnCycle t.path) : t.resolved = false := by
  obtain ⟨other, u, hu, hpath, r, hr, -⟩ := hcycle.exists_next hg
  rw [hg.placed.eq_of_path_eq hu ht hpath] at hr
  rw [Bool.eq_false_iff]
  intro hresolved
  rw [((hg.tracked _ t ht).resolved_iff.mp hresolved).1] at hr
  exact List.not_mem_nil hr

def circular (cycle : List String) (member : String) : Check :=
  ⟨[], [⟨.circular, member, .cycle cycle, some (Alias.ofPath member), none⟩], some .circular, 0⟩

theorem circular_reports (cycle : List String) (member : String) :
    (circular cycle member).Reports member := by
  refine ⟨fun e he => ?_, iff_of_false (Option.some_ne_none _) (List.cons_ne_nil _ _)⟩
  rw [List.mem_singleton.mp he]

theorem Faithful.advance_failMember (h : p.Faithful g limit) (cycle : List String) {t : Token}
    (ht : g.findToken? t.path = some t) (hout : p.resolver.outcomes.get? t.path = none) :
    Advance p (p.failMember cycle t.path) (g.placeOf t.path) t.path t (circular cycle t.path) := by
  obtain ⟨htree, hdepth⟩ := h.pending _ t ht hout
  have hfind : p.tree.findToken? t.path = some t := (h.findToken?_eq t.path).trans htree
  unfold Pass.failMember
  rw [hfind]
  exact ⟨rfl, rfl, id, htree, fun _ _ => rfl, rfl, hdepth, fun _ _ => rfl, rfl, rfl⟩

theorem halted_failMember (p : Pass) (cycle : List String) (member : String) :
    (p.failMember cycle member).halted = p.halted := by
  unfold Pass.failMember
  split <;> rfl

/-- A token that is a member of a cycle fails at once. -/
theorem Faithful.failMember (hg : g.Prepared) (h : p.Faithful g limit) (cycle : List String)
    {t : Token} (ht : g.findToken? t.path = some t)
    (hout : p.resolver.outcomes.get? t.path = none) (hcycle : g.OnCycle t.path) :
    (p.failMember cycle t.path).Faithful g limit ∧
      (p.failMember cycle t.path).resolver.outcomes =
        p.resolver.outcomes.put t.path (some .circular) := by
  have hresolved := not_resolved_of_onCycle hg ht hcycle
  have hadvance := h.advance_failMember cycle ht hout
  refine ⟨h.advance hg ht hadvance (circular_reports cycle t.path) hout ?_ ?_ ?_, hadvance.outcomes⟩
  · intro hnone
    cases hnone
  · intro hnone
    cases hnone
  · intro _
    refine ⟨?_, Token.Tracked.eq_of_not_resolved hresolved⟩
    intro v hv
    exact hv.not_onCycle hg ht hcycle

theorem Faithful.failMember_of_none (h : p.Faithful g limit) (cycle : List String)
    {member : String} (ht : g.findToken? member = none) : p.failMember cycle member = p := by
  have hfind : p.tree.findToken? member = none :=
    (h.findToken?_eq member).trans (h.absent _ ht)
  unfold Pass.failMember
  rw [hfind]

theorem Marked.pending (hg : g.Prepared) {done : List String} {member : String}
    (h : p.Marked g limit done) (hcycle : g.OnCycle member) (hnew : member ∉ done) {t : Token}
    (ht : g.findToken? member = some t) :
    t.path = member ∧ p.resolver.outcomes.get? t.path = none := by
  have hpath : t.path = member := hg.placed.path_of_findToken (hcycle.hasSegments hg) ht
  refine ⟨hpath, ?_⟩
  rw [Table.get?_eq_none_iff, ← Table.has_iff_mem_keys, h.has_iff _ t ht, hpath]
  exact fun hm => hnew hm.1

/-- A member of a cycle fails, if it is a token. -/
theorem Marked.failMember (hg : g.Prepared) {done cycle : List String} {member : String}
    (h : p.Marked g limit done) (hcycle : g.OnCycle member) (hnew : member ∉ done) :
    (p.failMember cycle member).Marked g limit (done ++ [member]) := by
  cases ht : g.findToken? member with
  | none =>
    rw [h.faithful.failMember_of_none cycle ht]
    refine ⟨h.faithful, h.going, fun place t hat => (h.has_iff place t hat).trans ?_⟩
    refine and_congr_left fun hplace => ?_
    rw [List.mem_append, List.mem_singleton, iff_self_or]
    intro he
    have hnone : g.tokenAt? (g.placeOf member) = none := ht
    rw [← he, hplace, hat] at hnone
    cases hnone
  | some t =>
    have hat : g.tokenAt? (g.placeOf member) = some t := ht
    obtain ⟨rfl, hout⟩ := h.pending hg hcycle hnew ht
    obtain ⟨hfaithful, houtcomes⟩ := h.faithful.failMember hg cycle ht hout hcycle
    refine ⟨hfaithful, (halted_failMember p cycle t.path).trans h.going, ?_⟩
    intro place u hu
    rw [houtcomes, Table.has_put, h.has_iff place u hu, List.mem_append, List.mem_singleton,
      or_and_right, or_comm]
    refine or_congr_right ⟨fun he => ⟨he, ?_⟩, fun he => he.1⟩
    rw [he]
    exact hg.distinct _ _ _ _ hat hu he.symm

/-! ### The order of resolution -/

/-- Whether the token at a place has had its turn once some paths of the order have:
one of them leads to it, or it is a member of a cycle. -/
def Turned (g : Group) (done : List String) (place : Place) (t : Token) : Prop :=
  (∃ q ∈ done, g.placeOf q = place) ∨ (g.OnCycle t.path ∧ g.placeOf t.path = place)

/-- The invariant while the order is gone through. -/
structure Ordered (g : Group) (limit : Int) (done : List String) (p : Pass) : Prop where
  faithful : p.Faithful g limit
  has_iff : p.halted = none → ∀ place t, g.tokenAt? place = some t →
    (p.resolver.outcomes.has t.path = true ↔ Turned g done place t)

theorem standsBefore_of_mem {done rest : List String} {q r : String} (h : r ∈ done) :
    Graph.StandsBefore (done ++ q :: rest) r q := by
  obtain ⟨before, between, rfl⟩ := List.append_of_mem h
  exact ⟨before, between, rest, by simp⟩

theorem mem_of_standsBefore {done rest : List String} {q r : String}
    (hnodup : (done ++ q :: rest).Nodup) (h : Graph.StandsBefore (done ++ q :: rest) r q) :
    r ∈ done := by
  obtain ⟨before, between, after, he⟩ := h
  rw [← List.cons_append, ← List.append_assoc] at he
  have hdone : q ∉ done := fun hm =>
    (List.nodup_append.mp hnodup).2.2 q hm q List.mem_cons_self rfl
  have hbefore : q ∉ before ++ r :: between := fun hm =>
    (List.nodup_append.mp (he ▸ hnodup)).2.2 q hm q List.mem_cons_self rfl
  have hrest : q ∉ rest := (List.nodup_cons.mp (List.nodup_append.mp hnodup).2.1).1
  have hafter : q ∉ after := (List.nodup_cons.mp (List.nodup_append.mp (he ▸ hnodup)).2.1).1
  rw [((List.append_cons_inj_of_notMem hdone hrest).mp he).1]
  exact List.mem_append_right _ List.mem_cons_self

/-- A turn of the order leads to another token only if that has not had its turn. -/
theorem Ordered.not_has (hg : g.Prepared) {done rest : List String} {q : String}
    (h : p.Ordered g limit done) (hgoing : p.halted = none) (hnodup : (done ++ q :: rest).Nodup)
    (hnew : p.resolver.outcomes.has q = false) {t : Token} (ht : g.findToken? q = some t) :
    p.resolver.outcomes.get? t.path = none := by
  rw [Table.get?_eq_none_iff, ← Table.has_iff_mem_keys, h.has_iff hgoing _ t ht]
  rintro (⟨q', hq', hplace⟩ | ⟨hcycle, hplace⟩)
  · rw [Group.placeOf_injective hg.label_path hplace] at hq'
    exact (List.nodup_append.mp hnodup).2.2 q hq' q List.mem_cons_self rfl
  · have hpath := Group.placeOf_injective hg.label_path hplace
    have hhas := (h.has_iff hgoing _ t ht).mpr (Or.inr ⟨hcycle, hplace⟩)
    rw [hpath, hnew] at hhas
    cases hhas

theorem Ordered.not_onCycle {done : List String} {q : String} (h : p.Ordered g limit done)
    (hgoing : p.halted = none) (hnew : p.resolver.outcomes.has q = false) {t : Token}
    (ht : g.findToken? q = some t)
    (hpath : t.path = q) : ¬ g.OnCycle t.path := by
  intro hcycle
  have hhas := (h.has_iff hgoing _ t ht).mpr (Or.inr ⟨hcycle, by rw [hpath]⟩)
  rw [hpath, hnew] at hhas
  cases hhas

/-- A path with an outcome leads to no token but its own. -/
theorem Ordered.path_of_has (hg : g.Prepared) {done : List String} {q : String}
    (h : p.Ordered g limit done) (hgoing : p.halted = none)
    (hhas : p.resolver.outcomes.has q = true) {t : Token} (ht : g.findToken? q = some t) :
    t.path = q := by
  by_contra hne
  obtain ⟨place, u, hu, rfl⟩ := h.faithful.known q hhas
  have hother : g.placeOf u.path ≠ place := by
    intro hplace
    have hat : g.tokenAt? place = some t := hplace ▸ ht
    rw [hu] at hat
    exact hne (congrArg Token.path (Option.some.inj hat)).symm
  rcases (h.has_iff hgoing place u hu).mp hhas with ⟨q', -, hplace⟩ | ⟨-, hplace⟩
  · have hleads : g.findToken? q' = some u := by
      show g.tokenAt? (g.placeOf q') = some u
      rw [hplace]
      exact hu
    have hpath : u.path ≠ q' := by
      rintro rfl
      exact hother hplace
    rw [hg.placed.findToken?_path_eq_none hleads hpath] at ht
    cases ht
  · exact hother hplace

/-- When its turn comes, a token that is in time finds its targets done. -/
theorem Ordered.has_of_inTime (hg : g.Prepared) {done rest : List String} {q : String}
    (h : p.Ordered g limit done) (hgoing : p.halted = none)
    (horder : g.resolutionOrder = done ++ q :: rest)
    (hnew : p.resolver.outcomes.has q = false) {t : Token} (ht : g.findToken? q = some t)
    (htime : g.InTime t.path) {r : String} (hr : r ∈ t.references) {y : Token}
    (hy : g.findToken? r = some y) (hne : y.references ≠ []) :
    p.resolver.outcomes.has y.path = true := by
  have hbefore : Graph.StandsBefore g.resolutionOrder r q := by
    by_cases hpath : t.path = q
    · exact hpath ▸ Group.standsBefore_of_reference hg ht (h.not_onCycle hgoing hnew ht hpath) hr
    · refine htime q ?_ (Ne.symm hpath) t ht rfl r hr y hy hne
      rw [horder]
      exact List.mem_append_right _ List.mem_cons_self
  rw [horder] at hbefore
  have hdone := mem_of_standsBefore (horder ▸ g.resolutionOrder_nodup) hbefore
  exact (h.has_iff hgoing _ y hy).mpr (Or.inl ⟨r, hdone, rfl⟩)

/-- A token whose targets have succeeded when its turn comes is in time. -/
theorem Ordered.inTime_of_succeeded (hg : g.Prepared) {done rest : List String} {q : String}
    (h : p.Ordered g limit done) (hgoing : p.halted = none)
    (horder : g.resolutionOrder = done ++ q :: rest) {t : Token} (ht : g.findToken? q = some t)
    (hall : ∀ r ∈ t.references, ∀ y, g.findToken? r = some y → y.references ≠ [] →
      p.resolver.outcomes.get? y.path = some none) : g.InTime t.path := by
  intro q' _ _ u hu hpath r hr y hy hne
  rw [hg.placed.eq_of_path_eq hu ht hpath] at hr
  have hq : q' = q := Group.placeOf_injective hg.label_path (hg.distinct _ _ u t hu ht hpath)
  have hsuccess := hall r hr y hy hne
  have hhas : p.resolver.outcomes.has y.path = true := by
    rw [Table.has, hsuccess]
    rfl
  rcases (h.has_iff hgoing _ y hy).mp hhas with ⟨r', hr', hplace⟩ | ⟨hcycle, -⟩
  · rw [Group.placeOf_injective hg.label_path hplace] at hr'
    rw [hq, horder]
    exact standsBefore_of_mem hr'
  · obtain ⟨v, hv, -⟩ := h.faithful.succeeded _ y hy hsuccess
    exact absurd hcycle (hv.not_onCycle hg hy)

theorem turned_append_singleton {done : List String} {q : String} {place : Place} {t : Token} :
    Turned g (done ++ [q]) place t ↔ Turned g done place t ∨ g.placeOf q = place := by
  unfold Turned
  constructor
  · rintro (⟨q', hq', hplace⟩ | hcycle)
    · rcases List.mem_append.mp hq' with hq' | hq'
      · exact Or.inl (Or.inl ⟨q', hq', hplace⟩)
      · rw [List.mem_singleton.mp hq'] at hplace
        exact Or.inr hplace
    · exact Or.inl (Or.inr hcycle)
  · rintro ((⟨q', hq', hplace⟩ | hcycle) | hplace)
    · exact Or.inl ⟨q', List.mem_append_left _ hq', hplace⟩
    · exact Or.inr hcycle
    · exact Or.inl ⟨q, List.mem_append_right _ List.mem_cons_self, hplace⟩

theorem resolvePath_of_halted {fault : NumeralFault} (h : p.halted = some fault) (path : String) :
    p.resolvePath path = p := by
  unfold Pass.resolvePath
  split
  · rfl
  · split
    · rfl
    · exact resolveToken_of_halted h _

theorem resolvePlace_of_halted {fault : NumeralFault} (h : p.halted = some fault) (place : Place) :
    p.resolvePlace place = p := by
  unfold Pass.resolvePlace
  split
  · rfl
  · split
    · rfl
    · exact resolveToken_of_halted h _

theorem going_of_foldl {α : Type} {step : Pass → α → Pass}
    (hstep : ∀ p a fault, p.halted = some fault → step p a = p) {l : List α}
    (h : (l.foldl step p).halted = none) : p.halted = none := by
  induction l generalizing p with
  | nil => exact h
  | cons a l ih =>
    cases hgoing : p.halted with
    | none => rfl
    | some fault =>
      rw [List.foldl_cons, hstep p a fault hgoing] at h
      exact absurd (hgoing.symm.trans (ih h)) (Option.some_ne_none fault)

/-- The turn of a path whose token has no outcome yet. -/
theorem Ordered.resolveToken (hg : g.Prepared) {done rest : List String} {q : String}
    (h : p.Ordered g limit done) (hgoing : p.halted = none)
    (horder : g.resolutionOrder = done ++ q :: rest)
    (hnew : p.resolver.outcomes.has q = false) {t : Token} (ht : g.findToken? q = some t) :
    (p.resolveToken (g.placeOf q)).Ordered g limit (done ++ [q]) := by
  have hat : g.tokenAt? (g.placeOf q) = some t := ht
  have hout := h.not_has hg hgoing (horder ▸ g.resolutionOrder_nodup) hnew ht
  obtain ⟨hfaithful, hrecorded⟩ := h.faithful.resolveToken hg hat hout
    (fun htime r hr y hy hne => h.has_of_inTime hg hgoing horder hnew ht htime hr hy hne)
    (fun hall => h.inTime_of_succeeded hg hgoing horder ht hall)
  refine ⟨hfaithful, fun hon place u hu => ?_⟩
  obtain ⟨outcome, hput⟩ := hrecorded hon
  rw [hput, Table.has_put, h.has_iff hgoing place u hu, turned_append_singleton, or_comm]
  refine or_congr_right ⟨?_, ?_⟩
  · intro hpath
    exact (hg.distinct _ _ u t hu hat hpath).symm
  · rintro rfl
    rw [hu] at hat
    exact congrArg Token.path (Option.some.inj hat)

/-- A path of the order leads to a turn unless its token, if there is one, has had it. -/
theorem Ordered.resolvePath_cases (hg : g.Prepared) {done rest : List String} {q : String}
    (h : p.Ordered g limit done) (hgoing : p.halted = none)
    (horder : g.resolutionOrder = done ++ q :: rest) :
    (p.resolvePath q = p ∧
        ∀ t, g.findToken? q = some t → p.resolver.outcomes.has t.path = true) ∨
      ∃ t, g.findToken? q = some t ∧ p.resolver.outcomes.has q = false ∧
        p.resolvePath q = p.resolveToken (g.placeOf q) := by
  unfold Pass.resolvePath
  cases hhas : p.resolver.outcomes.has q with
  | true =>
    refine Or.inl ⟨rfl, fun t ht => ?_⟩
    rw [h.path_of_has hg hgoing hhas ht]
    exact hhas
  | false =>
    rw [if_neg Bool.false_ne_true, h.faithful.findToken?_eq]
    cases ht : g.findToken? q with
    | none =>
      rw [h.faithful.absent _ ht]
      exact Or.inl ⟨rfl, fun t hat => by cases hat⟩
    | some t =>
      have hout := h.not_has hg hgoing (horder ▸ g.resolutionOrder_nodup) hhas ht
      have hplace : p.tree.placeOf q = g.placeOf q := by
        unfold Group.placeOf
        rw [h.faithful.label]
      rw [(h.faithful.pending _ t ht hout).1, hplace]
      exact Or.inr ⟨t, rfl, rfl, rfl⟩

theorem Ordered.resolvePath (hg : g.Prepared) {done rest : List String} {q : String}
    (h : p.Ordered g limit done) (hgoing : p.halted = none)
    (horder : g.resolutionOrder = done ++ q :: rest) :
    (p.resolvePath q).Ordered g limit (done ++ [q]) := by
  rcases h.resolvePath_cases hg hgoing horder with ⟨he, hall⟩ | ⟨t, ht, hhas, he⟩
  · rw [he]
    refine ⟨h.faithful, fun hon place t ht => ?_⟩
    rw [turned_append_singleton, h.has_iff hon place t ht, iff_self_or]
    rintro rfl
    exact (h.has_iff hon _ t ht).mp (hall t ht)
  · rw [he]
    exact h.resolveToken hg hgoing horder hhas ht

/-! ### The tokens that are left -/

/-- The invariant after the order: no token of the order is left. -/
structure Leftover (g : Group) (limit : Int) (p : Pass) : Prop where
  faithful : p.Faithful g limit
  has_of_turned : p.halted = none → ∀ place t, g.tokenAt? place = some t →
    Turned g g.resolutionOrder place t →
    p.resolver.outcomes.has t.path = true

theorem turned_of_target (hg : g.Prepared) {r : String} (hr : Alias.HasSegments r) {y : Token}
    (hy : g.findToken? r = some y) (hne : y.references ≠ []) :
    Turned g g.resolutionOrder (g.placeOf r) y := by
  have hpath := hg.placed.path_of_findToken hr hy
  by_cases hcycle : g.OnCycle y.path
  · exact Or.inr ⟨hcycle, by rw [hpath]⟩
  · obtain ⟨r', hr'⟩ := List.exists_mem_of_ne_nil _ hne
    obtain ⟨before, between, after, he⟩ := Group.standsBefore_of_reference hg hy hcycle hr'
    refine Or.inl ⟨r, ?_, rfl⟩
    rw [he, hpath]
    simp

/-- The token at a place may be changed by a pass, but its path stays. -/
theorem Faithful.exists_token (h : p.Faithful g limit) {place : Place} {t : Token}
    (ht : g.tokenAt? place = some t) : ∃ u, p.tree.tokenAt? place = some u ∧ u.path = t.path := by
  cases hout : p.resolver.outcomes.get? t.path with
  | none => exact ⟨t, (h.pending place t ht hout).1, rfl⟩
  | some outcome =>
    cases outcome with
    | none =>
      obtain ⟨v, -, htree, -⟩ := h.succeeded place t ht hout
      exact ⟨_, htree, rfl⟩
    | some kind =>
      obtain ⟨-, htree, -⟩ := h.failed place t kind ht hout
      exact ⟨_, htree, rfl⟩

theorem Faithful.resolvePlace_eq (h : p.Faithful g limit) {place : Place} {t : Token}
    (ht : g.tokenAt? place = some t) :
    p.resolvePlace place =
      if p.resolver.outcomes.has t.path then p else p.resolveToken place := by
  obtain ⟨u, hu, hpath⟩ := h.exists_token ht
  unfold Pass.resolvePlace
  rw [hu, ← hpath]

/-- A turn of the last round. -/
theorem Leftover.resolveToken (hg : g.Prepared) (h : p.Leftover g limit) (hgoing : p.halted = none)
    {place : Place} {t : Token} (ht : g.tokenAt? place = some t)
    (hnew : p.resolver.outcomes.has t.path = false) :
    (p.resolveToken place).Leftover g limit ∧
      ((p.resolveToken place).halted = none → ∃ outcome,
        (p.resolveToken place).resolver.outcomes = p.resolver.outcomes.put t.path outcome) := by
  have hout : p.resolver.outcomes.get? t.path = none := by simpa [Table.has] using hnew
  obtain ⟨hfaithful, hrecorded⟩ := h.faithful.resolveToken hg ht hout
    (fun _ r hr y hy hne => h.has_of_turned hgoing _ y hy
      (turned_of_target hg ((hg.tracked place t ht).hasSegments r hr) hy hne))
    (fun _ q hq _ u hu hpath => by
      have hhas := h.has_of_turned hgoing _ u hu (Or.inl ⟨q, hq, rfl⟩)
      rw [hpath, hnew] at hhas
      cases hhas)
  refine ⟨⟨hfaithful, fun hon other u hu hturned => ?_⟩, hrecorded⟩
  obtain ⟨outcome, hput⟩ := hrecorded hon
  rw [hput]
  exact Table.has_put.mpr (Or.inr (h.has_of_turned hgoing other u hu hturned))

theorem Leftover.resolvePlace (hg : g.Prepared) (h : p.Leftover g limit)
    (hgoing : p.halted = none) {place : Place} {t : Token} (ht : g.tokenAt? place = some t) :
    (p.resolvePlace place).Leftover g limit ∧
      ((p.resolvePlace place).halted = none → ∀ path,
        (p.resolvePlace place).resolver.outcomes.has path = true ↔
          path = t.path ∨ p.resolver.outcomes.has path = true) := by
  rw [h.faithful.resolvePlace_eq ht]
  cases hhas : p.resolver.outcomes.has t.path with
  | true =>
    rw [if_pos rfl]
    refine ⟨h, fun _ path => ?_⟩
    rw [iff_or_self]
    rintro rfl
    exact hhas
  | false =>
    rw [if_neg Bool.false_ne_true]
    obtain ⟨hleft, hrecorded⟩ := h.resolveToken hg hgoing ht hhas
    refine ⟨hleft, fun hon path => ?_⟩
    obtain ⟨outcome, hput⟩ := hrecorded hon
    rw [hput, Table.has_put]

/-! ### The rounds -/

/-- What every turn keeps that comes before the pass is halted, given what is known of the turns
before it. -/
structure Kept (g : Group) (limit : Int) (I : Pass → Prop) : Prop where
  mark : ∀ {p : Pass} {done : List String} (cycle : List String) {member : String},
    p.Marked g limit done → g.OnCycle member → member ∉ done → I p → I (p.failMember cycle member)
  order : ∀ {p : Pass} {done rest : List String} {q : String}, p.Ordered g limit done →
    p.halted = none → g.resolutionOrder = done ++ q :: rest → I p → I (p.resolvePath q)
  leftover : ∀ {p : Pass} {place : Place} {t : Token}, p.Leftover g limit → p.halted = none →
    g.tokenAt? place = some t → I p → I (p.resolvePlace place)

variable {I : Pass → Prop}

theorem Marked.failCycle (hg : g.Prepared) (hkept : Kept g limit I) (cycle : List String)
    {done members : List String} (h : p.Marked g limit done) (hp : I p)
    (hcycle : ∀ m ∈ members, g.OnCycle m) (hnodup : (done ++ members).Nodup) :
    (members.foldl (Pass.failMember cycle) p).Marked g limit (done ++ members) ∧
      I (members.foldl (Pass.failMember cycle) p) := by
  induction members generalizing p done with
  | nil =>
    rw [List.append_nil]
    exact ⟨h, hp⟩
  | cons member members ih =>
    obtain ⟨hmember, hmembers⟩ := List.forall_mem_cons.mp hcycle
    have hnew : member ∉ done := fun hm =>
      (List.nodup_append.mp hnodup).2.2 member hm member List.mem_cons_self rfl
    rw [List.append_cons] at hnodup ⊢
    exact ih (h.failMember hg hmember hnew) (hkept.mark cycle h hmember hnew hp) hmembers hnodup

theorem Marked.failCycles (hg : g.Prepared) (hkept : Kept g limit I) {done : List String}
    {cycles : List (List String)} (h : p.Marked g limit done) (hp : I p)
    (hcycle : ∀ m ∈ cycles.flatten, g.OnCycle m) (hnodup : (done ++ cycles.flatten).Nodup) :
    (cycles.foldl (fun p cycle => cycle.foldl (Pass.failMember cycle) p) p).Marked g limit
        (done ++ cycles.flatten) ∧
      I (cycles.foldl (fun p cycle => cycle.foldl (Pass.failMember cycle) p) p) := by
  induction cycles generalizing p done with
  | nil =>
    rw [List.flatten_nil, List.append_nil]
    exact ⟨h, hp⟩
  | cons cycle cycles ih =>
    rw [List.flatten_cons] at hcycle hnodup
    rw [← List.append_assoc] at hnodup
    rw [List.flatten_cons, ← List.append_assoc]
    obtain ⟨hhere, hhold⟩ := h.failCycle hg hkept cycle hp
      (fun m hm => hcycle m (List.mem_append_left _ hm)) (List.nodup_append.mp hnodup).1
    exact ih hhere hhold (fun m hm => hcycle m (List.mem_append_right _ hm)) hnodup

theorem Ordered.resolvePaths (hg : g.Prepared) (hkept : Kept g limit I)
    {done rest : List String} (h : p.Ordered g limit done) (hp : I p)
    (horder : g.resolutionOrder = done ++ rest) :
    (rest.foldl Pass.resolvePath p).Ordered g limit g.resolutionOrder ∧
      I (rest.foldl Pass.resolvePath p) := by
  induction rest generalizing p done with
  | nil =>
    rw [List.append_nil] at horder
    rw [horder]
    exact ⟨h, hp⟩
  | cons q rest ih =>
    have horder' : g.resolutionOrder = (done ++ [q]) ++ rest := by
      rw [horder, List.append_assoc, List.singleton_append]
    cases hgoing : p.halted with
    | none => exact ih (h.resolvePath hg hgoing horder) (hkept.order h hgoing horder hp) horder'
    | some fault =>
      have hhalted : ∀ {done}, p.Ordered g limit done := fun {done} =>
        ⟨h.faithful, fun hon => absurd (hgoing.symm.trans hon) (Option.some_ne_none fault)⟩
      rw [List.foldl_cons, resolvePath_of_halted hgoing]
      exact ih hhalted hp horder'

theorem Leftover.resolvePlaces (hg : g.Prepared) (hkept : Kept g limit I)
    (h : p.Leftover g limit) (hp : I p) {places : List Place}
    (hplaces : ∀ place ∈ places, ∃ t, g.tokenAt? place = some t) :
    (places.foldl Pass.resolvePlace p).Leftover g limit ∧
      I (places.foldl Pass.resolvePlace p) ∧
      ((places.foldl Pass.resolvePlace p).halted = none →
        (∀ path, p.resolver.outcomes.has path = true →
          (places.foldl Pass.resolvePlace p).resolver.outcomes.has path = true) ∧
        ∀ place ∈ places, ∀ t, g.tokenAt? place = some t →
          (places.foldl Pass.resolvePlace p).resolver.outcomes.has t.path = true) := by
  induction places generalizing p with
  | nil => exact ⟨h, hp, fun _ => ⟨fun _ hhas => hhas, fun _ hm => absurd hm List.not_mem_nil⟩⟩
  | cons place places ih =>
    obtain ⟨⟨t, ht⟩, hrest⟩ := List.forall_mem_cons.mp hplaces
    cases hgoing : p.halted with
    | some fault =>
      have hsame := resolvePlace_of_halted hgoing place
      rw [List.foldl_cons, hsame]
      obtain ⟨hleft, hhold, -⟩ := ih h hp hrest
      refine ⟨hleft, hhold, fun hon => ?_⟩
      have hnone := going_of_foldl (fun p place _ hp => resolvePlace_of_halted hp place) hon
      exact absurd (hgoing.symm.trans hnone) (Option.some_ne_none fault)
    | none =>
      obtain ⟨hstep, hhas⟩ := h.resolvePlace hg hgoing ht
      obtain ⟨hleft, hhold, hdone⟩ := ih hstep (hkept.leftover h hgoing ht hp) hrest
      refine ⟨hleft, hhold, fun hon => ?_⟩
      have hhas := hhas (going_of_foldl (fun p place _ hp => resolvePlace_of_halted hp place) hon)
      obtain ⟨hgrows, hall⟩ := hdone hon
      refine ⟨fun path hpath => hgrows path ((hhas path).mpr (Or.inr hpath)), ?_⟩
      refine List.forall_mem_cons.mpr ⟨fun u hu => ?_, hall⟩
      rw [ht] at hu
      exact hgrows _ ((hhas _).mpr (Or.inl (congrArg Token.path (Option.some.inj hu)).symm))

end Pass

theorem Pass.outcome_eq_ok {p : Pass} {problems : List Problem} :
    p.outcome = .ok problems ↔ p.halted = none ∧ p.problems = problems := by
  unfold Pass.outcome
  cases p.halted <;> simp

theorem Pass.isSome_outcome {p : Pass} : p.outcome.toOption.isSome = true ↔ p.halted = none := by
  unfold Pass.outcome
  cases p.halted <;> simp [Except.toOption]

namespace Group

variable {g : Group}

/-- The pass over a tree after all turns. -/
def finalPass (g : Group) (limit : Int) : Pass :=
  let p : Pass := ⟨g, { Resolver.start limit with cycles := some g.aliasCycles }, [], none⟩
  let p := g.aliasCycles.cycles.foldl (fun p cycle => cycle.foldl (Pass.failMember cycle) p) p
  let p := g.resolutionOrder.foldl Pass.resolvePath p
  (g.placedTokens.map Prod.fst).foldl Pass.resolvePlace p

/-- The pass over a tree before its first turn. -/
def firstPass (g : Group) (limit : Int) : Pass :=
  ⟨g, { Resolver.start limit with cycles := some g.aliasCycles }, [], none⟩

end Group

namespace Resolver

variable {r : Resolver} {g : Group} {I : Pass → Prop}

/-- The pass of a resolver over a tree before its first turn. -/
def startPass (r : Resolver) (g : Group) : Pass :=
  ⟨g, { r with cycles := some g.aliasCycles }, [], none⟩

/-- The pass of a resolver over a tree after the turns of the order. -/
def orderedPass (r : Resolver) (g : Group) : Pass :=
  g.resolutionOrder.foldl Pass.resolvePath
    (g.aliasCycles.cycles.foldl (fun p cycle => cycle.foldl (Pass.failMember cycle) p)
      (r.startPass g))

/-- The pass of a resolver over a tree after all turns. -/
def pass (r : Resolver) (g : Group) : Pass :=
  (g.placedTokens.map Prod.fst).foldl Pass.resolvePlace (r.orderedPass g)

theorem resolve_eq_pass (r : Resolver) (g : Group) :
    r.resolve g = ((r.pass g).tree, (r.pass g).resolver, (r.pass g).outcome) := rfl

/-- What every mark and every turn keeps holds after the turns of the order. -/
theorem orderedPass_induction (start : I (r.startPass g))
    (mark : ∀ p, ∀ cycle ∈ g.aliasCycles.cycles, ∀ member, I p → I (p.failMember cycle member))
    (turn : ∀ p place, I p → I (p.resolveToken place)) : I (r.orderedPass g) := by
  refine List.foldlRecOn _ _ ?_ fun p h path _ => ?_
  · refine List.foldlRecOn _ _ start fun p h cycle hcycle => ?_
    exact List.foldlRecOn _ _ h fun p h member _ => mark p cycle hcycle member h
  · unfold Pass.resolvePath
    split
    · exact h
    · split
      · exact h
      · exact turn p _ h

theorem pass_induction (start : I (r.startPass g))
    (mark : ∀ p, ∀ cycle ∈ g.aliasCycles.cycles, ∀ member, I p → I (p.failMember cycle member))
    (turn : ∀ p place, I p → I (p.resolveToken place)) : I (r.pass g) := by
  refine List.foldlRecOn _ _ (orderedPass_induction start mark turn) fun p h place _ => ?_
  unfold Pass.resolvePlace
  split
  · exact h
  · split
    · exact h
    · exact turn p _ h

end Resolver

namespace Group

variable {g : Group}

theorem finalPass_induction {I : Pass → Prop} {limit : Int} (start : I (g.firstPass limit))
    (mark : ∀ p, ∀ cycle ∈ g.aliasCycles.cycles, ∀ member, I p → I (p.failMember cycle member))
    (turn : ∀ p place, I p → I (p.resolveToken place)) : I (g.finalPass limit) :=
  Resolver.pass_induction (r := Resolver.start limit) start mark turn

theorem resolve_eq (g : Group) (limit : Int) :
    (Resolver.start limit).resolve g =
      ((g.finalPass limit).tree, (g.finalPass limit).resolver, (g.finalPass limit).outcome) :=
  rfl

/-- **At the end the invariant holds, every token has had its turn, and what every turn keeps
holds**, if it holds at the start. -/
theorem finalPass_rounds {I : Pass → Prop} (hg : g.Prepared) {limit : Int}
    (hkept : Pass.Kept g limit I) (hstart : I (g.firstPass limit)) :
    (g.finalPass limit).Faithful g limit ∧ I (g.finalPass limit) ∧
      ((g.finalPass limit).halted = none → ∀ place t, g.tokenAt? place = some t →
        (g.finalPass limit).resolver.outcomes.has t.path = true) := by
  obtain ⟨hmarked, hmark⟩ := (Pass.marked_start hg limit (some g.aliasCycles)).failCycles hg hkept
    hstart (fun _ hm => mem_flatten_cycles_iff.mp hm) g.aliasGraph.flatten_cycles_nodup
  have hfirst : Pass.Ordered g limit [] _ := ⟨hmarked.faithful, fun _ place t ht => by
    rw [hmarked.has_iff place t ht, List.nil_append, mem_flatten_cycles_iff]
    unfold Pass.Turned
    simp⟩
  obtain ⟨hordered, horder⟩ :=
    hfirst.resolvePaths hg hkept hmark (List.nil_append g.resolutionOrder).symm
  have hleft : Pass.Leftover g limit _ :=
    ⟨hordered.faithful, fun hon place t ht => (hordered.has_iff hon place t ht).mpr⟩
  have hplaces : ∀ place ∈ g.placedTokens.map Prod.fst, ∃ t, g.tokenAt? place = some t := by
    intro place hm
    obtain ⟨⟨place, t⟩, hpair, rfl⟩ := List.mem_map.mp hm
    exact ⟨t, (mem_placedTokens_iff hg.keysDistinct).mp hpair⟩
  obtain ⟨hfinal, hend, hdone⟩ := hleft.resolvePlaces hg hkept horder hplaces
  refine ⟨hfinal.faithful, hend, fun hon place t ht => (hdone hon).2 place ?_ t ht⟩
  exact List.mem_map.mpr ⟨(place, t), (mem_placedTokens_iff hg.keysDistinct).mpr ht, rfl⟩

theorem finalPass_spec (hg : g.Prepared) (limit : Int) :
    (g.finalPass limit).Faithful g limit ∧
      ((g.finalPass limit).halted = none → ∀ place t, g.tokenAt? place = some t →
        (g.finalPass limit).resolver.outcomes.has t.path = true) := by
  have hkept : Pass.Kept g limit fun _ => True := by constructor <;> intros <;> trivial
  obtain ⟨hfaithful, -, hall⟩ := finalPass_rounds hg hkept trivial
  exact ⟨hfaithful, hall⟩

end Group

end DesignTokens
