import DesignTokens.Proofs.Resolution.Order

/-!
# Which tokens are done when a turn comes

A token is checked against the outcomes that its targets have at that time.  Members of cycles fail
before all turns, and the other targets are done if they stand before the path under which the token
has its turn (`Group.Precedes`).  So it is known of each token whose turn comes which of its targets
are done (`Pass.Ready`), in the order (`Ordered.ready`) as after it (`Leftover.ready`), and what is
kept by a mark and by the turn of a ready token is kept by all rounds (`Kept.of_turns`).
-/

namespace DesignTokens

namespace Group

/-- A token that is found by its own path, and that path is on a cycle. -/
def Member (g : Group) (t : Token) : Prop := g.OnCycle t.path ∧ g.findToken? t.path = some t

/-- Whether the target of an alias is done before the token with a path, also where that token has
its turn under another path. -/
def Precedes (g : Group) (r path : String) : Prop :=
  g.OnCycle r ∨ ∀ q ∈ g.resolutionOrder, q ≠ path → ∀ t, g.findToken? q = some t → t.path = path →
    Graph.StandsBefore g.resolutionOrder r q

theorem precedes_of_inTime {g : Group} (hg : g.Prepared) {place : Place} {t y : Token} {r : String}
    (ht : g.tokenAt? place = some t) (htime : g.InTime t.path) (hr : r ∈ t.references)
    (hy : g.findToken? r = some y) (hne : y.references ≠ []) : g.Precedes r t.path := by
  refine Or.inr fun q hq hother u hu hpath => htime q hq hother u hu hpath r ?_ y hy hne
  rw [hg.placed.eq_of_path_eq hu ht hpath]
  exact hr

end Group

namespace Pass

variable {g : Group} {limit : Int} {p : Pass} {place : Place} {t : Token}

/-- Among the targets of a token that refer to something, those are done that precede it. -/
def Ready (g : Group) (p : Pass) (t : Token) : Prop :=
  ∀ r ∈ t.references, ∀ y, g.findToken? r = some y → y.references ≠ [] →
    (p.resolver.outcomes.has y.path = true ↔ g.Precedes r t.path)

/-- A target that a path of the order leads to is done if it is a member of a cycle or stands
before that path. -/
theorem Ordered.has_target_iff (hg : g.Prepared) {done : List String} (h : p.Ordered g limit done)
    (hgoing : p.halted = none) {r : String} (hr : Alias.HasSegments r) {y : Token}
    (hy : g.findToken? r = some y) :
    p.resolver.outcomes.has y.path = true ↔ g.OnCycle r ∨ r ∈ done := by
  rw [h.has_iff hgoing _ y hy, Turned, hg.placed.path_of_findToken hr hy, or_comm]
  refine or_congr (and_iff_left rfl) ⟨?_, fun hm => ⟨r, hm, rfl⟩⟩
  rintro ⟨q, hq, hplace⟩
  rwa [← Group.placeOf_injective hg.label_path hplace]

theorem Ordered.ready (hg : g.Prepared) {done rest : List String} {q : String}
    (h : p.Ordered g limit done) (hgoing : p.halted = none)
    (horder : g.resolutionOrder = done ++ q :: rest) (hnew : p.resolver.outcomes.has q = false)
    (ht : g.findToken? q = some t) : p.Ready g t := by
  intro r hr y hy _
  have hnodup := horder ▸ g.resolutionOrder_nodup
  rw [h.has_target_iff hg hgoing ((hg.tracked _ t ht).hasSegments r hr) hy]
  refine or_congr_right ⟨?_, fun hall => mem_of_standsBefore hnodup (horder ▸ ?_)⟩
  · intro hdone q' _ _ u hu hpath
    -- no other path leads to the token
    rw [Group.placeOf_injective hg.label_path (hg.distinct _ _ u t hu ht hpath), horder]
    exact standsBefore_of_mem hdone
  · by_cases hpath : t.path = q
    · exact hpath ▸ Group.standsBefore_of_reference hg ht (h.not_onCycle hgoing hnew ht hpath) hr
    · refine hall q ?_ (Ne.symm hpath) t ht rfl
      rw [horder]
      exact List.mem_append_right _ List.mem_cons_self

theorem Ordered.not_member (hg : g.Prepared) {done : List String} {q : String}
    (h : p.Ordered g limit done) (hgoing : p.halted = none)
    (hnew : p.resolver.outcomes.has q = false) (ht : g.findToken? q = some t) : ¬ g.Member t := by
  rintro ⟨hcycle, hown⟩
  have hpath := Group.placeOf_injective hg.label_path (hg.distinct _ _ t t hown ht rfl)
  exact h.not_onCycle hgoing hnew ht hpath hcycle

theorem Leftover.ready (hg : g.Prepared) (h : p.Leftover g limit) (hgoing : p.halted = none)
    (ht : g.tokenAt? place = some t) (hnew : p.resolver.outcomes.has t.path = false) :
    p.Ready g t := by
  intro r hr y hy hne
  have hturned := turned_of_target hg ((hg.tracked place t ht).hasSegments r hr) hy hne
  refine iff_of_true (h.has_of_turned hgoing _ y hy hturned) (Or.inr fun q hq _ u hu hpath => ?_)
  have hhas := h.has_of_turned hgoing _ u hu (Or.inl ⟨q, hq, rfl⟩)
  rw [hpath, hnew] at hhas
  cases hhas

theorem Leftover.not_member (h : p.Leftover g limit) (hgoing : p.halted = none)
    (hnew : p.resolver.outcomes.has t.path = false) : ¬ g.Member t := by
  rintro ⟨hcycle, hown⟩
  have hhas := h.has_of_turned hgoing _ t hown (Or.inr ⟨hcycle, rfl⟩)
  rw [hnew] at hhas
  cases hhas

/-- What is kept where a member of a cycle fails and by the turn of a token that is ready is kept by
all rounds. -/
theorem Kept.of_turns (hg : g.Prepared) {I : Pass → Prop}
    (mark : ∀ {p : Pass} (cycle : List String) {t : Token}, p.Faithful g limit → g.Member t →
      p.resolver.outcomes.get? t.path = none → I p → I (p.failMember cycle t.path))
    (turn : ∀ {p : Pass} {place : Place} {t : Token}, p.Faithful g limit → p.halted = none →
      g.tokenAt? place = some t → p.resolver.outcomes.get? t.path = none → ¬ g.Member t →
      p.Ready g t → I p → I (p.resolveToken place)) : Kept g limit I where
  mark := by
    intro p done cycle member hmarked hcycle hnew h
    cases ht : g.findToken? member with
    | none =>
      rw [hmarked.faithful.failMember_of_none cycle ht]
      exact h
    | some t =>
      obtain ⟨rfl, hout⟩ := hmarked.pending hg hcycle hnew ht
      exact mark cycle hmarked.faithful ⟨hcycle, ht⟩ hout h
  order := by
    intro p done rest q hordered hgoing horder h
    rcases hordered.resolvePath_cases hg hgoing horder with ⟨he, -⟩ | ⟨t, ht, hhas, he⟩
    · rw [he]
      exact h
    · rw [he]
      have hout := hordered.not_has hg hgoing (horder ▸ g.resolutionOrder_nodup) hhas ht
      exact turn hordered.faithful hgoing ht hout (hordered.not_member hg hgoing hhas ht)
        (hordered.ready hg hgoing horder hhas ht) h
  leftover := by
    intro p place t hleft hgoing ht h
    rw [hleft.faithful.resolvePlace_eq ht]
    split
    · exact h
    · rename_i hhas
      rw [Bool.not_eq_true] at hhas
      refine turn hleft.faithful hgoing ht ?_ (hleft.not_member hgoing hhas)
        (hleft.ready hg hgoing ht hhas) h
      simpa [Table.has] using hhas

end Pass

end DesignTokens
