import DesignTokens.Proofs.Reference.Substitution

/-!
# Results of a substitution

A value without references is its own result (`substitute_of_occurrences_eq_nil`).
A result holds no reference as soon as the meanings hold none
(`occurrences_of_substitute`), and there is one exactly when every alias inside a
longer text means a scalar (`exists_substitute_iff`).
-/

namespace DesignTokens.Value

variable {f : String → Except Obstacle Value}

theorem exists_forall₂_iff {α β : Type} {R : α → β → Prop} {l : List α} :
    (∃ u, List.Forall₂ R l u) ↔ ∀ a ∈ l, ∃ b, R a b := by
  induction l with
  | nil => exact ⟨fun _ _ ha => absurd ha List.not_mem_nil, fun _ => ⟨[], .nil⟩⟩
  | cons a l ih =>
    rw [List.forall_mem_cons, ← ih]
    constructor
    · rintro ⟨_, _ | ⟨hab, hl⟩⟩
      exact ⟨⟨_, hab⟩, ⟨_, hl⟩⟩
    · rintro ⟨⟨b, hab⟩, u, hl⟩
      exact ⟨b :: u, .cons hab hl⟩

/-! ### Values without references -/

theorem substitutePieces_plain (cs : List Char) :
    substitutePieces f (cs.map .plain) = .ok (String.ofList cs) := by
  induction cs with
  | nil => rfl
  | cons c cs ih =>
    rw [List.map_cons, substitutePieces_plain_eq_ok]
    exact ⟨_, ih, String.ofList_append.symm⟩

theorem substitute_of_occurrences_eq_nil {v : Value} (hv : v.OnlyAliases)
    (h : v.occurrences = []) : v.substitute f = .ok v := by
  induction v using inductionOn with
  | text s =>
    have hbare := Occurrence.ofText_eq_nil_iff.mp h
    have hpieces := Alias.pieces_of_noBraces hbare
    have hw : Alias.isWhole s.toList = false := by
      rw [Bool.eq_false_iff, Ne, Alias.isWhole_iff_isOneRun]
      rintro ⟨inner, hone⟩
      have hm := hone.mem_pieces
      rw [hpieces] at hm
      simp at hm
    rw [substitute_long_eq_ok hw, hpieces]
    exact ⟨_, substitutePieces_plain _, congrArg _ String.ofList_toList⟩
  | list items ih =>
    rw [substitute_list_eq_ok]
    refine ⟨items, List.forall₂_same.mpr fun v hm => ih v hm (hv.item hm) ?_, rfl⟩
    apply List.eq_nil_iff_forall_not_mem.mpr
    intro o ho
    exact List.not_mem_nil (h ▸ mem_occurrences_list.mpr ⟨v, hm, ho⟩)
  | object members ih =>
    rw [substitute_object_eq_ok]
    refine ⟨members, List.forall₂_same.mpr fun m hm => ⟨rfl, ih m hm (hv.member hm) ?_⟩, rfl⟩
    apply List.eq_nil_iff_forall_not_mem.mpr
    intro o ho
    exact List.not_mem_nil (h ▸ hv.mem_of_member hm ho)
  | _ => rfl

theorem noBraces_of_textForm {x : Value} {form : String} (hx : x.occurrences = [])
    (h : x.textForm = .ok form) : NoBraces form.toList := by
  cases x with
  | bool b =>
    cases Except.ok.inj h
    cases b
    · decide
    · decide
  | text s =>
    cases Except.ok.inj h
    exact Occurrence.ofText_eq_nil_iff.mp hx
  | int n =>
    rw [textForm] at h
    split at h
    · cases Except.ok.inj h
      exact noBraces_shown_int n
    · cases h
  | real x =>
    cases Except.ok.inj h
    exact noBraces_shown_real x
  | _ => cases h

theorem noBraces_of_substitutePieces {pieces : List Alias.Piece} {out : String}
    (hsmooth : Smooth pieces)
    (hfree : ∀ inner, .braced inner ∈ pieces → ∀ x, f (Alias.runPath inner) = .ok x →
      x.occurrences = [])
    (h : substitutePieces f pieces = .ok out) : NoBraces out.toList := by
  induction pieces generalizing out with
  | nil =>
    cases Except.ok.inj h
    exact noBraces_nil
  | cons piece rest ih =>
    have hrest := fun inner hi => hfree inner (List.mem_cons_of_mem _ hi)
    cases piece with
    | plain c =>
      obtain ⟨others, hothers, rfl⟩ := substitutePieces_plain_eq_ok.mp h
      rw [String.toList_append, String.toList_ofList, noBraces_append, noBraces_cons]
      exact ⟨⟨hsmooth.1 c List.mem_cons_self, noBraces_nil⟩, ih hsmooth.tail hrest hothers⟩
    | braced inner =>
      obtain ⟨x, form, others, hx, hform, hothers, rfl⟩ := substitutePieces_braced_eq_ok.mp h
      rw [String.toList_append, noBraces_append]
      exact ⟨noBraces_of_textForm (hfree inner List.mem_cons_self x hx) hform,
        ih hsmooth.tail hrest hothers⟩

/-- Only a text becomes a text, so no pointer comes up where none was. -/
theorem pointerOf?_of_substituted {members results : List (String × Value)}
    (h : List.Forall₂ (fun m n => m.1 = n.1 ∧ m.2.substitute f = .ok n.2) members results)
    (hnone : pointerOf? members = none) : pointerOf? results = none := by
  have hget := Table.get?_of_forall₂ (R := fun _ v w => substitute f v = .ok w) h pointerKey
  unfold pointerOf? at hnone ⊢
  cases hm : Table.get? members pointerKey with
  | none =>
    rw [hget.2 hm]
    rfl
  | some v =>
    obtain ⟨w, hw, hn⟩ := hget.1 v hm
    rw [hm] at hnone
    rw [hn]
    cases v with
    | text s => cases hnone
    | list items =>
      obtain ⟨ws, -, rfl⟩ := substitute_list_eq_ok.mp hw
      rfl
    | object members =>
      obtain ⟨ws, -, rfl⟩ := substitute_object_eq_ok.mp hw
      rfl
    | _ => cases Except.ok.inj hw; rfl

/-- No reference is left in a result, and none comes in with a meaning. -/
theorem occurrences_of_substitute {v w : Value} (hv : ∀ o ∈ v.occurrences, ∃ a, o = .aliasOf a)
    (hfree : ∀ a, .aliasOf a ∈ v.occurrences → ∀ x, f a = .ok x → x.occurrences = [])
    (h : v.substitute f = .ok w) : w.occurrences = [] := by
  induction v using inductionOn generalizing w with
  | text s =>
    have hwell : Occurrence.WellWritten s := by
      refine Occurrence.wellWritten_of_not_malformed fun m hm => ?_
      obtain ⟨a, ha⟩ := hv _ hm
      cases ha
    have hrun := fun inner hi => hfree _ (hwell.run inner hi)
    cases hw : Alias.isWhole s.toList with
    | true =>
      obtain ⟨inner, hone⟩ := Alias.isWhole_iff_isOneRun.mp hw
      rw [substitute_oneRun hone] at h
      exact hrun inner hone.mem_pieces w h
    | false =>
      obtain ⟨out, hout, rfl⟩ := (substitute_long_eq_ok hw).mp h
      exact Occurrence.ofText_eq_nil_iff.mpr
        (noBraces_of_substitutePieces (smooth_pieces hwell) hrun hout)
  | list items ih =>
    obtain ⟨results, hresults, rfl⟩ := substitute_list_eq_ok.mp h
    apply List.eq_nil_iff_forall_not_mem.mpr
    intro o ho
    obtain ⟨w, hw, ho⟩ := mem_occurrences_list.mp ho
    obtain ⟨v, hm, hvw⟩ := exists_mem_of_forall₂ hresults hw
    have hmem : ∀ o ∈ v.occurrences, o ∈ (Value.list items).occurrences :=
      fun o ho => mem_occurrences_list.mpr ⟨v, hm, ho⟩
    have hnil := ih v hm (fun o ho => hv o (hmem o ho)) (fun a ha => hfree a (hmem _ ha)) hvw
    exact List.not_mem_nil (hnil ▸ ho)
  | object members ih =>
    obtain ⟨results, hresults, rfl⟩ := substitute_object_eq_ok.mp h
    have hnone : pointerOf? members = none := by
      refine Option.eq_none_iff_forall_ne_some.mpr fun ref href => ?_
      obtain ⟨a, ha⟩ := hv _ (mem_occurrences_object.mpr (Or.inl ⟨ref, href, rfl⟩))
      cases ha
    apply List.eq_nil_iff_forall_not_mem.mpr
    intro o ho
    rcases mem_occurrences_object.mp ho with ⟨ref, href, -⟩ | ⟨n, hn, hkey, ho⟩
    · rw [pointerOf?_of_substituted hresults hnone] at href
      cases href
    · obtain ⟨m, hm, he, hmn⟩ := exists_mem_of_forall₂ hresults hn
      have hmem : ∀ o ∈ m.2.occurrences, o ∈ (Value.object members).occurrences :=
        fun o ho => mem_occurrences_object.mpr (Or.inr ⟨m, hm, he ▸ hkey, ho⟩)
      have hnil := ih m hm (fun o ho => hv o (hmem o ho)) (fun a ha => hfree a (hmem _ ha)) hmn
      exact List.not_mem_nil (hnil ▸ ho)
  | _ => cases Except.ok.inj h; rfl

/-! ### When there is a result -/

theorem Embeds.mem_occurrences {a : String} {v : Value} (h : Embeds a v) (hv : v.OnlyAliases) :
    .aliasOf a ∈ v.occurrences := by
  induction h with
  | text _ ha => exact ha
  | item hm _ ih => exact mem_occurrences_list.mpr ⟨_, hm, ih (hv.item hm)⟩
  | member hm _ ih => exact hv.mem_of_member hm (ih (hv.member hm))

theorem exists_substitutePieces_iff {pieces : List Alias.Piece}
    (hok : ∀ inner, .braced inner ∈ pieces → ∃ x, f (Alias.runPath inner) = .ok x) :
    (∃ out, substitutePieces f pieces = .ok out) ↔
      ∀ inner, .braced inner ∈ pieces → ∀ x, f (Alias.runPath inner) = .ok x → x.IsScalar := by
  induction pieces with
  | nil => exact ⟨fun _ _ hi => absurd hi List.not_mem_nil, fun _ => ⟨_, rfl⟩⟩
  | cons piece rest ih =>
    have ih := ih fun inner hi => hok inner (List.mem_cons_of_mem _ hi)
    constructor
    · rintro ⟨out, hout⟩ inner hi x hx
      cases piece with
      | plain c =>
        obtain ⟨others, hothers, -⟩ := substitutePieces_plain_eq_ok.mp hout
        rcases List.mem_cons.mp hi with he | hi
        · cases he
        · exact ih.mp ⟨_, hothers⟩ inner hi x hx
      | braced head =>
        obtain ⟨y, form, others, hy, hform, hothers, -⟩ := substitutePieces_braced_eq_ok.mp hout
        rcases List.mem_cons.mp hi with he | hi
        · cases he
          rw [← Except.ok.inj (hy.symm.trans hx)]
          exact textForm_ok_iff.mp ⟨form, hform⟩
        · exact ih.mp ⟨_, hothers⟩ inner hi x hx
    · intro hscalar
      obtain ⟨others, hothers⟩ := ih.mpr fun inner hi => hscalar inner (List.mem_cons_of_mem _ hi)
      cases piece with
      | plain c => exact ⟨_, substitutePieces_plain_eq_ok.mpr ⟨others, hothers, rfl⟩⟩
      | braced head =>
        obtain ⟨x, hx⟩ := hok head List.mem_cons_self
        obtain ⟨form, hform⟩ := textForm_ok_iff.mpr (hscalar head List.mem_cons_self x hx)
        exact ⟨_, substitutePieces_braced_eq_ok.mpr ⟨x, form, others, hx, hform, hothers, rfl⟩⟩

theorem exists_braced_of_aliasOf_mem {s a : String} (h : .aliasOf a ∈ Occurrence.ofText s) :
    ∃ inner, .braced inner ∈ Alias.pieces s.toList ∧ a = Alias.runPath inner := by
  rcases Occurrence.cases_of_mem_ofText h with ⟨inner, hpiece, -, he⟩ | ⟨m, he⟩
  · cases he
    exact ⟨inner, hpiece, rfl⟩
  · cases he

/-- An alias inside a longer text has to mean a scalar, and nothing else can go
wrong. -/
theorem exists_substitute_iff {v : Value} (hv : v.OnlyAliases)
    (hok : ∀ a, .aliasOf a ∈ v.occurrences → ∃ x, f a = .ok x) :
    (∃ w, v.substitute f = .ok w) ↔ ∀ a, Embeds a v → ∀ x, f a = .ok x → x.IsScalar := by
  induction v using inductionOn with
  | text s =>
    have hrun := fun inner hi => hok _ (hv.wellWritten.run inner hi)
    cases hw : Alias.isWhole s.toList with
    | true =>
      obtain ⟨inner, hone⟩ := Alias.isWhole_iff_isOneRun.mp hw
      rw [substitute_oneRun hone]
      refine iff_of_true (hrun inner hone.mem_pieces) ?_
      rintro a (⟨hlong, -⟩ | _ | _)
      rw [hw] at hlong
      cases hlong
    | false =>
      have hpieces := exists_substitutePieces_iff hrun
      constructor
      · rintro ⟨w, hw'⟩ a (⟨-, ha⟩ | _ | _) x hx
        obtain ⟨out, hout, -⟩ := (substitute_long_eq_ok hw).mp hw'
        obtain ⟨inner, hi, rfl⟩ := exists_braced_of_aliasOf_mem ha
        exact hpieces.mp ⟨out, hout⟩ inner hi x hx
      · intro hscalar
        obtain ⟨out, hout⟩ := hpieces.mpr fun inner hi x hx =>
          hscalar _ (.text hw (hv.wellWritten.run inner hi)) x hx
        exact ⟨_, (substitute_long_eq_ok hw).mpr ⟨out, hout, rfl⟩⟩
  | list items ih =>
    have hitem := fun v hm => ih v hm (hv.item hm) fun a ha =>
      hok a (mem_occurrences_list.mpr ⟨v, hm, ha⟩)
    simp only [substitute_list_eq_ok]
    constructor
    · rintro ⟨w, results, hresults, -⟩ a (_ | ⟨hm, ha⟩ | _) x hx
      exact (hitem _ hm).mp (exists_forall₂_iff.mp ⟨results, hresults⟩ _ hm) a ha x hx
    · intro hscalar
      obtain ⟨results, hresults⟩ := exists_forall₂_iff.mpr fun v hm =>
        (hitem v hm).mpr fun a ha x hx => hscalar a (.item hm ha) x hx
      exact ⟨_, results, hresults, rfl⟩
  | object members ih =>
    have hmember := fun m hm => ih m hm (hv.member hm) fun a ha => hok a (hv.mem_of_member hm ha)
    simp only [substitute_object_eq_ok]
    constructor
    · rintro ⟨w, results, hresults, -⟩ a (_ | _ | ⟨hm, ha⟩) x hx
      obtain ⟨n, -, hn⟩ := exists_forall₂_iff.mp ⟨results, hresults⟩ _ hm
      exact (hmember _ hm).mp ⟨_, hn⟩ a ha x hx
    · intro hscalar
      have hparts : ∀ m ∈ members, ∃ n : String × Value,
          m.1 = n.1 ∧ m.2.substitute f = .ok n.2 := fun m hm => by
        obtain ⟨w, hw⟩ := (hmember m hm).mpr fun a ha x hx => hscalar a (.member hm ha) x hx
        exact ⟨(m.1, w), rfl, hw⟩
      obtain ⟨results, hresults⟩ := exists_forall₂_iff.mpr hparts
      exact ⟨_, results, hresults, rfl⟩
  | _ =>
    refine iff_of_true ⟨_, rfl⟩ ?_
    rintro a (_ | _ | _)

end DesignTokens.Value
