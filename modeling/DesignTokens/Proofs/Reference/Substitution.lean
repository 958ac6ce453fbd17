import DesignTokens.Proofs.Reference.Replacement

/-!
# Substitution

`Value.substitute` computes what `Value.Replaced` describes
(`replaced_of_substitute`).  For a value with aliases only, the result depends on
what the aliases of the value mean, and on nothing else (`substitute_congr`).
-/

namespace DesignTokens.Value

variable {f g : String → Except Obstacle Value} {means : String → Value → Prop}

/-! ### The parts of a result -/

theorem substituteItems_eq_ok {items results : List Value} :
    substituteItems f items = .ok results ↔
      List.Forall₂ (fun v w => v.substitute f = .ok w) items results := by
  induction items generalizing results with
  | nil =>
    rw [substituteItems, List.forall₂_nil_left_iff]
    exact ⟨fun h => (Except.ok.inj h).symm, fun h => congrArg _ h.symm⟩
  | cons v items ih =>
    rw [substituteItems, List.forall₂_cons_left_iff]
    constructor
    · intro h
      obtain ⟨w, hw, h⟩ := bind_eq_ok.mp h
      obtain ⟨ws, hws, h⟩ := bind_eq_ok.mp h
      exact ⟨w, ws, hw, ih.mp hws, (Except.ok.inj h).symm⟩
    · rintro ⟨w, ws, hw, hws, rfl⟩
      exact bind_eq_ok.mpr ⟨w, hw, bind_eq_ok.mpr ⟨ws, ih.mpr hws, rfl⟩⟩

theorem substituteMembers_eq_ok {members results : List (String × Value)} :
    substituteMembers f members = .ok results ↔
      List.Forall₂ (fun m n => m.1 = n.1 ∧ m.2.substitute f = .ok n.2) members results := by
  induction members generalizing results with
  | nil =>
    rw [substituteMembers, List.forall₂_nil_left_iff]
    exact ⟨fun h => (Except.ok.inj h).symm, fun h => congrArg _ h.symm⟩
  | cons m members ih =>
    obtain ⟨key, v⟩ := m
    rw [substituteMembers, List.forall₂_cons_left_iff]
    constructor
    · intro h
      obtain ⟨w, hw, h⟩ := bind_eq_ok.mp h
      obtain ⟨ws, hws, h⟩ := bind_eq_ok.mp h
      exact ⟨(key, w), ws, ⟨rfl, hw⟩, ih.mp hws, (Except.ok.inj h).symm⟩
    · rintro ⟨⟨_, w⟩, ws, ⟨rfl, hw⟩, hws, rfl⟩
      exact bind_eq_ok.mpr ⟨w, hw, bind_eq_ok.mpr ⟨ws, ih.mpr hws, rfl⟩⟩

theorem substitute_list_eq_ok {items : List Value} {w : Value} :
    (Value.list items).substitute f = .ok w ↔
      ∃ results, List.Forall₂ (fun v w => v.substitute f = .ok w) items results ∧
        .list results = w := by
  rw [substitute, map_eq_ok]
  simp only [substituteItems_eq_ok]

theorem substitute_object_eq_ok {members : List (String × Value)} {w : Value} :
    (Value.object members).substitute f = .ok w ↔
      ∃ results, List.Forall₂ (fun m n => m.1 = n.1 ∧ m.2.substitute f = .ok n.2) members results ∧
        .object results = w := by
  rw [substitute, map_eq_ok]
  simp only [substituteMembers_eq_ok]

theorem substitute_oneRun {s : String} {inner : List Char} (h : Alias.IsOneRun s.toList inner) :
    (Value.text s).substitute f = f (Alias.runPath inner) := by
  rw [substitute, if_pos (Alias.isWhole_iff_isOneRun.mpr ⟨inner, h⟩), h.path_eq]

theorem substitute_long_eq_ok {s : String} (h : Alias.isWhole s.toList = false) {w : Value} :
    (Value.text s).substitute f = .ok w ↔
      ∃ out, substitutePieces f (Alias.pieces s.toList) = .ok out ∧ .text out = w := by
  rw [substitute, h, if_neg Bool.false_ne_true, map_eq_ok]

/-! ### Longer texts -/

theorem substitutePieces_plain_eq_ok {c : Char} {rest : List Alias.Piece} {out : String} :
    substitutePieces f (.plain c :: rest) = .ok out ↔
      ∃ others, substitutePieces f rest = .ok others ∧ String.ofList [c] ++ others = out := by
  rw [substitutePieces, bind_eq_ok]
  exact exists_congr fun _ => and_congr_right fun _ => ⟨Except.ok.inj, congrArg _⟩

theorem substitutePieces_braced_eq_ok {inner : List Char} {rest : List Alias.Piece} {out : String} :
    substitutePieces f (.braced inner :: rest) = .ok out ↔
      ∃ x form others, f (Alias.runPath inner) = .ok x ∧ x.textForm = .ok form ∧
        substitutePieces f rest = .ok others ∧ form ++ others = out := by
  rw [substitutePieces]
  constructor
  · intro h
    obtain ⟨x, hx, h⟩ := bind_eq_ok.mp h
    obtain ⟨form, hform, h⟩ := bind_eq_ok.mp h
    obtain ⟨others, hothers, h⟩ := bind_eq_ok.mp h
    exact ⟨x, form, others, hx, hform, hothers, Except.ok.inj h⟩
  · rintro ⟨x, form, others, hx, hform, hothers, rfl⟩
    exact bind_eq_ok.mpr
      ⟨x, hx, bind_eq_ok.mpr ⟨form, hform, bind_eq_ok.mpr ⟨others, hothers, rfl⟩⟩⟩

/-- The pieces of a text from which its aliases are known to be replaced: plain
characters that are no braces, and runs without braces inside. -/
def Smooth (pieces : List Alias.Piece) : Prop :=
  (∀ c, .plain c ∈ pieces → c ≠ '{' ∧ c ≠ '}') ∧ ∀ inner, .braced inner ∈ pieces → NoBraces inner

theorem Smooth.tail {piece : Alias.Piece} {rest : List Alias.Piece} (h : Smooth (piece :: rest)) :
    Smooth rest :=
  ⟨fun c hc => h.1 c (List.mem_cons_of_mem _ hc), fun i hi => h.2 i (List.mem_cons_of_mem _ hi)⟩

theorem smooth_pieces {s : String} (h : Occurrence.WellWritten s) :
    Smooth (Alias.pieces s.toList) :=
  ⟨h.plain, fun _ hi => Alias.noBraces_of_braced_mem hi⟩

theorem filled_of_substitutePieces {pieces : List Alias.Piece} {out : String}
    (hsmooth : Smooth pieces)
    (hmeans : ∀ inner, .braced inner ∈ pieces → ∀ x, f (Alias.runPath inner) = .ok x →
      means (Alias.runPath inner) x)
    (h : substitutePieces f pieces = .ok out) :
    Alias.Filled (WordOf means) (pieces.flatMap Alias.Piece.chars) out.toList := by
  induction pieces generalizing out with
  | nil =>
    cases Except.ok.inj h
    exact .nil
  | cons piece rest ih =>
    have hrest := fun inner hi => hmeans inner (List.mem_cons_of_mem _ hi)
    rw [List.flatMap_cons]
    cases piece with
    | plain c =>
      obtain ⟨others, hothers, rfl⟩ := substitutePieces_plain_eq_ok.mp h
      obtain ⟨hopen, hclose⟩ := hsmooth.1 c List.mem_cons_self
      rw [String.toList_append, String.toList_ofList]
      exact .plain hopen hclose (ih hsmooth.tail hrest hothers)
    | braced inner =>
      obtain ⟨x, form, others, hx, hform, hothers, rfl⟩ := substitutePieces_braced_eq_ok.mp h
      rw [String.toList_append]
      exact .run (hsmooth.2 inner List.mem_cons_self)
        ⟨x, form, hmeans inner List.mem_cons_self x hx, hform, rfl⟩
        (ih hsmooth.tail hrest hothers)

/-! ### The relation -/

theorem forall₂_imp_of_mem {α β : Type} {R S : α → β → Prop} {l : List α} {u : List β}
    (hRS : ∀ a ∈ l, ∀ b, R a b → S a b) (h : List.Forall₂ R l u) : List.Forall₂ S l u :=
  ((List.forall₂_and_left l u).mpr ⟨fun _ ha => ha, h⟩).imp fun a b hab => hRS a hab.1 b hab.2

/-- What is computed for a value is the value with its aliases replaced. -/
theorem replaced_of_substitute {v w : Value} (hv : v.OnlyAliases)
    (hmeans : ∀ a, .aliasOf a ∈ v.occurrences → ∀ x, f a = .ok x → means a x)
    (h : v.substitute f = .ok w) : Replaced means v w := by
  induction v using inductionOn generalizing w with
  | null => cases Except.ok.inj h; exact .null
  | bool b => cases Except.ok.inj h; exact .bool b
  | int n => cases Except.ok.inj h; exact .int n
  | real x => cases Except.ok.inj h; exact .real x
  | text s =>
    have hrun := hv.wellWritten.run
    cases hw : Alias.isWhole s.toList with
    | true =>
      obtain ⟨inner, hone⟩ := Alias.isWhole_iff_isOneRun.mp hw
      rw [substitute_oneRun hone] at h
      exact .whole hone (hmeans _ (hrun inner hone.mem_pieces) w h)
    | false =>
      obtain ⟨out, hout, rfl⟩ := (substitute_long_eq_ok hw).mp h
      have hnot : ∀ inner, ¬ Alias.IsOneRun s.toList inner := fun inner hi => by
        rw [Alias.isWhole_iff_isOneRun.mpr ⟨inner, hi⟩] at hw
        cases hw
      refine .text hnot ?_
      rw [← Alias.flatMap_chars_pieces s.toList]
      exact filled_of_substitutePieces (smooth_pieces hv.wellWritten)
        (fun inner hi => hmeans _ (hrun inner hi)) hout
  | list items ih =>
    obtain ⟨results, hresults, rfl⟩ := substitute_list_eq_ok.mp h
    refine .list (forall₂_imp_of_mem ?_ hresults)
    intro v hm w hw
    exact ih v hm (hv.item hm) (fun a ha => hmeans a (mem_occurrences_list.mpr ⟨v, hm, ha⟩)) hw
  | object members ih =>
    obtain ⟨results, hresults, rfl⟩ := substitute_object_eq_ok.mp h
    have hparts : List.Forall₂ (fun m n => m.1 = n.1 ∧ Replaced means m.2 n.2) members results := by
      refine forall₂_imp_of_mem (fun m hm n hn => ⟨hn.1, ?_⟩) hresults
      exact ih m hm (hv.member hm) (fun a ha => hmeans a (hv.mem_of_member hm ha)) hn.2
    refine .object ?_ ?_
    · rw [← List.forall₂_eq_eq_eq, List.forall₂_map_left_iff, List.forall₂_map_right_iff]
      exact hparts.imp fun _ _ hmn => hmn.1
    · rw [List.forall₂_map_left_iff, List.forall₂_map_right_iff]
      exact hparts.imp fun _ _ hmn => hmn.2

/-! ### Meanings that agree -/

theorem substitutePieces_congr {pieces : List Alias.Piece}
    (h : ∀ inner, .braced inner ∈ pieces → f (Alias.runPath inner) = g (Alias.runPath inner)) :
    substitutePieces f pieces = substitutePieces g pieces := by
  induction pieces with
  | nil => rfl
  | cons piece rest ih =>
    have hrest := ih fun inner hi => h inner (List.mem_cons_of_mem _ hi)
    cases piece with
    | plain c => rw [substitutePieces, substitutePieces, hrest]
    | braced inner =>
      have hhere := h inner List.mem_cons_self
      unfold Alias.runPath at hhere
      rw [substitutePieces, substitutePieces, hrest, hhere]

theorem substituteItems_congr {items : List Value}
    (h : ∀ v ∈ items, v.substitute f = v.substitute g) :
    substituteItems f items = substituteItems g items := by
  induction items with
  | nil => rfl
  | cons v items ih =>
    obtain ⟨hv, hitems⟩ := List.forall_mem_cons.mp h
    rw [substituteItems, substituteItems, hv, ih hitems]

theorem substituteMembers_congr {members : List (String × Value)}
    (h : ∀ m ∈ members, m.2.substitute f = m.2.substitute g) :
    substituteMembers f members = substituteMembers g members := by
  induction members with
  | nil => rfl
  | cons m members ih =>
    obtain ⟨hm, hmembers⟩ := List.forall_mem_cons.mp h
    rw [substituteMembers, substituteMembers, hm, ih hmembers]

/-- The result depends on what the aliases of the value mean and on nothing else. -/
theorem substitute_congr {v : Value} (hv : v.OnlyAliases)
    (h : ∀ a, .aliasOf a ∈ v.occurrences → f a = g a) : v.substitute f = v.substitute g := by
  induction v using inductionOn with
  | text s =>
    have hrun := fun inner hi => h _ (hv.wellWritten.run inner hi)
    cases hw : Alias.isWhole s.toList with
    | true =>
      obtain ⟨inner, hone⟩ := Alias.isWhole_iff_isOneRun.mp hw
      rw [substitute_oneRun hone, substitute_oneRun hone]
      exact hrun inner hone.mem_pieces
    | false =>
      rw [substitute, substitute, hw, if_neg Bool.false_ne_true, if_neg Bool.false_ne_true,
        substitutePieces_congr hrun]
  | list items ih =>
    rw [substitute, substitute, substituteItems_congr fun v hm => ?_]
    exact ih v hm (hv.item hm) fun a ha => h a (mem_occurrences_list.mpr ⟨v, hm, ha⟩)
  | object members ih =>
    rw [substitute, substitute, substituteMembers_congr fun m hm => ?_]
    exact ih m hm (hv.member hm) fun a ha => h a (hv.mem_of_member hm ha)
  | _ => rfl

end DesignTokens.Value
