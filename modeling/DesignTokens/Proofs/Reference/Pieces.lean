import DesignTokens.Proofs.Text.Braces
import DesignTokens.Proofs.Text.Ends
import DesignTokens.Reference.Scan

/-!
# The pieces of a text

`Alias.pieces` cuts a text without losing a character (`flatMap_chars_pieces`),
and what stands between the braces of a run has no brace in it
(`noBraces_of_braced_mem`).  So a text without stray braces is a row of runs and
of plain characters that are no braces, and a text makes no reference at all
exactly when it has no brace (`ofText_eq_nil_iff`).
-/

namespace DesignTokens

namespace Alias

/-! ### Cutting -/

def readChars : Option (List Char) → List Char
  | none => []
  | some read => '{' :: read.reverse

theorem flatMap_chars_unclosed (read : List Char) :
    (unclosed read).flatMap Piece.chars = '{' :: read.reverse := by
  rw [unclosed, List.flatMap_cons, List.flatMap_map]
  show '{' :: (read.reverse.flatMap fun c => [c]) = _
  rw [List.flatMap_singleton']

theorem flatMap_chars_piecesFrom (read : Option (List Char)) (cs : List Char) :
    (piecesFrom read cs).flatMap Piece.chars = readChars read ++ cs := by
  induction cs generalizing read with
  | nil =>
    cases read with
    | none => rfl
    | some read => rw [piecesFrom, flatMap_chars_unclosed, List.append_nil]; rfl
  | cons c rest ih =>
    cases read with
    | none =>
      rw [piecesFrom]
      split
      · rename_i hc
        rw [ih, hc]
        rfl
      · rw [List.flatMap_cons, ih]
        rfl
    | some read =>
      rw [piecesFrom]
      split
      · rename_i hc
        rw [List.flatMap_cons, ih, hc]
        show withBraces read.reverse ++ rest = _
        simp [withBraces, readChars]
      · split
        · rename_i hc
          rw [List.flatMap_append, flatMap_chars_unclosed, ih, hc]
          rfl
        · rw [ih]
          simp [readChars]

theorem flatMap_chars_pieces (cs : List Char) : (pieces cs).flatMap Piece.chars = cs :=
  flatMap_chars_piecesFrom none cs

theorem noBraces_of_braced_mem_piecesFrom {read : Option (List Char)} {cs inner : List Char}
    (hread : ∀ r ∈ read, NoBraces r) (h : Piece.braced inner ∈ piecesFrom read cs) :
    NoBraces inner := by
  induction cs generalizing read with
  | nil =>
    cases read with
    | none => simp [piecesFrom] at h
    | some read => simp [piecesFrom, unclosed] at h
  | cons c rest ih =>
    cases read with
    | none =>
      rw [piecesFrom] at h
      split at h
      · exact ih (fun r hr => by rw [← Option.some.inj hr]; exact noBraces_nil) h
      · rcases List.mem_cons.mp h with he | h
        · cases he
        · exact ih (fun r hr => by cases hr) h
    | some read =>
      have hr := hread read rfl
      rw [piecesFrom] at h
      split at h
      · rcases List.mem_cons.mp h with he | h
        · cases he
          exact noBraces_reverse.mpr hr
        · exact ih (fun r hr => by cases hr) h
      · split at h
        · rcases List.mem_append.mp h with hu | h
          · simp [unclosed] at hu
          · exact ih (fun r hr => by rw [← Option.some.inj hr]; exact noBraces_nil) h
        · rename_i h1 h2
          refine ih ?_ h
          intro r hr
          rw [← Option.some.inj hr, noBraces_cons]
          exact ⟨⟨h2, h1⟩, hread read rfl⟩

theorem noBraces_of_braced_mem {cs inner : List Char} (h : Piece.braced inner ∈ pieces cs) :
    NoBraces inner :=
  noBraces_of_braced_mem_piecesFrom (fun r hr => by cases hr) h

theorem pieces_of_noBraces {cs : List Char} (h : NoBraces cs) : pieces cs = cs.map .plain := by
  induction cs with
  | nil => rfl
  | cons c rest ih =>
    obtain ⟨hc, hrest⟩ := noBraces_cons.mp h
    show piecesFrom none (c :: rest) = _
    rw [piecesFrom, if_neg hc.1]
    exact congrArg _ (ih hrest)

/-- A text that is one run, or one run and a line end. -/
theorem isWhole_iff {cs : List Char} :
    isWhole cs = true ↔
      ∃ inner, pieces cs = [.braced inner] ∨ pieces cs = [.braced inner, .plain '\n'] := by
  unfold isWhole
  constructor
  · intro h
    split at h
    · rename_i inner hp
      exact ⟨inner, Or.inl hp⟩
    · rename_i inner hp
      exact ⟨inner, Or.inr hp⟩
    · cases h
  · rintro ⟨inner, h | h⟩
    · rw [h]
    · rw [h]
      rfl

/-! ### The path of a run -/

theorem strip_withBraces (inner tail : List Char) (ht : ∀ c ∈ tail, Text.isBlank c = true) :
    Text.strip (withBraces inner ++ tail) = withBraces inner := by
  refine Text.strip_append (List.cons_ne_nil _ _) (fun c hc => ?_) (fun c hc => ?_) ht
  · obtain rfl : '{' = c := Option.some.inj hc
    decide
  · have hlast : (withBraces inner).getLast? = some '}' := List.getLast?_concat
    obtain rfl : '}' = c := Option.some.inj (hlast ▸ hc)
    decide

theorem pathOf_withBraces_lineEnd (inner : List Char) :
    pathOf (withBraces inner ++ ['\n']) = pathOf (withBraces inner) := by
  have hline : ∀ c ∈ ['\n'], Text.isBlank c = true := fun c hc => by
    rw [List.mem_singleton.mp hc]
    decide
  have hnone := strip_withBraces inner [] fun _ h => absurd h List.not_mem_nil
  rw [List.append_nil] at hnone
  unfold pathOf
  rw [strip_withBraces inner _ hline, hnone]

end Alias

/-! ### References of a text -/

namespace Occurrence

theorem ofPiece_braced_isSome (inner : List Char) : (ofPiece (.braced inner)).isSome := by
  rw [ofPiece]
  split <;> rfl

/-- A reference of a text is a well-formed run, or it is malformed. -/
theorem cases_of_mem_ofText {s : String} {o : Occurrence} (h : o ∈ ofText s) :
    (∃ inner, .braced inner ∈ Alias.pieces s.toList ∧
      Alias.isWellFormed (Alias.pathOf (Alias.withBraces inner)) = true ∧
      o = .aliasOf (String.ofList (Alias.pathOf (Alias.withBraces inner)))) ∨
      ∃ m, o = .malformed m := by
  unfold ofText at h
  rcases List.mem_append.mp h with h | h
  · obtain ⟨piece, hpiece, ho⟩ := List.mem_filterMap.mp h
    cases piece with
    | plain c => cases ho
    | braced inner =>
      rw [ofPiece] at ho
      split at ho
      · rename_i hwell
        exact Or.inl ⟨inner, hpiece, hwell, (Option.some.inj ho).symm⟩
      · exact Or.inr ⟨_, (Option.some.inj ho).symm⟩
  · split at h
    · exact Or.inr ⟨s, List.mem_singleton.mp h⟩
    · exact absurd h List.not_mem_nil

theorem pointer_not_mem_ofText (s ref : String) : .pointer ref ∉ ofText s := by
  intro h
  rcases cases_of_mem_ofText h with ⟨inner, -, -, he⟩ | ⟨m, he⟩
  · cases he
  · cases he

theorem ofText_eq_nil_iff {s : String} : ofText s = [] ↔ NoBraces s.toList := by
  unfold ofText
  dsimp only
  constructor
  · intro h
    obtain ⟨hruns, hstray⟩ := List.append_eq_nil_iff.mp h
    have hnone := List.filterMap_eq_nil_iff.mp hruns
    have hany : (Alias.pieces s.toList).any isStrayBrace = false := by
      rw [Bool.eq_false_iff]
      intro hc
      rw [if_pos hc] at hstray
      cases hstray
    rw [List.any_eq_false] at hany
    rw [← Alias.flatMap_chars_pieces s.toList]
    intro c hc
    obtain ⟨piece, hp, hcp⟩ := List.mem_flatMap.mp hc
    cases piece with
    | plain d =>
      rw [Alias.Piece.chars, List.mem_singleton] at hcp
      have hd := hany _ hp
      rw [hcp]
      simpa [isStrayBrace] using hd
    | braced inner =>
      have hs := ofPiece_braced_isSome inner
      rw [hnone _ hp] at hs
      cases hs
  · intro h
    have hstray : (s.toList.map Alias.Piece.plain).any isStrayBrace = false := by
      rw [List.any_eq_false]
      intro piece hp
      obtain ⟨c, hc, rfl⟩ := List.mem_map.mp hp
      simp [isStrayBrace, h c hc]
    have hplain : ∀ piece ∈ s.toList.map Alias.Piece.plain, ofPiece piece = none := by
      intro piece hp
      obtain ⟨c, -, rfl⟩ := List.mem_map.mp hp
      rfl
    rw [Alias.pieces_of_noBraces h, hstray, List.filterMap_eq_nil_iff.mpr hplain]
    rfl

/-- A text in which nothing is malformed has no stray brace, and its runs are
aliases. -/
structure WellWritten (s : String) : Prop where
  plain : ∀ c, Alias.Piece.plain c ∈ Alias.pieces s.toList → c ≠ '{' ∧ c ≠ '}'
  run : ∀ inner, Alias.Piece.braced inner ∈ Alias.pieces s.toList →
    .aliasOf (String.ofList (Alias.pathOf (Alias.withBraces inner))) ∈ ofText s

theorem wellWritten_of_not_malformed {s : String} (h : ∀ m, .malformed m ∉ ofText s) :
    WellWritten s := by
  have hany : (Alias.pieces s.toList).any isStrayBrace = false := by
    rw [Bool.eq_false_iff]
    intro hc
    refine h s ?_
    unfold ofText
    dsimp only
    rw [if_pos hc]
    exact List.mem_append_right _ List.mem_cons_self
  refine ⟨?_, ?_⟩
  · intro c hc
    have hd := List.any_eq_false.mp hany _ hc
    simpa [isStrayBrace] using hd
  · intro inner hi
    have hmem : ∀ o, ofPiece (.braced inner) = some o → o ∈ ofText s := fun o ho =>
      List.mem_append_left _ (List.mem_filterMap.mpr ⟨_, hi, ho⟩)
    rw [ofPiece] at hmem
    split at hmem
    · exact hmem _ rfl
    · exact absurd (hmem _ rfl) (h _)

end Occurrence

end DesignTokens
