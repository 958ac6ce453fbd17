import DesignTokens.Proofs.Reference.Occurrences

/-!
# Runs and stray braces

`Alias.IsRun` says where a run stands in a text, without cutting the text: between an opening
brace and the next brace, if that one closes.  The pieces of a text are cut just there
(`braced_mem_pieces_iff`), and a brace that belongs to no run is left over as a plain
character (`exists_brace_plain_iff`).
-/

namespace DesignTokens.Alias

variable {cs before after inner : List Char} {c : Char}

/-- A run of a text: a part in braces that holds no brace. -/
structure IsRun (cs inner : List Char) : Prop where
  noBraces : NoBraces inner
  infix_text : withBraces inner <:+: cs

theorem IsRun.subset (h : IsRun cs inner) : inner ⊆ cs := fun _ hc =>
  h.infix_text.subset (List.mem_cons_of_mem _ (List.mem_append_left _ hc))

/-- A brace, with what stands before and behind it in a text, that opens or closes a run. -/
inductive OfRun : List Char → Char → List Char → Prop
  | opens {before inner after : List Char} :
      NoBraces inner → OfRun before '{' (inner ++ '}' :: after)
  | closes {before inner after : List Char} :
      NoBraces inner → OfRun (before ++ '{' :: inner) '}' after

/-- A brace of a text that belongs to no run: it is unbalanced, or others are nested in it. -/
def HasStrayBrace (cs : List Char) : Prop :=
  ∃ before c after, cs = before ++ c :: after ∧ (c = '{' ∨ c = '}') ∧ ¬ OfRun before c after

/-! ### Where a text is cut -/

theorem piecesFrom_append_open (read : Option (List Char)) (before after : List Char) :
    piecesFrom read (before ++ '{' :: after) =
      piecesFrom read before ++ piecesFrom (some []) after := by
  induction before generalizing read with
  | nil =>
    cases read with
    | none => exact if_pos rfl
    | some read => exact (if_neg (by decide)).trans (if_pos rfl)
  | cons c before ih =>
    cases read with
    | none =>
      rw [List.cons_append, piecesFrom, piecesFrom]
      split
      · exact ih _
      · rw [ih]
        rfl
    | some read =>
      rw [List.cons_append, piecesFrom, piecesFrom]
      split
      · rw [ih]
        rfl
      · split
        · rw [ih, List.append_assoc]
        · exact ih _

theorem piecesFrom_close (read : List Char) (h : NoBraces inner) (after : List Char) :
    piecesFrom (some read) (inner ++ '}' :: after) =
      .braced (read.reverse ++ inner) :: pieces after := by
  induction inner generalizing read with
  | nil =>
    rw [List.append_nil]
    exact if_pos rfl
  | cons c inner ih =>
    obtain ⟨hc, hinner⟩ := noBraces_cons.mp h
    rw [List.cons_append, piecesFrom, if_neg hc.2, if_neg hc.1, ih _ hinner, List.reverse_cons,
      List.append_assoc]
    rfl

theorem pieces_append_run (before : List Char) (h : NoBraces inner) (after : List Char) :
    pieces (before ++ withBraces inner ++ after) =
      pieces before ++ .braced inner :: pieces after := by
  have hsplit : before ++ withBraces inner ++ after = before ++ '{' :: (inner ++ '}' :: after) := by
    simp [withBraces]
  unfold pieces
  rw [hsplit, piecesFrom_append_open, piecesFrom_close [] h]
  rfl

/-- The runs are cut out, and nothing else. -/
theorem braced_mem_pieces_iff : .braced inner ∈ pieces cs ↔ IsRun cs inner := by
  constructor
  · intro h
    obtain ⟨first, last, hsplit⟩ := List.append_of_mem h
    refine ⟨noBraces_of_braced_mem h, first.flatMap Piece.chars, last.flatMap Piece.chars, ?_⟩
    rw [← flatMap_chars_pieces cs, hsplit, List.flatMap_append, List.flatMap_cons,
      ← List.append_assoc]
    rfl
  · rintro ⟨hinner, before, after, rfl⟩
    rw [pieces_append_run before hinner]
    exact List.mem_append_cons_self

/-! ### Stray braces -/

/-- A character of a text stands in one of its pieces. -/
theorem exists_piece_at {list : List Piece} (h : list.flatMap Piece.chars = before ++ c :: after) :
    ∃ first piece last front back, list = first ++ piece :: last ∧
      piece.chars = front ++ c :: back ∧ before = first.flatMap Piece.chars ++ front ∧
      after = back ++ last.flatMap Piece.chars := by
  induction list generalizing before with
  | nil => exact absurd h.symm (List.append_ne_nil_of_right_ne_nil _ (List.cons_ne_nil _ _))
  | cons piece list ih =>
    rw [List.flatMap_cons] at h
    rcases List.append_eq_append_iff.mp h with ⟨rest, rfl, hrest⟩ | ⟨back, hpiece, hback⟩
    · obtain ⟨first, piece', last, front, back, rfl, hchars, rfl, hafter⟩ := ih hrest
      refine ⟨piece :: first, piece', last, front, back, rfl, hchars, ?_, hafter⟩
      rw [List.flatMap_cons, List.append_assoc]
    · cases back with
      | nil =>
        rw [List.append_nil] at hpiece
        obtain ⟨first, piece', last, front, back, rfl, hchars, hbefore, hafter⟩ :=
          @ih [] hback.symm
        refine ⟨piece :: first, piece', last, front, back, rfl, hchars, ?_, hafter⟩
        rw [List.flatMap_cons, List.append_assoc, ← hbefore, hpiece, List.append_nil]
      | cons d back =>
        obtain ⟨rfl, rfl⟩ := List.cons.inj hback
        exact ⟨[], piece, list, before, back, rfl, hpiece, rfl, rfl⟩

/-- A brace in a run opens or closes it. -/
theorem ofRun_of_braced {front back : List Char} (hinner : NoBraces inner)
    (hchars : withBraces inner = front ++ c :: back) (hc : c = '{' ∨ c = '}')
    (before after : List Char) : OfRun (before ++ front) c (back ++ after) := by
  change '{' :: (inner ++ ['}']) = front ++ c :: back at hchars
  cases front with
  | nil =>
    obtain ⟨rfl, rfl⟩ := List.cons.inj hchars
    rw [List.append_nil, List.append_assoc]
    exact .opens hinner
  | cons d front =>
    rw [List.cons_append] at hchars
    obtain ⟨rfl, hrest⟩ := List.cons.inj hchars
    rcases List.eq_nil_or_concat back with rfl | ⟨back, d, rfl⟩
    · obtain ⟨rfl, hlast⟩ := List.append_inj' hrest rfl
      obtain rfl := List.singleton_inj.mp hlast
      exact .closes hinner
    · -- between the braces of the run there is none
      rw [List.concat_eq_append, ← List.cons_append, ← List.append_assoc] at hrest
      obtain ⟨rfl, -⟩ := List.append_inj' hrest rfl
      obtain ⟨hopen, hclose⟩ := hinner c List.mem_append_cons_self
      rcases hc with rfl | rfl
      · exact absurd rfl hopen
      · exact absurd rfl hclose

/-- Two fronts of a list of pieces with the same characters are the same. -/
theorem eq_of_flatMap_chars {first second last others : List Piece}
    (h : first ++ last = second ++ others)
    (hchars : first.flatMap Piece.chars = second.flatMap Piece.chars) : first = second := by
  have hnil : ∀ {list more : List Piece},
      list.flatMap Piece.chars = (list ++ more).flatMap Piece.chars → more = [] := by
    intro list more he
    rw [List.flatMap_append, List.self_eq_append_right, List.flatMap_eq_nil_iff] at he
    refine List.eq_nil_iff_forall_not_mem.mpr fun piece hp => ?_
    cases piece with
    | plain c => cases he _ hp
    | braced inner => cases he _ hp
  rcases List.append_eq_append_iff.mp h with ⟨more, rfl, -⟩ | ⟨more, rfl, -⟩
  · rw [hnil hchars, List.append_nil]
  · rw [hnil hchars.symm, List.append_nil]

/-- A brace that is left over as a plain character belongs to no run. -/
theorem not_ofRun_of_plain {first last : List Piece}
    (h : pieces (first.flatMap Piece.chars ++ c :: last.flatMap Piece.chars) =
      first ++ .plain c :: last) :
    ¬ OfRun (first.flatMap Piece.chars) c (last.flatMap Piece.chars) := by
  intro hrun
  generalize hbefore : first.flatMap Piece.chars = before at h hrun
  generalize last.flatMap Piece.chars = after at h hrun
  cases hrun with
  | @opens _ inner after hinner =>
    have hcut := pieces_append_run before hinner after
    rw [withBraces, List.append_assoc, List.cons_append, List.cons_append, List.append_assoc,
      List.singleton_append, h] at hcut
    obtain rfl := eq_of_flatMap_chars hcut (hbefore.trans (flatMap_chars_pieces before).symm)
    cases (List.cons.inj (List.append_cancel_left hcut)).1
  | @closes front inner _ hinner =>
    have hcut := pieces_append_run front hinner after
    have hsame : front ++ withBraces inner ++ after = (front ++ '{' :: inner) ++ '}' :: after := by
      simp [withBraces]
    rw [hsame, h, List.append_cons, List.append_cons (pieces front)] at hcut
    have hend := eq_of_flatMap_chars hcut (by
      rw [List.flatMap_append, List.flatMap_append, hbefore, flatMap_chars_pieces]
      simp [Piece.chars, withBraces])
    cases List.singleton_inj.mp (List.append_inj' hend rfl).2

theorem exists_brace_plain_iff :
    (∃ d, .plain d ∈ pieces cs ∧ (d = '{' ∨ d = '}')) ↔ HasStrayBrace cs := by
  constructor
  · rintro ⟨d, hd, hbrace⟩
    obtain ⟨first, last, hsplit⟩ := List.append_of_mem hd
    have hcs : cs = first.flatMap Piece.chars ++ d :: last.flatMap Piece.chars := by
      rw [← flatMap_chars_pieces cs, hsplit, List.flatMap_append, List.flatMap_cons]
      rfl
    exact ⟨_, d, _, hcs, hbrace, not_ofRun_of_plain (hcs ▸ hsplit)⟩
  · rintro ⟨before, c, after, hcs, hbrace, hrun⟩
    obtain ⟨first, piece, last, front, back, hsplit, hchars, rfl, rfl⟩ :=
      exists_piece_at ((flatMap_chars_pieces cs).trans hcs)
    have hmem : piece ∈ pieces cs := hsplit ▸ List.mem_append_cons_self
    cases piece with
    | plain d =>
      have hd : c ∈ [d] := by
        rw [show [d] = front ++ c :: back from hchars]
        exact List.mem_append_cons_self
      rw [List.mem_singleton.mp hd] at hbrace
      exact ⟨d, hmem, hbrace⟩
    | braced inner =>
      exact absurd (ofRun_of_braced (noBraces_of_braced_mem hmem) hchars hbrace _ _) hrun

end DesignTokens.Alias
