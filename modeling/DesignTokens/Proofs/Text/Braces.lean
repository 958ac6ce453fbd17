import DesignTokens.Value.Display

/-!
# Texts without braces

References are written with braces, so a text without braces makes none.  The
numbers are such texts: `noBraces_shown_int` and `noBraces_shown_real` follow the
layout of a number and come down to the digits of `Nat.repr`.
-/

namespace DesignTokens

/-- No character is a brace. -/
def NoBraces (cs : List Char) : Prop := ∀ c ∈ cs, c ≠ '{' ∧ c ≠ '}'

instance (cs : List Char) : Decidable (NoBraces cs) := List.decidableBAll _ cs

@[simp] theorem noBraces_nil : NoBraces [] := fun _ h => absurd h List.not_mem_nil

@[simp] theorem noBraces_cons {c : Char} {cs : List Char} :
    NoBraces (c :: cs) ↔ (c ≠ '{' ∧ c ≠ '}') ∧ NoBraces cs := List.forall_mem_cons

@[simp] theorem noBraces_append {cs ds : List Char} :
    NoBraces (cs ++ ds) ↔ NoBraces cs ∧ NoBraces ds := List.forall_mem_append

@[simp] theorem noBraces_reverse {cs : List Char} : NoBraces cs.reverse ↔ NoBraces cs := by
  unfold NoBraces
  simp only [List.mem_reverse]

theorem NoBraces.subset {cs ds : List Char} (h : NoBraces ds) (hs : cs ⊆ ds) : NoBraces cs :=
  fun c hc => h c (hs hc)

/-! ### Numbers -/

theorem noBraces_repr (n : Nat) : NoBraces n.repr.toList := by
  intro c hc
  rw [Nat.toList_repr] at hc
  have hd := Nat.isDigit_of_mem_toDigits (by decide) (by decide) hc
  constructor
  · rintro rfl
    exact absurd hd (by decide)
  · rintro rfl
    exact absurd hd (by decide)

theorem noBraces_replicate_zero (n : Nat) : NoBraces (List.replicate n '0') := by
  intro c hc
  rw [List.eq_of_mem_replicate hc]
  decide

theorem noBraces_shown_int (n : Int) : NoBraces (Value.shown (.int n)).toList := by
  show NoBraces (toString n).toList
  cases n with
  | ofNat m => exact noBraces_repr m
  | negSucc m =>
    show NoBraces ("-" ++ (m + 1).repr).toList
    rw [String.toList_append, noBraces_append]
    exact ⟨by decide, noBraces_repr _⟩

namespace Binary64

/-- A layout that writes no braces of its own. -/
structure Layout.IsBare (l : Layout) : Prop where
  mark : NoBraces l.mark.toList
  wholeTail : NoBraces l.wholeTail.toList
  infinity : NoBraces l.infinity.toList
  notANumber : NoBraces l.notANumber.toList

theorem noBraces_scientific (d : Decimal) : NoBraces d.scientific.1 := by
  refine (noBraces_repr d.digits).subset ?_
  intro c hc
  unfold Decimal.scientific at hc
  rw [List.mem_reverse] at hc
  exact List.mem_reverse.mp (List.dropWhile_suffix _ |>.subset hc)

theorem noBraces_paddedDigits (width n : Nat) : NoBraces (paddedDigits width n).toList := by
  unfold paddedDigits
  simp only [String.toList_append, String.toList_ofList, noBraces_append]
  exact ⟨noBraces_replicate_zero _, noBraces_repr _⟩

theorem Layout.noBraces_decimal {l : Layout} (h : l.IsBare) (d : Decimal) :
    NoBraces (l.decimal d).toList := by
  have hdigits := noBraces_scientific d
  unfold Layout.decimal
  generalize d.scientific = s at hdigits ⊢
  obtain ⟨digits, place⟩ := s
  simp only at hdigits ⊢
  split
  · split
    · simp only [String.toList_append, String.toList_ofList, noBraces_append]
      exact ⟨by decide, noBraces_replicate_zero _, hdigits⟩
    · split
      · simp only [String.toList_append, String.toList_ofList, noBraces_append]
        exact ⟨⟨hdigits, noBraces_replicate_zero _⟩, h.wholeTail⟩
      · simp only [String.toList_append, String.toList_ofList, noBraces_append]
        exact ⟨⟨hdigits.subset (List.take_subset _ _), by decide⟩,
          hdigits.subset (List.drop_subset _ _)⟩
  · simp only [String.toList_append, noBraces_append]
    refine ⟨⟨⟨?_, h.mark⟩, ?_⟩, noBraces_paddedDigits _ _⟩
    · split
      · decide
      · rw [String.toList_ofList]
        exact hdigits
      · rw [String.toList_ofList, noBraces_cons, noBraces_cons]
        have hd := noBraces_cons.mp hdigits
        exact ⟨hd.1, by decide, hd.2⟩
    · split
      · decide
      · decide

theorem Layout.noBraces_render {l : Layout} (h : l.IsBare) (x : Binary64) :
    NoBraces (l.render x).toList := by
  have hsign : ∀ negative : Bool, NoBraces (if negative then "-" else "").toList := by
    decide
  cases x with
  | finite negative significand exponent =>
    show NoBraces (if significand = 0 then _ else _ : String).toList
    split
    · simp only [String.toList_append, noBraces_append]
      exact ⟨⟨hsign negative, by decide⟩, h.wholeTail⟩
    · rw [String.toList_append, noBraces_append]
      exact ⟨hsign negative, l.noBraces_decimal h _⟩
  | infinite negative =>
    show NoBraces ((if negative then "-" else "") ++ l.infinity).toList
    rw [String.toList_append, noBraces_append]
    exact ⟨hsign negative, h.infinity⟩
  | notANumber => exact h.notANumber

end Binary64

theorem numberLayout_isBare : numberLayout.IsBare where
  mark := by decide
  wholeTail := by decide
  infinity := by decide
  notANumber := by decide

theorem noBraces_shown_real (x : Binary64) : NoBraces (Value.shown (.real x)).toList :=
  numberLayout.noBraces_render numberLayout_isBare x

end DesignTokens
