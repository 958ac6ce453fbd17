import DesignTokens.Proofs.Text.Joining
import DesignTokens.Text.Blank

/-!
# The ends of a text

What is read off the front or the tail of a text stands there (`afterFront?_eq_some_iff`,
`beforeTail?_eq_some_iff`), and white space is stripped off a text whose own ends have none
(`strip_append`).
-/

namespace DesignTokens.Text

variable {cs rest front tail : List Char}

theorem afterFront?_eq_some_iff : afterFront? front cs = some rest ↔ cs = front ++ rest := by
  induction front generalizing cs with
  | nil => exact Option.some_inj
  | cons f front ih =>
    cases cs with
    | nil => exact iff_of_false nofun nofun
    | cons c cs =>
      rw [afterFront?, List.cons_append, List.cons.injEq]
      split
      · rename_i hc
        rw [ih, and_iff_right hc.symm]
      · rename_i hc
        exact iff_of_false nofun fun h => hc h.1.symm

theorem beforeTail?_eq_some_iff : beforeTail? tail cs = some front ↔ cs = front ++ tail := by
  unfold beforeTail?
  rw [Option.map_eq_some_iff]
  constructor
  · rintro ⟨rest, hrest, rfl⟩
    rw [← List.reverse_reverse cs, afterFront?_eq_some_iff.mp hrest, List.reverse_append,
      List.reverse_reverse]
  · rintro rfl
    exact ⟨front.reverse, afterFront?_eq_some_iff.mpr List.reverse_append, List.reverse_reverse _⟩

theorem afterFront?_eq_none (h : ¬ front <+: cs) : afterFront? front cs = none :=
  Option.eq_none_iff_forall_ne_some.mpr fun rest hrest =>
    h ⟨rest, (afterFront?_eq_some_iff.mp hrest).symm⟩

theorem beforeTail?_eq_none (h : ¬ tail <:+ cs) : beforeTail? tail cs = none :=
  Option.eq_none_iff_forall_ne_some.mpr fun rest hrest =>
    h ⟨rest, (beforeTail?_eq_some_iff.mp hrest).symm⟩

theorem replaceChar_of_not_mem {old new : Char} (h : old ∉ cs) : replaceChar old new cs = cs := by
  unfold replaceChar
  exact (List.map_congr_left fun c hc => if_neg (ne_of_mem_of_not_mem hc h)).trans (List.map_id' cs)

theorem replaceChar_append (old new : Char) (cs ds : List Char) :
    replaceChar old new (cs ++ ds) = replaceChar old new cs ++ replaceChar old new ds :=
  List.map_append

theorem mem_replaceChar {old new c : Char} (h : c ∈ replaceChar old new cs) :
    c = new ∨ (c ≠ old ∧ c ∈ cs) := by
  obtain ⟨d, hd, rfl⟩ := List.mem_map.mp h
  split
  · exact Or.inl rfl
  · rename_i hne
    exact Or.inr ⟨hne, hd⟩

/-- White space behind a text is stripped off, if there is none at the ends of the text. -/
theorem strip_append (hne : cs ≠ []) (hfirst : ∀ c ∈ cs.head?, isBlank c = false)
    (hlast : ∀ c ∈ cs.getLast?, isBlank c = false) (htail : ∀ c ∈ tail, isBlank c = true) :
    strip (cs ++ tail) = cs := by
  have hkeeps : ∀ {ds more : List Char}, ds ≠ [] → (∀ c ∈ ds.head?, isBlank c = false) →
      (ds ++ more).dropWhile isBlank = ds ++ more := by
    intro ds more hds hhead
    obtain ⟨c, rest, rfl⟩ := List.exists_cons_of_ne_nil hds
    rw [List.cons_append, List.dropWhile_cons, hhead c rfl]
    rfl
  have hback := @hkeeps cs.reverse [] (List.reverse_ne_nil_iff.mpr hne)
    (by rwa [List.head?_reverse])
  rw [List.append_nil] at hback
  rw [strip, hkeeps hne hfirst, stripEnd, List.reverse_append, List.dropWhile_append_of_pos, hback,
    List.reverse_reverse]
  exact fun c hc => htail c (List.mem_reverse.mp hc)

end DesignTokens.Text
