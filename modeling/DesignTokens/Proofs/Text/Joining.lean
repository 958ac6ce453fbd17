import DesignTokens.Text.Parts
import Mathlib.Data.List.Forall2
import Mathlib.Data.List.Infix

/-!
# Telling joined parts apart

Parts are joined without any escaping, so what was joined is only found again if no part looks like
more than one.  Where two joined texts agree, the first parts are equal or one of them continues
behind the end of the other with the separator (`append_cons_eq_append_cons`).  Three ways to rule
this out follow: for parts that are all taken from one stock (`joinOn_inj`), for as many parts as
there are places (`joinOn_inj_of_places`), and for parts with a mark in front that may be missing
(`texts_eq_of_joinOn`).
-/

namespace DesignTokens.Text

variable {separator : Char} {a b x y : List Char} {parts first second : List (List Char)}

theorem map_toList_injective : Function.Injective (List.map String.toList) :=
  List.map_injective_iff.mpr fun _ _ => String.toList_injective

theorem joinOn_cons_of_ne_nil (h : parts ≠ []) (part : List Char) :
    joinOn separator (part :: parts) = part ++ separator :: joinOn separator parts := by
  cases parts with
  | nil => exact absurd rfl h
  | cons next parts => rfl

theorem mem_joinOn {c : Char} (h : c ∈ joinOn separator parts) :
    c = separator ∨ ∃ part ∈ parts, c ∈ part := by
  induction parts with
  | nil => exact absurd h List.not_mem_nil
  | cons part parts ih =>
    by_cases hne : parts = []
    · subst hne
      exact Or.inr ⟨part, List.mem_cons_self, h⟩
    · rw [joinOn_cons_of_ne_nil hne, List.mem_append, List.mem_cons] at h
      rcases h with h | h | h
      · exact Or.inr ⟨part, List.mem_cons_self, h⟩
      · exact Or.inl h
      · exact (ih h).imp_right fun ⟨other, hother, hc⟩ => ⟨other, List.mem_cons_of_mem _ hother, hc⟩

/-- What stands in a part of a text stands in the text, and is not the separator. -/
theorem mem_of_mem_splitOn {cs part : List Char} {c : Char} (h : part ∈ splitOn separator cs)
    (hc : c ∈ part) : c ∈ cs ∧ c ≠ separator := by
  induction cs generalizing part with
  | nil =>
    rw [splitOn, List.mem_singleton] at h
    rw [h] at hc
    exact absurd hc List.not_mem_nil
  | cons d rest ih =>
    rw [splitOn] at h
    split at h
    · rcases List.mem_cons.mp h with rfl | h
      · exact absurd hc List.not_mem_nil
      · exact (ih h hc).imp_left (List.mem_cons_of_mem d)
    · rename_i hd
      cases hs : splitOn separator rest with
      | nil => exact absurd hs (splitOn_ne_nil separator rest)
      | cons first parts =>
        rw [hs] at h ih
        rcases List.mem_cons.mp h with rfl | h
        · rcases List.mem_cons.mp hc with rfl | hc
          · exact ⟨List.mem_cons_self, hd⟩
          · exact (ih List.mem_cons_self hc).imp_left (List.mem_cons_of_mem d)
        · exact (ih (List.mem_cons_of_mem _ h) hc).imp_left (List.mem_cons_of_mem d)

theorem not_mem_of_mem_splitOn {cs part : List Char} (h : part ∈ splitOn separator cs) :
    separator ∉ part := fun hm => (mem_of_mem_splitOn h hm).2 rfl

theorem head?_joinOn {part : List Char} (h : part ≠ []) (parts : List (List Char)) :
    (joinOn separator (part :: parts)).head? = part.head? := by
  cases parts with
  | nil => rfl
  | cons next parts =>
    cases part with
    | nil => exact absurd rfl h
    | cons c part => rfl

theorem splitOn_append_cons (separator : Char) (cs rest : List Char) :
    splitOn separator (cs ++ separator :: rest) =
      splitOn separator cs ++ splitOn separator rest := by
  induction cs with
  | nil => exact if_pos rfl
  | cons c cs ih =>
    rw [List.cons_append, splitOn, splitOn, ih]
    split
    · rfl
    · cases hparts : splitOn separator cs with
      | nil => exact absurd hparts (splitOn_ne_nil separator cs)
      | cons part parts => rfl

theorem splitOn_joinOn_append {rest : List Char} (hne : parts ≠ [])
    (h : ∀ part ∈ parts, separator ∉ part) :
    splitOn separator (joinOn separator parts ++ separator :: rest) =
      parts ++ splitOn separator rest := by
  rw [splitOn_append_cons, splitOn_joinOn separator hne h]

theorem cut_append (separator : Char) {part : List Char} (rest : List Char)
    (h : separator ∉ part) :
    cut separator (part ++ separator :: rest) = (part, some rest) := by
  unfold cut
  rw [splitOn_append separator rest h]
  cases hrest : splitOn separator rest with
  | nil => exact absurd hrest (splitOn_ne_nil separator rest)
  | cons next more =>
    have hjoined : joinOn separator (next :: more) = rest :=
      hrest ▸ joinOn_splitOn separator rest
    simp only [hjoined]

/-- Where joined parts are the front of others up to a separator, the parts are. -/
theorem prefix_of_joinOn {others : List (List Char)} (hne : parts ≠ [])
    (h : ∀ part ∈ parts, separator ∉ part)
    (hne' : others ≠ []) (h' : ∀ part ∈ others, separator ∉ part)
    (hfront : joinOn separator parts ++ [separator] <+: joinOn separator others) :
    parts <+: others ∧ parts ≠ others := by
  obtain ⟨rest, hrest⟩ := hfront
  rw [List.append_assoc, List.singleton_append] at hrest
  have hsplit := congrArg (splitOn separator) hrest
  rw [splitOn_joinOn_append hne h, splitOn_joinOn separator hne' h'] at hsplit
  refine ⟨⟨_, hsplit⟩, fun he => splitOn_ne_nil separator rest ?_⟩
  rw [he] at hsplit
  exact List.append_right_eq_self.mp hsplit

theorem toList_joinWith {text : String} (h : text.toList = [separator]) (texts : List String) :
    (joinWith text texts).toList = joinOn separator (texts.map String.toList) := by
  induction texts with
  | nil => rfl
  | cons part texts ih =>
    cases texts with
    | nil => rfl
    | cons next texts =>
      rw [joinWith, String.toList_append, String.toList_append, ih, h, List.append_assoc]
      · rfl
      · exact List.cons_ne_nil _ _

theorem mem_joinWith {c : Char} {text : String} {texts : List String}
    (h : c ∈ (joinWith text texts).toList) :
    c ∈ text.toList ∨ ∃ part ∈ texts, c ∈ part.toList := by
  induction texts with
  | nil => exact absurd h List.not_mem_nil
  | cons part texts ih =>
    cases texts with
    | nil => exact Or.inr ⟨part, List.mem_cons_self, h⟩
    | cons next texts =>
      rw [joinWith, String.toList_append, String.toList_append, List.mem_append,
        List.mem_append] at h
      · rcases h with (h | h) | h
        · exact Or.inr ⟨part, List.mem_cons_self, h⟩
        · exact Or.inl h
        · exact (ih h).imp id fun ⟨other, hother, hc⟩ => ⟨other, List.mem_cons_of_mem _ hother, hc⟩
      · exact List.cons_ne_nil _ _

theorem joinWith_cons (separator front : String) (texts : List String) :
    joinWith separator (front :: texts) = front ++ joinWith separator ("" :: texts) := by
  cases texts with
  | nil => exact (String.append_empty).symm
  | cons next texts =>
    show front ++ separator ++ joinWith separator (next :: texts) =
      front ++ ("" ++ separator ++ joinWith separator (next :: texts))
    rw [String.empty_append, String.append_assoc]

theorem joinOn_cons_cancel {part : List Char} (hlength : first.length = second.length)
    (h : joinOn separator (part :: first) = joinOn separator (part :: second)) :
    joinOn separator first = joinOn separator second := by
  cases first with
  | nil => rw [List.length_eq_zero_iff.mp hlength.symm]
  | cons a first =>
    cases second with
    | nil => cases hlength
    | cons b second => exact (List.cons.inj (List.append_cancel_left h)).2

/-- Two texts that agree and have a separator each: it is the same place, or one of the fronts goes
on behind the end of the other. -/
theorem append_cons_eq_append_cons (h : a ++ separator :: x = b ++ separator :: y) :
    (a = b ∧ x = y) ∨ (∃ z, b = a ++ separator :: z ∧ x = z ++ separator :: y) ∨
      ∃ z, a = b ++ separator :: z ∧ y = z ++ separator :: x := by
  rcases List.append_eq_append_iff.mp h with ⟨z, rfl, hz⟩ | ⟨z, rfl, hz⟩
  · cases z with
    | nil => exact Or.inl ⟨(List.append_nil a).symm, (List.cons.inj hz).2⟩
    | cons c z =>
      obtain ⟨rfl, rfl⟩ := List.cons.inj hz
      exact Or.inr (Or.inl ⟨z, rfl, rfl⟩)
  · cases z with
    | nil => exact Or.inl ⟨List.append_nil b, (List.cons.inj hz).2.symm⟩
    | cons c z =>
      obtain ⟨rfl, rfl⟩ := List.cons.inj hz
      exact Or.inr (Or.inr ⟨z, rfl, rfl⟩)

theorem eq_of_marked_prefix (ha : separator ∉ a) (hb : separator ∉ b)
    (h : a ++ [separator] <+: b ++ [separator]) : a = b := by
  obtain ⟨z, hz⟩ := h
  rw [List.append_assoc] at hz
  rcases append_cons_eq_append_cons hz with ⟨heq, -⟩ | ⟨z, rfl, -⟩ | ⟨z, rfl, -⟩
  · exact heq
  · exact absurd (List.mem_append_right _ List.mem_cons_self) hb
  · exact absurd (List.mem_append_right _ List.mem_cons_self) ha

/-- Whether a text is another one with a separator and something behind it. -/
def Continues (separator : Char) (a b : List Char) : Prop := a ++ [separator] <+: b

theorem continues_append_cons (a z : List Char) : Continues separator a (a ++ separator :: z) :=
  ⟨z, by rw [List.append_assoc]; rfl⟩

theorem eq_of_append_cons (h : a ++ separator :: x = b ++ separator :: y)
    (hab : ¬ Continues separator a b) (hba : ¬ Continues separator b a) : a = b ∧ x = y := by
  rcases append_cons_eq_append_cons h with heq | ⟨z, rfl, -⟩ | ⟨z, rfl, -⟩
  · exact heq
  · exact absurd (continues_append_cons a z) hab
  · exact absurd (continues_append_cons b z) hba

/-! ### Parts of one stock -/

/-- Parts that are not empty and of which none continues another one are found again. -/
theorem joinOn_inj {stock : List Char → Prop} (hne : ∀ a, stock a → a ≠ [])
    (hclear : ∀ a b, stock a → stock b → ¬ Continues separator a b)
    (hfirst : ∀ part ∈ first, stock part) (hsecond : ∀ part ∈ second, stock part)
    (h : joinOn separator first = joinOn separator second) : first = second := by
  have hnil : ∀ part parts, stock part → joinOn separator (part :: parts) ≠ [] := by
    intro part parts hpart he
    cases parts with
    | nil => exact hne part hpart he
    | cons next parts => exact List.cons_ne_nil _ _ (List.append_eq_nil_iff.mp he).2
  induction first generalizing second with
  | nil =>
    cases second with
    | nil => rfl
    | cons b second => exact absurd h.symm (hnil b second (hsecond b List.mem_cons_self))
  | cons a first ih =>
    cases second with
    | nil => exact absurd h (hnil a first (hfirst a List.mem_cons_self))
    | cons b second =>
      obtain ⟨ha, hfirst⟩ := List.forall_mem_cons.mp hfirst
      obtain ⟨hb, hsecond⟩ := List.forall_mem_cons.mp hsecond
      by_cases hf : first = []
      · by_cases hs : second = []
        · subst hf hs
          exact congrArg (· :: []) h
        · rw [hf, joinOn_cons_of_ne_nil hs] at h
          obtain rfl : a = _ := h
          exact absurd (continues_append_cons b _) (hclear b _ hb ha)
      · by_cases hs : second = []
        · rw [hs, joinOn_cons_of_ne_nil hf] at h
          obtain rfl : _ = b := h
          exact absurd (continues_append_cons a _) (hclear a _ ha hb)
        · rw [joinOn_cons_of_ne_nil hf, joinOn_cons_of_ne_nil hs] at h
          obtain ⟨heq, hrest⟩ := eq_of_append_cons h (hclear a b ha hb) (hclear b a hb ha)
          rw [heq, ih hfirst hsecond hrest]

/-! ### A part for each place -/

/-- If there is a part for each place, they are found again where none continues another one that
may stand in its place.  Nothing stands behind the last one, so it does not count. -/
theorem joinOn_inj_of_places {places : List (List Char → Prop)}
    (hfirst : List.Forall₂ (fun may part => may part) places first)
    (hsecond : List.Forall₂ (fun may part => may part) places second)
    (hclear : ∀ may ∈ places.dropLast, ∀ a b, may a → may b → ¬ Continues separator a b)
    (h : joinOn separator first = joinOn separator second) : first = second := by
  induction hfirst generalizing second with
  | nil => exact (List.forall₂_nil_left_iff.mp hsecond).symm
  | @cons may a places first ha hfirst ih =>
    obtain ⟨b, others, hb, hothers, rfl⟩ := List.forall₂_cons_left_iff.mp hsecond
    cases places with
    | nil =>
      rw [List.forall₂_nil_left_iff.mp hfirst, List.forall₂_nil_left_iff.mp hothers] at h ⊢
      exact congrArg (· :: []) h
    | cons next places =>
      have hne : ∀ {parts}, List.Forall₂ (fun may part => may part) (next :: places) parts →
          parts ≠ [] := by
        rintro parts hparts rfl
        cases hparts
      rw [List.dropLast_cons_cons] at hclear
      obtain ⟨hhere, hrest⟩ := List.forall_mem_cons.mp hclear
      rw [joinOn_cons_of_ne_nil (hne hfirst), joinOn_cons_of_ne_nil (hne hothers)] at h
      obtain ⟨heq, htail⟩ := eq_of_append_cons h (hhere a b ha hb) (hhere b a hb ha)
      rw [heq, ih hothers hrest htail]

/-! ### Parts with a mark -/

/-- Whether one of two texts begins with the other. -/
def Overlap (a b : List Char) : Prop := a <+: b ∨ b <+: a

/-- What may be written for a name: a mark in front, and the texts that may follow it.  Where no
text may be there, the mark is left out too. -/
structure Field where
  mark : List Char
  may : Option (List Char) → Prop

/-- A field can be told from a later one: a separator in one of its texts is not followed by what
may be taken for the mark of the later one, and where it is left out its mark is no front of that
mark, nor the other way round. -/
structure Field.ClearOf (separator : Char) (f g : Field) : Prop where
  inside : ∀ a b, f.may (some (a ++ separator :: b)) → ¬ Overlap (b ++ [separator]) g.mark
  missing : f.may none → ¬ Overlap f.mark g.mark

/-- The parts that are there, each with its mark. -/
def markedParts (fields : List Field) (texts : List (Option (List Char))) : List (List Char) :=
  (fields.zip texts).filterMap fun p => p.2.map (p.1.mark ++ ·)

theorem markedParts_cons_some (f : Field) (text : List Char) (fields : List Field)
    (texts : List (Option (List Char))) :
    markedParts (f :: fields) (some text :: texts) =
      (f.mark ++ text) :: markedParts fields texts := rfl

theorem joinOn_append_cons_front (front part : List Char) (parts : List (List Char)) :
    joinOn separator ((front ++ part) :: parts) = front ++ joinOn separator (part :: parts) := by
  cases parts with
  | nil => rfl
  | cons next parts => exact List.append_assoc _ _ _

/-- Joined parts begin with the mark of one of the fields. -/
theorem exists_mark_of_ne_nil {fields : List Field} {texts : List (Option (List Char))}
    (h : markedParts fields texts ≠ []) :
    ∃ f ∈ fields, f.mark <+: joinOn separator (markedParts fields texts) := by
  cases hparts : markedParts fields texts with
  | nil => exact absurd hparts h
  | cons part parts =>
    have hmem : part ∈ markedParts fields texts := by rw [hparts]; exact List.mem_cons_self
    obtain ⟨⟨f, text⟩, hzip, htext⟩ := List.mem_filterMap.mp hmem
    obtain ⟨text, rfl, rfl⟩ := Option.map_eq_some_iff.mp htext
    refine ⟨f, (List.of_mem_zip hzip).1, ?_⟩
    rw [joinOn_append_cons_front]
    exact List.prefix_append _ _

section

variable {f : Field} {fields : List Field} {texts others : List (Option (List Char))}
  {text other : List Char}
  (hclear : ∀ g ∈ fields, f.ClearOf separator g)

include hclear

theorem not_goes_on (htext : f.may (some text)) (ht : markedParts fields texts ≠ []) {z : List Char}
    (hz : joinOn separator (markedParts fields texts) <+: z ∨
      z ++ [separator] <+: joinOn separator (markedParts fields texts)) (other : List Char) :
    text ≠ other ++ separator :: z := by
  rintro rfl
  obtain ⟨g, hg, hmark⟩ := exists_mark_of_ne_nil ht
  refine (hclear g hg).inside other z htext ?_
  rcases hz with hz | hz
  · exact Or.inr ((hmark.trans hz).trans (List.prefix_append _ _))
  · exact List.prefix_or_prefix_of_prefix hz hmark

/-- Texts behind the same mark, with other parts behind them, are found again. -/
theorem text_eq_of_joinOn (htext : f.may (some text)) (hother : f.may (some other))
    (h : joinOn separator (text :: markedParts fields texts) =
      joinOn separator (other :: markedParts fields others)) :
    text = other ∧ joinOn separator (markedParts fields texts) =
      joinOn separator (markedParts fields others) := by
  by_cases ht : markedParts fields texts = []
  · by_cases ho : markedParts fields others = []
    · rw [ht, ho] at h ⊢
      exact ⟨h, rfl⟩
    · rw [ht, joinOn_cons_of_ne_nil ho] at h
      exact absurd h (not_goes_on hclear htext ho (Or.inl List.prefix_rfl) other)
  · by_cases ho : markedParts fields others = []
    · rw [ho, joinOn_cons_of_ne_nil ht] at h
      exact absurd h.symm (not_goes_on hclear hother ht (Or.inl List.prefix_rfl) text)
    · rw [joinOn_cons_of_ne_nil ht, joinOn_cons_of_ne_nil ho] at h
      rcases append_cons_eq_append_cons h with heq | ⟨z, hz, hrest⟩ | ⟨z, hz, hrest⟩
      · exact heq
      · exact absurd hz (not_goes_on hclear hother ht
          (Or.inr (hrest ▸ continues_append_cons z _)) text)
      · exact absurd hz (not_goes_on hclear htext ho
          (Or.inr (hrest ▸ continues_append_cons z _)) other)

/-- What is left out is not read out of other parts. -/
theorem not_joinOn_of_missing (hnone : f.may none) (hmark : f.mark ≠ []) :
    joinOn separator (markedParts fields texts) ≠
      joinOn separator ((f.mark ++ text) :: markedParts fields others) := by
  intro h
  have hfront : f.mark <+: joinOn separator (markedParts fields texts) := by
    rw [h, joinOn_append_cons_front]
    exact List.prefix_append _ _
  by_cases ht : markedParts fields texts = []
  · rw [ht] at hfront
    exact hmark (List.prefix_nil.mp hfront)
  · obtain ⟨g, hg, hother⟩ := exists_mark_of_ne_nil ht
    exact (hclear g hg).missing hnone (List.prefix_or_prefix_of_prefix hfront hother)

end

/-- **Marked parts are found again** if each field can be told from the later ones. -/
theorem texts_eq_of_joinOn {fields : List Field} {texts others : List (Option (List Char))}
    (hclear : fields.Pairwise (Field.ClearOf separator)) (hmarks : ∀ f ∈ fields, f.mark ≠ [])
    (htexts : List.Forall₂ (fun f text => f.may text) fields texts)
    (hothers : List.Forall₂ (fun f text => f.may text) fields others)
    (h : joinOn separator (markedParts fields texts) =
      joinOn separator (markedParts fields others)) : texts = others := by
  induction htexts generalizing others with
  | nil => exact (List.forall₂_nil_left_iff.mp hothers).symm
  | @cons f text fields texts htext _ ih =>
    obtain ⟨other, others, hother, hbelow, rfl⟩ := List.forall₂_cons_left_iff.mp hothers
    obtain ⟨hhere, hclear⟩ := List.pairwise_cons.mp hclear
    obtain ⟨hmark, hmarks⟩ := List.forall_mem_cons.mp hmarks
    cases text with
    | none =>
      cases other with
      | none => rw [ih hclear hmarks hbelow h]
      | some other => exact absurd h (not_joinOn_of_missing hhere htext hmark)
    | some text =>
      cases other with
      | none => exact absurd h.symm (not_joinOn_of_missing hhere hother hmark)
      | some other =>
        rw [markedParts_cons_some, markedParts_cons_some, joinOn_append_cons_front,
          joinOn_append_cons_front] at h
        obtain ⟨heq, hrest⟩ := text_eq_of_joinOn hhere htext hother (List.append_cancel_left h)
        rw [heq, ih hclear hmarks hbelow hrest]

end DesignTokens.Text
