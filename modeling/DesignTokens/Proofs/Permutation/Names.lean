import DesignTokens.Permutation.Resolution
import DesignTokens.Proofs.FilePath
import DesignTokens.Proofs.Permutation.FanOut
import DesignTokens.Proofs.Permutation.Listing
import DesignTokens.Proofs.Text.Joining

/-!
# Names of permutations

The name of a selection puts the modifiers for which something is chosen one after the other, each
with what is chosen, and escapes nothing.  So a name can be read as another selection's, unless the
options of a list are told apart and so is the part of each modifier from those of the later ones
(`Legible`); then different selections have different names (`eq_of_idOf`).  Where no name and no
option holds any of the separators, this is so (`legible_of_plain`).

The name of a fanned-out file has the options of the combination behind its base, with dashes
between them.  Here there is a part for each modifier, and it is enough that no option of a modifier
but the last goes on behind another one (`tails_nodup`).
-/

namespace DesignTokens

/-! ### Names of selections -/

/-- What a choice writes into the name of a selection, if anything is chosen. -/
def choiceText? : Value → Option String
  | .list items =>
    if items.isEmpty then none else some (Text.joinWith "+" (items.filterMap Value.text?))
  | v => if v.isVacant then none else some v.plain

theorem texts?_map_text (texts : List String) :
    (Value.list (texts.map .text)).texts? = some texts := by
  show (texts.map Value.text).mapM Value.text? = some texts
  induction texts with
  | nil => rfl
  | cons text texts ih => rw [List.map_cons, List.mapM_cons, ih]; rfl

theorem choiceText?_many {texts : List String} (h : texts ≠ []) :
    choiceText? (.list (texts.map .text)) = some (Text.joinWith "+" texts) := by
  have htexts : (texts.map Value.text).filterMap Value.text? = texts := by
    rw [List.filterMap_map]
    exact List.filterMap_some
  show (if _ then none else some (Text.joinWith "+" ((texts.map Value.text).filterMap _))) = _
  rw [htexts, if_neg (by simpa using h)]

theorem choiceText?_one {text : String} (h : text ≠ "") : choiceText? (.text text) = some text :=
  if_neg (by simpa [Value.isVacant] using h)

namespace Manifest

variable {m : Manifest} {s t : Selection}

/-- What every manifest has: names and options that are distinct, options that are not empty, and no
modifier in the place of the file name. -/
structure Proper (m : Manifest) : Prop where
  keys : m.modifiers.keys.Nodup
  options : ∀ entry ∈ m.modifiers, entry.2.options.Nodup
  nonempty : ∀ entry ∈ m.modifiers, ∀ option ∈ entry.2.options, option ≠ ""
  output : ∀ entry ∈ m.modifiers, entry.1 ≠ outputKey

instance (m : Manifest) : Decidable m.Proper :=
  decidable_of_iff (m.modifiers.keys.Nodup ∧ (∀ entry ∈ m.modifiers, entry.2.options.Nodup) ∧
    (∀ entry ∈ m.modifiers, ∀ option ∈ entry.2.options, option ≠ "") ∧
    ∀ entry ∈ m.modifiers, entry.1 ≠ outputKey)
    ⟨fun ⟨keys, options, nonempty, output⟩ => ⟨keys, options, nonempty, output⟩,
      fun h => ⟨h.keys, h.options, h.nonempty, h.output⟩⟩

/-- What a modifier may write into the name of a selection. -/
def nameField (entry : String × Modifier) : Text.Field where
  mark := (entry.1 ++ "-").toList
  may text := ∃ v, entry.2.Offers v ∧ (choiceText? v).map String.toList = text

/-- The names of selections can be read: the options of a list are told apart, and so is the part of
each modifier from those of the later ones. -/
structure Legible (m : Manifest) : Prop where
  options : ∀ entry ∈ m.modifiers, ∀ options values, entry.2 = .anyOf options values →
    ∀ a ∈ options, ∀ b ∈ options, ¬ Text.Continues '+' a.toList b.toList
  fields : m.modifiers.Pairwise fun e f => (nameField e).ClearOf '_' (nameField f)

/-- Options joined with plus signs are found again if they are told apart. -/
theorem eq_of_joinWith_plus {options chosen others : List String}
    (hne : ∀ option ∈ options, option ≠ "")
    (hplus : ∀ a ∈ options, ∀ b ∈ options, ¬ Text.Continues '+' a.toList b.toList)
    (hchosen : chosen.Sublist options) (hothers : others.Sublist options)
    (h : Text.joinWith "+" chosen = Text.joinWith "+" others) : chosen = others := by
  have hchars := congrArg String.toList h
  have hseparator : "+".toList = ['+'] := rfl
  rw [Text.toList_joinWith hseparator, Text.toList_joinWith hseparator] at hchars
  have hstock : ∀ {texts : List String}, texts.Sublist options →
      ∀ part ∈ texts.map String.toList, ∃ option ∈ options, option.toList = part := by
    intro texts htexts part hpart
    obtain ⟨option, hoption, rfl⟩ := List.mem_map.mp hpart
    exact ⟨option, htexts.subset hoption, rfl⟩
  refine Text.map_toList_injective (Text.joinOn_inj ?_ ?_ (hstock hchosen) (hstock hothers) hchars)
  · rintro _ ⟨option, hoption, rfl⟩ he
    exact hne option hoption (String.toList_inj.mp he)
  · rintro _ _ ⟨a, ha, rfl⟩ ⟨b, hb, rfl⟩
    exact hplus a ha b hb

/-- What a modifier offers is read off what it writes. -/
theorem eq_of_choiceText? {modifier : Modifier} {v w : Value}
    (hne : ∀ option ∈ modifier.options, option ≠ "")
    (hplus : ∀ options values, modifier = .anyOf options values →
      ∀ a ∈ options, ∀ b ∈ options, ¬ Text.Continues '+' a.toList b.toList)
    (hv : modifier.Offers v) (hw : modifier.Offers w) (h : choiceText? v = choiceText? w) :
    v = w := by
  cases modifier with
  | oneOf options values default =>
    obtain ⟨option, hoption, rfl⟩ := hv
    obtain ⟨other, hother, rfl⟩ := hw
    rw [choiceText?_one (hne option hoption), choiceText?_one (hne other hother)] at h
    rw [Option.some.inj h]
  | anyOf options values =>
    obtain ⟨chosen, hchosen, rfl⟩ := hv
    obtain ⟨others, hothers, rfl⟩ := hw
    have hnone : choiceText? (.list []) = none := rfl
    by_cases hc : chosen = []
    · by_cases ho : others = []
      · rw [hc, ho]
      · rw [hc, choiceText?_many ho] at h
        cases h
    · by_cases ho : others = []
      · rw [ho, choiceText?_many hc] at h
        cases h
      · rw [choiceText?_many hc, choiceText?_many ho] at h
        rw [eq_of_joinWith_plus hne (hplus options values rfl) hchosen hothers (Option.some.inj h)]

/-! ### Reading a name -/

def partsOf (s : Selection) : List String :=
  s.filterMap fun p => (choiceText? p.2).map (p.1 ++ "-" ++ ·)

theorem idPart?_of_offers {modifier : Modifier} {v : Value} (h : modifier.Offers v)
    (name : String) :
    Permutation.idPart? name v = .ok ((choiceText? v).map (name ++ "-" ++ ·)) := by
  cases modifier with
  | oneOf options values default =>
    obtain ⟨option, -, rfl⟩ := h
    unfold Permutation.idPart? choiceText?
    dsimp only
    split
    · rfl
    · rfl
  | anyOf options values =>
    obtain ⟨chosen, -, rfl⟩ := h
    by_cases hc : chosen = []
    · rw [hc]
      rfl
    · unfold Permutation.idPart?
      dsimp only
      rw [if_neg (by simpa using hc), texts?_map_text, choiceText?_many hc]
      rfl

/-- The name of a listed selection joins its parts. -/
theorem idOf_eq (h : m.Proper) (hs : s ∈ m.allSelections) :
    Permutation.idOf s = .ok (if (partsOf s).isEmpty then Permutation.defaultId
      else Text.joinWith "_" (partsOf s)) := by
  have hparts : Permutation.idParts s = .ok (partsOf s) := by
    have hall := mem_allSelections_iff.mp hs
    have hnames := h.output
    clear hs
    generalize m.modifiers = modifiers at hall hnames
    induction hall with
    | nil => rfl
    | @cons entry choice modifiers s hhere _ ih =>
      obtain ⟨name, v⟩ := choice
      obtain ⟨rfl, hoffers⟩ := hhere
      obtain ⟨hname, hnames⟩ := List.forall_mem_cons.mp hnames
      rw [Permutation.idParts, if_neg hname, idPart?_of_offers hoffers, ih hnames]
      unfold partsOf
      rw [List.filterMap_cons]
      cases choiceText? v with
      | none => rfl
      | some text => rfl
  unfold Permutation.idOf
  rw [hparts]
  rfl

def textsOf (s : Selection) : List (Option (List Char)) :=
  s.map fun p => (choiceText? p.2).map String.toList

theorem toList_partsOf (hs : s ∈ m.allSelections) :
    (partsOf s).map String.toList = Text.markedParts (m.modifiers.map nameField) (textsOf s) := by
  have hall := mem_allSelections_iff.mp hs
  clear hs
  generalize m.modifiers = modifiers at hall
  unfold partsOf textsOf Text.markedParts
  induction hall with
  | nil => rfl
  | @cons entry choice modifiers s hhere _ ih =>
    obtain ⟨name, v⟩ := choice
    obtain ⟨rfl, -⟩ := hhere
    rw [List.filterMap_cons, List.map_cons, List.map_cons, List.zip_cons_cons,
      List.filterMap_cons]
    cases choiceText? v with
    | none => exact ih
    | some text =>
      have hpart : (entry.1 ++ "-" ++ text).toList =
          (nameField entry).mark ++ text.toList := String.toList_append
      exact congrArg₂ List.cons hpart ih

theorem may_textsOf (hs : s ∈ m.allSelections) :
    List.Forall₂ (fun f text => f.may text) (m.modifiers.map nameField) (textsOf s) := by
  have hall := mem_allSelections_iff.mp hs
  unfold textsOf
  rw [List.forall₂_map_left_iff, List.forall₂_map_right_iff]
  exact hall.imp fun entry choice hhere => ⟨choice.2, hhere.2, rfl⟩

/-- A selection is read off what it writes for each modifier. -/
theorem eq_of_textsOf (h : m.Proper) (hl : m.Legible) (hs : s ∈ m.allSelections)
    (ht : t ∈ m.allSelections) (he : textsOf s = textsOf t) : s = t := by
  have hfirst := mem_allSelections_iff.mp hs
  have hsecond := mem_allSelections_iff.mp ht
  have hne := h.nonempty
  have hplus := hl.options
  clear hs ht
  generalize m.modifiers = modifiers at hfirst hsecond hne hplus
  induction hfirst generalizing t with
  | nil => exact (List.forall₂_nil_left_iff.mp hsecond).symm
  | @cons entry choice modifiers s hhere _ ih =>
    obtain ⟨other, t, hother, hrest, rfl⟩ := List.forall₂_cons_left_iff.mp hsecond
    obtain ⟨hnehere, hne⟩ := List.forall_mem_cons.mp hne
    obtain ⟨hplushere, hplus⟩ := List.forall_mem_cons.mp hplus
    obtain ⟨htext, htexts⟩ := List.cons.inj he
    have hv := eq_of_choiceText? hnehere hplushere hhere.2 hother.2
      (Option.map_injective (fun _ _ => String.toList_injective) htext)
    rw [ih htexts hrest hne hplus, Prod.ext (hhere.1.symm.trans hother.1) hv]

theorem toList_joinWith_partsOf (hs : s ∈ m.allSelections) :
    (Text.joinWith "_" (partsOf s)).toList =
      Text.joinOn '_' (Text.markedParts (m.modifiers.map nameField) (textsOf s)) := by
  have hseparator : "_".toList = ['_'] := rfl
  rw [Text.toList_joinWith hseparator, toList_partsOf hs]

/-- The name of the selection in which nothing is chosen is no other name: it has no hyphen. -/
theorem joinWith_partsOf_ne_default (hs : s ∈ m.allSelections) (hparts : partsOf s ≠ []) :
    Text.joinWith "_" (partsOf s) ≠ Permutation.defaultId := by
  intro hdefault
  have hne : Text.markedParts (m.modifiers.map nameField) (textsOf s) ≠ [] := by
    rw [← toList_partsOf hs]
    exact fun hnil => hparts (List.map_eq_nil_iff.mp hnil)
  obtain ⟨f, hf, hfront⟩ : ∃ f ∈ m.modifiers.map nameField, f.mark <+:
      Text.joinOn '_' (Text.markedParts (m.modifiers.map nameField) (textsOf s)) :=
    Text.exists_mark_of_ne_nil hne
  obtain ⟨entry, -, rfl⟩ := List.mem_map.mp hf
  rw [← toList_joinWith_partsOf hs, hdefault] at hfront
  have hmem : '-' ∈ (nameField entry).mark := by
    show '-' ∈ (entry.1 ++ "-").toList
    rw [String.toList_append]
    exact List.mem_append_right _ List.mem_cons_self
  exact absurd (hfront.subset hmem) (by decide)

/-- **Different selections have different names** where names can be read. -/
theorem eq_of_idOf (h : m.Proper) (hl : m.Legible) (hs : s ∈ m.allSelections)
    (ht : t ∈ m.allSelections) (he : Permutation.idOf s = Permutation.idOf t) : s = t := by
  rw [idOf_eq h hs, idOf_eq h ht] at he
  have hname := Except.ok.inj he
  have hjoin : Text.joinWith "_" (partsOf s) = Text.joinWith "_" (partsOf t) := by
    by_cases hps : partsOf s = []
    · by_cases hpt : partsOf t = []
      · rw [hps, hpt]
      · rw [hps, if_pos List.isEmpty_nil, if_neg (by simpa using hpt)] at hname
        exact absurd hname.symm (joinWith_partsOf_ne_default ht hpt)
    · by_cases hpt : partsOf t = []
      · rw [hpt, if_pos List.isEmpty_nil, if_neg (by simpa using hps)] at hname
        exact absurd hname (joinWith_partsOf_ne_default hs hps)
      · rwa [if_neg (by simpa using hps), if_neg (by simpa using hpt)] at hname
  have hchars := congrArg String.toList hjoin
  rw [toList_joinWith_partsOf hs, toList_joinWith_partsOf ht] at hchars
  refine eq_of_textsOf h hl hs ht
    (Text.texts_eq_of_joinOn ?_ ?_ (may_textsOf hs) (may_textsOf ht) hchars)
  · exact List.pairwise_map.mpr hl.fields
  · intro f hf
    obtain ⟨entry, -, rfl⟩ := List.mem_map.mp hf
    show (entry.1 ++ "-").toList ≠ []
    rw [String.toList_append]
    exact List.append_ne_nil_of_right_ne_nil _ (List.cons_ne_nil _ _)

/-- What a choice writes comes from its options, the plus signs apart. -/
theorem exists_option_of_mem {modifier : Modifier} {v : Value} {text : String} {c : Char}
    (hv : modifier.Offers v) (htext : choiceText? v = some text) (hc : c ∈ text.toList)
    (hplus : c ≠ '+') : ∃ option ∈ modifier.options, c ∈ option.toList := by
  cases modifier with
  | oneOf options values default =>
    obtain ⟨option, hoption, rfl⟩ := hv
    by_cases hne : option = ""
    · rw [hne] at htext
      cases htext
    · rw [choiceText?_one hne] at htext
      exact ⟨option, hoption, Option.some.inj htext ▸ hc⟩
  | anyOf options values =>
    obtain ⟨chosen, hchosen, rfl⟩ := hv
    by_cases hne : chosen = []
    · rw [hne] at htext
      cases htext
    · rw [choiceText?_many hne] at htext
      rw [← Option.some.inj htext] at hc
      rcases Text.mem_joinWith hc with hc | ⟨option, hoption, hc⟩
      · exact absurd (List.mem_singleton.mp hc) hplus
      · exact ⟨option, hchosen.subset hoption, hc⟩

/-- Names can be read if they hold no hyphen, and options neither an underscore nor a plus sign. -/
theorem Proper.legible_of_plain (h : m.Proper)
    (hnames : ∀ entry ∈ m.modifiers, '-' ∉ entry.1.toList)
    (hoptions : ∀ entry ∈ m.modifiers, ∀ option ∈ entry.2.options,
      '_' ∉ option.toList ∧ '+' ∉ option.toList) : m.Legible where
  options entry hentry options values he a ha b hb hcontinues := by
    have hb : b ∈ entry.2.options := by rw [he]; exact hb
    exact (hoptions entry hentry b hb).2
      (hcontinues.subset (List.mem_append_right _ List.mem_cons_self))
  fields := by
    have hne : m.modifiers.Pairwise fun e f => e.1 ≠ f.1 := List.pairwise_map.mp h.keys
    refine (List.Pairwise.and_mem.mp hne).imp ?_
    rintro e f ⟨he, hf, hne⟩
    refine ⟨fun a b hmay => ?_, fun _ hoverlap => ?_⟩
    · obtain ⟨v, hoffers, htext⟩ := hmay
      obtain ⟨text, htext, hchars⟩ := Option.map_eq_some_iff.mp htext
      have hmem : '_' ∈ text.toList := by
        rw [hchars]
        exact List.mem_append_right _ List.mem_cons_self
      obtain ⟨option, hoption, hmem⟩ := exists_option_of_mem hoffers htext hmem (by decide)
      exact absurd hmem (hoptions e he option hoption).1
    · have hmark : ∀ entry : String × Modifier,
          (nameField entry).mark = entry.1.toList ++ ['-'] := fun entry => String.toList_append
      rw [hmark, hmark] at hoverlap
      rcases hoverlap with hfront | hfront
      · have hsame := Text.eq_of_marked_prefix (hnames e he) (hnames f hf) hfront
        exact hne (String.toList_inj.mp hsame)
      · have hsame := Text.eq_of_marked_prefix (hnames f hf) (hnames e he) hfront
        exact hne (String.toList_inj.mp hsame.symm)

/-! ### Names of files -/

/-- What the names of the files of an entry go on with: the options of each combination. -/
def tails (m : Manifest) (spec : GenerateSpec) : List String :=
  (choices ((m.fanned spec).map fun name =>
    ((m.modifiers.get? name).map Modifier.options).getD [])).map fun combination =>
      Text.joinWith "-" ("" :: combination) ++ ".json"

section

variable {spec : GenerateSpec}

theorem outputs_eq (hnodup : (m.fanned spec).Nodup) :
    (m.fanOut spec).map Prod.snd = (m.tails spec).map (spec.base ++ ·) := by
  rw [fanOut_eq, tails, List.map_map, List.map_map]
  refine List.map_congr_left fun combination hmem => ?_
  show spec.outputName _ = _
  rw [GenerateSpec.outputName_zip hnodup (mem_combinations_iff.mp hmem).length_eq,
    Text.joinWith_cons, String.append_assoc]
  rfl

theorem exists_option_of_mem_tails {tail : String} {c : Char} (htail : tail ∈ m.tails spec)
    (hc : c ∈ tail.toList) :
    c ∈ "-.json".toList ∨ ∃ entry ∈ m.modifiers, ∃ option ∈ entry.2.options, c ∈ option.toList := by
  obtain ⟨combination, hmem, rfl⟩ := List.mem_map.mp htail
  rw [String.toList_append, List.mem_append] at hc
  rcases hc with hc | hc
  · rcases Text.mem_joinWith hc with hc | ⟨option, hoption, hc⟩
    · exact Or.inl (List.mem_cons.mpr (Or.inl (List.mem_singleton.mp hc)))
    · rcases List.mem_cons.mp hoption with rfl | hoption
      · cases hc
      · obtain ⟨name, -, options, values, default, hmodifier, hin⟩ :=
          Value.exists_mem_of_forall₂ (mem_combinations_iff.mp hmem) hoption
        exact Or.inr ⟨_, Table.mem_of_get? hmodifier, option, hin, hc⟩
  · exact Or.inl (List.mem_cons_of_mem _ hc)

theorem tails_nodup (h : m.Proper)
    (hclear : ∀ name ∈ (m.fanned spec).dropLast, ∀ a b, m.IsOption name a → m.IsOption name b →
      ¬ Text.Continues '-' a.toList b.toList) : (m.tails spec).Nodup := by
  refine (combinations_nodup h.options).map_on fun first hfirst second hsecond he => ?_
  have hfirst := mem_combinations_iff.mp hfirst
  have hsecond := mem_combinations_iff.mp hsecond
  have hseparator : "-".toList = ['-'] := rfl
  have hchars := congrArg String.toList he
  rw [String.toList_append, String.toList_append, Text.toList_joinWith hseparator,
    Text.toList_joinWith hseparator] at hchars
  have hjoined : Text.joinOn '-' (first.map String.toList) =
      Text.joinOn '-' (second.map String.toList) := by
    refine Text.joinOn_cons_cancel ?_ (List.append_cancel_right hchars)
    rw [List.length_map, List.length_map, ← hfirst.length_eq, hsecond.length_eq]
  -- In each place there is an option of the modifier that is fanned out there.
  have hplaces : ∀ {combination}, List.Forall₂ m.IsOption (m.fanned spec) combination →
      List.Forall₂ (fun may part => may part) ((m.fanned spec).map fun name part =>
        ∃ option, m.IsOption name option ∧ option.toList = part)
          (combination.map String.toList) := by
    intro combination hall
    rw [List.forall₂_map_left_iff, List.forall₂_map_right_iff]
    exact hall.imp fun name option hoption => ⟨option, hoption, rfl⟩
  refine Text.map_toList_injective
    (Text.joinOn_inj_of_places (hplaces hfirst) (hplaces hsecond) ?_ hjoined)
  intro may hmay a b ha hb
  rw [← List.map_dropLast] at hmay
  obtain ⟨name, hname, rfl⟩ := List.mem_map.mp hmay
  obtain ⟨option, hoption, rfl⟩ := ha
  obtain ⟨other, hother, rfl⟩ := hb
  exact hclear name hname option other hoption hother

end

end Manifest

end DesignTokens
