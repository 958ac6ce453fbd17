import DesignTokens.Proofs.Manifest.Choices
import DesignTokens.Proofs.Merge.Overlay
import DesignTokens.Proofs.Permutation.Choices
import DesignTokens.Proofs.Reference.Rearrangement

/-!
# All selections of a manifest

A selection assigns the modifiers if it gives each of them, and nothing else, something
that it offers: an option, or a part of the options in their order.  The order in which it
does so does not matter.  `Manifest.allSelections` has exactly one such selection of each
kind, in the order of the modifiers (`allSelections_complete`).
-/

namespace DesignTokens

namespace Modifier

/-- Whether a value is among all that can be chosen for a modifier: one option, or some of the
options in their order. -/
def Offers : Modifier → Value → Prop
  | .oneOf options _ _, v => ∃ option ∈ options, v = .text option
  | .anyOf options _, v =>
    ∃ chosen : List String, chosen.Sublist options ∧ v = .list (chosen.map .text)

variable {modifier : Modifier} {v : Value}

theorem Offers.accepts (h : modifier.Offers v) : modifier.Accepts v := by
  cases modifier with
  | oneOf options values default => exact h
  | anyOf options values =>
    obtain ⟨chosen, hchosen, rfl⟩ := h
    exact ⟨chosen, fun option hoption => hchosen.subset hoption, rfl⟩

/-- What a modifier offers is what can be chosen for it. -/
theorem offers_iff : modifier.Offers v ↔ ∃ choice ∈ modifier.allChoices, choice.toValue = v := by
  cases modifier with
  | oneOf options values default =>
    constructor
    · rintro ⟨option, hoption, rfl⟩
      exact ⟨.one option, List.mem_map_of_mem hoption, rfl⟩
    · rintro ⟨_, hchoice, rfl⟩
      obtain ⟨option, hoption, rfl⟩ := List.mem_map.mp hchoice
      exact ⟨option, hoption, rfl⟩
  | anyOf options values =>
    unfold allChoices
    dsimp only
    rw [subsets_eq_sublists]
    constructor
    · rintro ⟨chosen, hchosen, rfl⟩
      exact ⟨.many chosen, List.mem_map_of_mem (List.mem_sublists.mpr hchosen), rfl⟩
    · rintro ⟨_, hchoice, rfl⟩
      obtain ⟨chosen, hchosen, rfl⟩ := List.mem_map.mp hchoice
      exact ⟨chosen, List.mem_sublists.mp hchosen, rfl⟩

theorem allChoices_nodup (h : modifier.options.Nodup) : modifier.allChoices.Nodup := by
  cases modifier with
  | oneOf options values default => exact h.map fun _ _ he => Choice.one.inj he
  | anyOf options values =>
    unfold allChoices
    dsimp only
    rw [subsets_eq_sublists]
    exact (List.nodup_sublists.mpr h).map fun _ _ he => Choice.many.inj he

theorem length_allChoices (modifier : Modifier) :
    modifier.allChoices.length = modifier.choiceCount := by
  cases modifier with
  | oneOf options values default => exact List.length_map _
  | anyOf options values =>
    unfold allChoices choiceCount
    rw [List.length_map, subsets_eq_sublists, List.length_sublists]
    rfl

end Modifier

theorem Choice.toValue_injective : Function.Injective Choice.toValue := by
  have htext : Function.Injective Value.text := fun _ _ he => Value.text.inj he
  intro first second h
  cases first with
  | one option =>
    cases second with
    | one other => exact congrArg Choice.one (Value.text.inj h)
    | many others => cases h
  | many options =>
    cases second with
    | one other => cases h
    | many others =>
      exact congrArg Choice.many (htext.list_map (Value.list.inj h))

namespace Manifest

variable {m : Manifest} {s t : Selection}

/-- A selection gives every modifier something that it offers, and holds nothing else. -/
structure Assigns (m : Manifest) (s : Selection) : Prop where
  keys : s.keys.Perm m.modifiers.keys
  offered : ∀ name modifier v, m.modifiers.get? name = some modifier →
    Table.get? s name = some v → modifier.Offers v

/-! ### What is listed -/

/-- The listed selections give each modifier in its turn something that it offers. -/
theorem mem_allSelections_iff :
    s ∈ m.allSelections ↔
      List.Forall₂ (fun entry choice => entry.1 = choice.1 ∧ entry.2.Offers choice.2)
        m.modifiers s := by
  unfold allSelections Table.keys
  rw [List.mem_map]
  generalize m.modifiers = modifiers
  constructor
  · rintro ⟨combination, hcombination, rfl⟩
    have hall := mem_choices_iff.mp hcombination
    clear hcombination
    induction modifiers generalizing combination with
    | nil => exact .nil
    | cons entry modifiers ih =>
      obtain ⟨choice, rest, hchoice, hrest, rfl⟩ := List.forall₂_cons_left_iff.mp hall
      exact .cons ⟨rfl, Modifier.offers_iff.mpr ⟨choice, hchoice, rfl⟩⟩ (ih rest hrest)
  · intro h
    induction h with
    | nil => exact ⟨[], mem_choices_iff.mpr .nil, rfl⟩
    | @cons entry chosen modifiers s hhere _ ih =>
      obtain ⟨name, v⟩ := chosen
      obtain ⟨rfl, hoffers⟩ := hhere
      obtain ⟨choice, hchoice, rfl⟩ := Modifier.offers_iff.mp hoffers
      obtain ⟨combination, hcombination, rfl⟩ := ih
      exact ⟨choice :: combination,
        mem_choices_iff.mpr (.cons hchoice (mem_choices_iff.mp hcombination)), rfl⟩

theorem keys_of_mem_allSelections (h : s ∈ m.allSelections) : s.keys = m.modifiers.keys :=
  Table.keys_of_forall₂ (R := fun _ modifier v => modifier.Offers v) (mem_allSelections_iff.mp h)

theorem allSelections_nodup (h : ∀ entry ∈ m.modifiers, entry.2.options.Nodup) :
    m.allSelections.Nodup := by
  have hchoices : (choices (m.modifiers.map fun entry => entry.2.allChoices)).Nodup := by
    refine choices_nodup fun items hitems => ?_
    obtain ⟨entry, hentry, rfl⟩ := List.mem_map.mp hitems
    exact Modifier.allChoices_nodup (h entry hentry)
  refine hchoices.map_on fun first hfirst second hsecond he => ?_
  -- Both combinations have a choice for each modifier, so they are read off the values.
  have hlength : ∀ {combination}, combination ∈ choices (m.modifiers.map fun entry =>
      entry.2.allChoices) → (combination.map Choice.toValue).length = m.modifiers.keys.length := by
    intro combination hcombination
    have hall := (mem_choices_iff.mp hcombination).length_eq
    rw [List.length_map] at hall
    rw [List.length_map, ← hall, Table.keys, List.length_map]
  have hvalues := congrArg (List.map Prod.snd) he
  rw [List.map_snd_zip (hlength hfirst).le, List.map_snd_zip (hlength hsecond).le] at hvalues
  exact Choice.toValue_injective.list_map hvalues

theorem length_allSelections (m : Manifest) : m.allSelections.length = m.selectionCount := by
  unfold allSelections selectionCount
  rw [List.length_map, length_choices, List.map_map, List.prod_eq_foldl]
  refine congrArg (List.foldl (· * ·) 1) (List.map_congr_left fun entry _ => ?_)
  exact Modifier.length_allChoices entry.2

/-! ### Assignments -/

theorem assigns_of_mem (h : s ∈ m.allSelections) : m.Assigns s where
  keys := by rw [keys_of_mem_allSelections h]
  offered := fun name modifier v hmodifier hv => by
    obtain ⟨w, hoffers, hw⟩ := (Table.get?_of_forall₂ (R := fun _ modifier v => modifier.Offers v)
      (mem_allSelections_iff.mp h) name).1 modifier hmodifier
    obtain rfl := Option.some.inj (hv.symm.trans hw)
    exact hoffers

/-- The members of an assignment in the order of the modifiers. -/
def arranged (m : Manifest) (s : Selection) : Selection :=
  m.modifiers.map fun entry => (entry.1, (Table.get? s entry.1).getD .null)

namespace Assigns

variable (hkeys : m.modifiers.keys.Nodup) (h : m.Assigns s)

include hkeys h

theorem nodup : s.keys.Nodup := h.keys.nodup_iff.mpr hkeys

theorem exists_offered {entry : String × Modifier} (hentry : entry ∈ m.modifiers) :
    ∃ v, Table.get? s entry.1 = some v ∧ entry.2.Offers v := by
  have hhas : Table.has s entry.1 = true :=
    (Table.has_iff_mem_keys _ _).mpr (h.keys.mem_iff.mpr (List.mem_map_of_mem hentry))
  obtain ⟨v, hv⟩ := Option.isSome_iff_exists.mp hhas
  exact ⟨v, hv, h.offered entry.1 entry.2 v (Table.get?_of_mem hkeys hentry) hv⟩

theorem arranged_mem : m.arranged s ∈ m.allSelections := by
  rw [mem_allSelections_iff]
  unfold arranged
  rw [List.forall₂_map_right_iff, List.forall₂_same]
  intro entry hentry
  obtain ⟨v, hv, hoffers⟩ := h.exists_offered hkeys hentry
  refine ⟨rfl, ?_⟩
  dsimp only
  rwa [hv, Option.getD_some]

theorem perm_arranged : s.Perm (m.arranged s) := by
  have hnodup : (m.arranged s).keys.Nodup := by
    rw [keys_of_mem_allSelections (h.arranged_mem hkeys)]
    exact hkeys
  refine (List.perm_ext_iff_of_nodup (h.nodup hkeys).of_map hnodup.of_map).mpr fun entry => ?_
  unfold arranged
  rw [List.mem_map]
  constructor
  · intro hmem
    have hname : entry.1 ∈ m.modifiers.keys := h.keys.mem_iff.mp (List.mem_map_of_mem hmem)
    obtain ⟨found, hfound, he⟩ := List.mem_map.mp hname
    refine ⟨found, hfound, ?_⟩
    rw [he, Table.get?_of_mem (h.nodup hkeys) hmem]
    rfl
  · rintro ⟨found, hfound, rfl⟩
    obtain ⟨v, hv, -⟩ := h.exists_offered hkeys hfound
    rw [hv]
    exact Table.mem_of_get? hv

end Assigns

theorem eq_of_perm (hkeys : m.modifiers.keys.Nodup) (hs : s ∈ m.allSelections)
    (ht : t ∈ m.allSelections) (h : s.Perm t) : s = t := by
  have hsame := keys_of_mem_allSelections hs
  refine Table.ext_get? (hsame.trans (keys_of_mem_allSelections ht).symm) (hsame ▸ hkeys) ?_
  exact fun key _ => Table.get?_perm (hsame ▸ hkeys) h key

theorem validate_of_mem (hkeys : m.modifiers.keys.Nodup) (h : s ∈ m.allSelections) :
    m.validate s = [] := by
  have hassigns := assigns_of_mem h
  refine validate_eq_nil_iff.mpr ⟨fun entry hentry v hv => ?_, fun entry hentry => Or.inr ?_⟩
  · exact (hassigns.offered entry.1 entry.2 v (Table.get?_of_mem hkeys hentry)
      (get?_of_choice? hv)).accepts
  · exact hassigns.keys.mem_iff.mp (List.mem_map_of_mem hentry)

/-- **All selections of a manifest are listed, each once.**  The selections that assign the
modifiers are those that have the members of a listed one; no two listed ones have the same
members, their number is the count that is known beforehand, and each of them is accepted. -/
theorem allSelections_complete (m : Manifest) (hkeys : m.modifiers.keys.Nodup)
    (hoptions : ∀ entry ∈ m.modifiers, entry.2.options.Nodup) :
    (∀ s, m.Assigns s ↔ ∃ t ∈ m.allSelections, s.Perm t) ∧
      (m.allSelections.Pairwise fun s t => ¬ s.Perm t) ∧
        m.allSelections.length = m.selectionCount ∧
          ∀ s ∈ m.allSelections, m.validate s = [] := by
  refine ⟨fun s => ⟨fun h => ?_, ?_⟩, ?_, length_allSelections m, fun s hs => ?_⟩
  · exact ⟨_, h.arranged_mem hkeys, h.perm_arranged hkeys⟩
  · rintro ⟨t, ht, hperm⟩
    have hassigns := assigns_of_mem ht
    have hperm' : s.keys.Perm m.modifiers.keys := (hperm.map Prod.fst).trans hassigns.keys
    have hnodup : s.keys.Nodup := hperm'.nodup_iff.mpr hkeys
    refine ⟨hperm', fun name modifier v hmodifier hv => ?_⟩
    rw [Table.get?_perm hnodup hperm] at hv
    exact hassigns.offered name modifier v hmodifier hv
  · refine (List.Pairwise.and_mem.mp (allSelections_nodup hoptions)).imp ?_
    rintro s t ⟨hs, ht, hne⟩ hperm
    exact hne (eq_of_perm hkeys hs ht hperm)
  · exact validate_of_mem hkeys hs

def modes : Manifest :=
  { (default : Manifest) with
    modifiers := [("mode", .oneOf ["light", "dark"] [] none), ("features", .anyOf ["a", "b"] [])] }

theorem allSelections_complete_modes :
    modes.modifiers.keys.Nodup ∧ (∀ entry ∈ modes.modifiers, entry.2.options.Nodup) ∧
      modes.selectionCount = 8 ∧ modes.allSelections.length = 8 ∧
        ∃ t ∈ modes.allSelections, List.Perm
          [("features", .list [.text "a"]), ("mode", .text "dark")] t := by
  have hkeys : modes.modifiers.keys.Nodup := by decide
  have hoptions : ∀ entry ∈ modes.modifiers, entry.2.options.Nodup := by
    rintro _ (_ | ⟨_, _ | ⟨_, ⟨⟩⟩⟩)
    · decide
    · decide
  obtain ⟨hassigns, -, hlength, -⟩ := allSelections_complete modes hkeys hoptions
  refine ⟨hkeys, hoptions, rfl, hlength, (hassigns _).mp ⟨List.Perm.swap _ _ _, ?_⟩⟩
  intro name modifier v hmodifier hv
  have hmem : (name, modifier) ∈ modes.modifiers := Table.mem_of_get? hmodifier
  rcases hmem with _ | ⟨_, _ | ⟨_, ⟨⟩⟩⟩
  · obtain rfl : v = .text "dark" := (Option.some.inj hv).symm
    exact ⟨"dark", by decide, rfl⟩
  · obtain rfl : v = .list [.text "a"] := (Option.some.inj hv).symm
    exact ⟨["a"], by decide, rfl⟩

end Manifest

end DesignTokens
