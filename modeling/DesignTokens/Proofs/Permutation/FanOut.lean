import DesignTokens.Proofs.Permutation.Choices
import DesignTokens.Proofs.Table

/-!
# What an entry is fanned out into

There is one entry for every combination of options of the modifiers that an entry is fanned out
over (`fanOut_eq`), and its file is named for that combination (`outputName_eq`).  What it selects
is another matter: `selectionOf` reads the rules once more, and the last rule that asks for an
option of a modifier has its way (`get?_selectionOf`).  So names and contents agree, and no
combination comes twice, as long as an entry does not mention a modifier again that it is fanned out
over (`fanOut_combinations`). -/

namespace DesignTokens

namespace GenerateSpec

def rules (spec : GenerateSpec) : List String := spec.includeModifiers.getD []

/-- What the names of the files of an entry begin with. -/
def base (spec : GenerateSpec) : String :=
  withoutEnding ((Context.given spec.output).getD defaultOutput)

/-- Whether a rule asks for an option of a modifier. -/
def pins (rule name : String) : Bool := ruleName rule = name && name ≠ "" && ruleOption rule ≠ ""

/-- Whether an entry says which option of a modifier it wants. -/
def Pinned (spec : GenerateSpec) (name : String) : Prop :=
  (∃ option, spec.selections.get? name = some (.one option)) ∨
    ∃ rule ∈ spec.rules, pins rule name = true

/-- The rules that include a modifier, without an option or with one. -/
def mentions (spec : GenerateSpec) (name : String) : List String :=
  spec.rules.filter fun rule => rule = name || pins rule name

variable {rule name : String}

/-! ### Rules -/

theorem cut_of_not_mem (h : ':' ∉ rule.toList) :
    Text.cut ':' rule.toList = (rule.toList, none) := by
  unfold Text.cut
  rw [Text.splitOn_of_not_mem ':' h]

theorem ruleOption_of_not_mem (h : ':' ∉ rule.toList) : ruleOption rule = "" := by
  rw [ruleOption, cut_of_not_mem h]
  rfl

theorem pins_eq_false_of_not_mem (h : ':' ∉ rule.toList) : pins rule name = false := by
  unfold pins
  rw [ruleOption_of_not_mem h]
  exact Bool.and_false _

theorem outputName_eq (spec : GenerateSpec) (combination : Table String String) :
    spec.outputName combination =
      Text.joinWith "-" (spec.base :: combination.values) ++ ".json" := by
  cases combination with
  | nil => rfl
  | cons p combination => rfl

theorem outputName_zip {spec : GenerateSpec} {names combination : List String}
    (hnodup : names.Nodup) (hlength : names.length = combination.length) :
    spec.outputName (Table.ofPairs (names.zip combination)) =
      Text.joinWith "-" (spec.base :: combination) ++ ".json" := by
  have hkeys : Table.keys (names.zip combination) = names := List.map_fst_zip hlength.le
  have hvalues : Table.values (names.zip combination) = combination := List.map_snd_zip hlength.ge
  rw [Table.ofPairs_eq_self (hkeys.symm ▸ hnodup), outputName_eq, hvalues]

/-- The entry of a combination chooses its options and else what it chose before. -/
theorem get?_selections_choosing (spec : GenerateSpec) {combination : Table String String}
    (h : combination.keys.Nodup) (name : String) :
    (spec.choosing combination).selections.get? name =
      ((combination.get? name).map .one).or (spec.selections.get? name) := by
  have hget : Table.get? (combination.map fun p => (p.1, Choice.one p.2)) name =
      (combination.get? name).map .one := by
    clear h
    induction combination with
    | nil => rfl
    | cons p combination ih =>
      obtain ⟨key, option⟩ := p
      rw [List.map_cons, Table.get?, Table.get?, ih]
      split
      · rfl
      · rfl
  have hkeys : Table.keys (combination.map fun p => (p.1, Choice.one p.2)) = combination.keys := by
    unfold Table.keys
    rw [List.map_map]
    rfl
  rw [← hget, ← Table.get?_foldl_put (hkeys ▸ h), List.foldl_map]
  rfl

end GenerateSpec

namespace Manifest

open GenerateSpec

variable {m : Manifest} {spec : GenerateSpec} {name : String}

/-! ### What an entry selects -/

/-- **What an entry selects**: the last rule that asks for an option of a modifier has its way, and
what the entry chooses for it only counts without such a rule. -/
theorem get?_selectionOf (m : Manifest) (spec : GenerateSpec) (name : String) :
    Table.get? (m.selectionOf spec) name =
      (((spec.rules.filter (pins · name)).getLast?.map fun rule => Value.text (ruleOption rule)).or
        ((spec.selections.get? name).bind fun choice =>
          (m.modifiers.get? name).map fun modifier => (chosen modifier choice).toValue)) := by
  rw [← Table.get?_filterMap_keys m.modifiers.get? fun modifier choice =>
    (chosen modifier choice).toValue]
  show Table.get? (spec.rules.foldl _ _) name = _
  -- The induction is on the rules from the end, as the last one counts.
  induction spec.rules using List.reverseRecOn with
  | nil => rfl
  | append_singleton rules rule ih =>
    rw [List.foldl_append, List.foldl_cons, List.foldl_nil, List.filter_append]
    dsimp only
    by_cases hpins : pins rule name = true
    · have hwanted : (ruleName rule = name ∧ name ≠ "") ∧ ruleOption rule ≠ "" := by
        simpa [pins] using hpins
      obtain ⟨⟨rfl, hname⟩, hoption⟩ := hwanted
      have hlast : [rule].filter (pins · (ruleName rule)) = [rule] :=
        List.filter_cons_of_pos hpins
      rw [if_neg (not_or.mpr ⟨hname, hoption⟩), Table.get?_put_self, hlast, List.getLast?_concat]
      rfl
    · have hlast : [rule].filter (pins · name) = [] := List.filter_cons_of_neg hpins
      rw [hlast, List.append_nil, ← ih]
      split
      · rfl
      · rename_i hwanted
        obtain ⟨hname, hoption⟩ := not_or.mp hwanted
        refine Table.get?_put_of_ne _ _ fun he => hpins ?_
        simp [pins, he, hname, hoption]

theorem get?_selectionOf_of_not_pins (h : ∀ rule ∈ spec.rules, pins rule name = false) :
    Table.get? (m.selectionOf spec) name = (spec.selections.get? name).bind fun choice =>
      (m.modifiers.get? name).map fun modifier => (chosen modifier choice).toValue := by
  have hnone : spec.rules.filter (pins · name) = [] :=
    List.filter_eq_nil_iff.mpr fun rule hrule => by rw [h rule hrule]; decide
  rw [get?_selectionOf, hnone]
  rfl

/-! ### What an entry is fanned out over -/

/-- Whether a text is an option of a modifier that takes one option. -/
def IsOption (m : Manifest) (name option : String) : Prop :=
  ∃ options values default,
    m.modifiers.get? name = some (.oneOf options values default) ∧ option ∈ options

theorem mem_fanned_iff :
    name ∈ m.fanned spec ↔
      name ∈ spec.rules ∧ ':' ∉ name.toList ∧
        (∀ option, spec.selections.get? name ≠ some (.one option)) ∧
          ∃ options values default,
            m.modifiers.get? name = some (.oneOf options values default) := by
  unfold fanned fansOut rules
  rw [List.mem_filter, Bool.and_eq_true, Bool.and_eq_true]
  refine and_congr_right fun _ => ?_
  rw [and_assoc]
  refine and_congr (by simp) (and_congr ?_ ?_)
  · split
    · rename_i option hoption
      exact ⟨fun h => (by cases h), fun h => absurd hoption (h option)⟩
    · rename_i hother
      exact ⟨fun _ option hoption => hother option hoption, fun _ => rfl⟩
  · split
    · rename_i options values default hmodifier
      exact ⟨fun _ => ⟨options, values, default, hmodifier⟩, fun _ => rfl⟩
    · rename_i hother
      refine ⟨fun h => (by cases h), ?_⟩
      rintro ⟨options, values, default, hmodifier⟩
      exact absurd hmodifier (hother options values default)

theorem fanOut_eq (m : Manifest) (spec : GenerateSpec) :
    m.fanOut spec = (choices ((m.fanned spec).map fun name =>
      ((m.modifiers.get? name).map Modifier.options).getD [])).map fun combination =>
        (spec.choosing (Table.ofPairs ((m.fanned spec).zip combination)),
          spec.outputName (Table.ofPairs ((m.fanned spec).zip combination))) := by
  unfold fanOut
  split
  · rename_i hnone
    rw [hnone]
    rfl
  · rfl

/-- The combinations take an option of each modifier. -/
theorem mem_combinations_iff {combination : List String} :
    combination ∈ choices ((m.fanned spec).map fun name =>
        ((m.modifiers.get? name).map Modifier.options).getD []) ↔
      List.Forall₂ m.IsOption (m.fanned spec) combination := by
  have hoption : ∀ name ∈ m.fanned spec, ∀ option,
      option ∈ ((m.modifiers.get? name).map Modifier.options).getD [] ↔ m.IsOption name option := by
    intro name hname option
    obtain ⟨-, -, -, options, values, default, hmodifier⟩ := mem_fanned_iff.mp hname
    unfold IsOption
    rw [hmodifier]
    constructor
    · exact fun h => ⟨options, values, default, rfl, h⟩
    · rintro ⟨others, _, _, he, h⟩
      obtain ⟨rfl, -, -⟩ := Modifier.oneOf.inj (Option.some.inj he)
      exact h
  rw [mem_choices_iff, List.forall₂_map_left_iff]
  generalize m.fanned spec = names at hoption
  induction names generalizing combination with
  | nil => rw [List.forall₂_nil_left_iff, List.forall₂_nil_left_iff]
  | cons name names ih =>
    obtain ⟨hname, hnames⟩ := List.forall_mem_cons.mp hoption
    cases combination with
    | nil => exact iff_of_false nofun nofun
    | cons option combination =>
      rw [List.forall₂_cons, List.forall₂_cons]
      exact and_congr (hname option) (ih hnames)

theorem combinations_nodup (hoptions : ∀ entry ∈ m.modifiers, entry.2.options.Nodup) :
    (choices ((m.fanned spec).map fun name =>
      ((m.modifiers.get? name).map Modifier.options).getD [])).Nodup := by
  refine choices_nodup fun options hmem => ?_
  obtain ⟨name, -, rfl⟩ := List.mem_map.mp hmem
  cases hmodifier : m.modifiers.get? name with
  | none => exact List.nodup_nil
  | some modifier => exact hoptions _ (Table.mem_of_get? hmodifier)

/-! ### Names and contents -/

/-- What an entry and a file are for a combination: the file is named for the options, and the entry
selects them, and for every other modifier what the entry before it selects. -/
structure FansOutTo (m : Manifest) (spec : GenerateSpec) (combination : List String)
    (made : GenerateSpec × String) : Prop where
  output : made.2 = Text.joinWith "-" (spec.base :: combination) ++ ".json"
  options : List.Forall₂ (fun name option =>
    Table.get? (m.selectionOf made.1) name = some (.text option)) (m.fanned spec) combination
  others : ∀ name ∉ m.fanned spec,
    Table.get? (m.selectionOf made.1) name = Table.get? (m.selectionOf spec) name
  filters : made.1 = { spec with selections := made.1.selections }

section

variable (hclear : ∀ name ∈ m.fanned spec, spec.mentions name = [name])

include hclear

theorem fanned_nodup : (m.fanned spec).Nodup := by
  refine List.nodup_iff_count_le_one.mpr fun name => ?_
  by_cases hname : name ∈ m.fanned spec
  · have hrules : (m.fanned spec).count name ≤ spec.rules.count name :=
      List.filter_sublist.count_le name
    have hmentions : spec.rules.count name = (spec.mentions name).count name :=
      (List.count_filter (by simp)).symm
    rw [hclear name hname, List.count_singleton_self] at hmentions
    exact hmentions ▸ hrules
  · rw [List.count_eq_zero_of_not_mem hname]
    exact Nat.zero_le 1

theorem not_pins_of_mem_fanned (hname : name ∈ m.fanned spec) :
    ∀ rule ∈ spec.rules, pins rule name = false := by
  intro rule hrule
  cases hpins : pins rule name with
  | false => rfl
  | true =>
    have hmem : rule ∈ spec.mentions name := List.mem_filter.mpr ⟨hrule, by simp [hpins]⟩
    rw [hclear name hname, List.mem_singleton] at hmem
    obtain ⟨-, hcolon, -⟩ := mem_fanned_iff.mp hname
    rw [hmem, pins_eq_false_of_not_mem hcolon] at hpins
    cases hpins

theorem fansOutTo_of_options {combination : List String}
    (h : List.Forall₂ m.IsOption (m.fanned spec) combination) :
    m.FansOutTo spec combination
      (spec.choosing (Table.ofPairs ((m.fanned spec).zip combination)),
        spec.outputName (Table.ofPairs ((m.fanned spec).zip combination))) := by
  have hnodup := fanned_nodup hclear
  have hkeys : Table.keys ((m.fanned spec).zip combination) = m.fanned spec :=
    List.map_fst_zip h.length_eq.le
  refine ⟨outputName_zip hnodup h.length_eq, ?_, ?_, rfl⟩
  all_goals rw [Table.ofPairs_eq_self (hkeys.symm ▸ hnodup)]
  · refine List.forall₂_iff_zip.mpr ⟨h.length_eq, fun {name option} hmem => ?_⟩
    obtain ⟨options, values, default, hmodifier, -⟩ := (List.forall₂_iff_zip.mp h).2 hmem
    have hpins : ∀ rule ∈ spec.rules, pins rule name = false :=
      not_pins_of_mem_fanned hclear (List.of_mem_zip hmem).1
    have hsame : (spec.choosing ((m.fanned spec).zip combination)).rules = spec.rules := rfl
    refine (get?_selectionOf_of_not_pins (hsame.symm ▸ hpins)).trans ?_
    rw [get?_selections_choosing spec (hkeys.symm ▸ hnodup),
      Table.get?_of_mem (hkeys.symm ▸ hnodup) hmem, hmodifier]
    rfl
  · intro name hname
    have hnone : Table.get? ((m.fanned spec).zip combination) name = none :=
      Table.get?_eq_none_iff.mpr (hkeys.symm ▸ hname)
    rw [get?_selectionOf, get?_selectionOf, get?_selections_choosing spec (hkeys.symm ▸ hnodup),
      hnone]
    rfl

/-- **What an entry is fanned out into**: one entry for each combination of options, which selects
just these options and has its file named for them.  A modifier of which the entry says what it
wants is left alone.  All of this as long as the entry mentions a modifier only once that it is
fanned out over. -/
theorem fanOut_combinations (hoptions : ∀ entry ∈ m.modifiers, entry.2.options.Nodup) :
    (∀ name, spec.Pinned name → name ∉ m.fanned spec) ∧
      ∃ combinations : List (List String), combinations.Nodup ∧
        (∀ combination, combination ∈ combinations ↔
          List.Forall₂ m.IsOption (m.fanned spec) combination) ∧
        List.Forall₂ (m.FansOutTo spec) combinations (m.fanOut spec) := by
  refine ⟨?_, _, combinations_nodup hoptions, fun combination => mem_combinations_iff, ?_⟩
  · rintro name (⟨option, hoption⟩ | ⟨rule, hrule, hpins⟩) hname
    · exact (mem_fanned_iff.mp hname).2.2.1 option hoption
    · exact Bool.false_ne_true ((not_pins_of_mem_fanned hclear hname rule hrule).symm.trans hpins)
  · rw [fanOut_eq, List.forall₂_map_right_iff, List.forall₂_same]
    exact fun combination hmem => fansOutTo_of_options hclear (mem_combinations_iff.mp hmem)

end

/-- A manifest with a mode and some features. -/
def lightAndDark : Manifest :=
  { (default : Manifest) with
    modifiers := [("mode", .oneOf ["light", "dark"] [] none), ("features", .anyOf ["a", "b"] []),
      ("size", .oneOf ["s", "m"] [] none)] }

def eachMode : GenerateSpec :=
  { GenerateSpec.empty with
    selections := [("features", .many ["a"])], output := some "dist/tokens.json"
    includeModifiers := some ["mode", "features", "size:m"] }

theorem fanOut_combinations_eachMode :
    (∀ name ∈ lightAndDark.fanned eachMode, eachMode.mentions name = [name]) ∧
      (∀ entry ∈ lightAndDark.modifiers, entry.2.options.Nodup) ∧
      eachMode.Pinned "size" ∧ "size" ∉ lightAndDark.fanned eachMode ∧
      ∃ combinations : List (List String), ["dark"] ∈ combinations ∧
        List.Forall₂ (lightAndDark.FansOutTo eachMode) combinations
          (lightAndDark.fanOut eachMode) := by
  have hclear : ∀ name ∈ lightAndDark.fanned eachMode, eachMode.mentions name = [name] := by decide
  have hoptions : ∀ entry ∈ lightAndDark.modifiers, entry.2.options.Nodup := by
    simp [lightAndDark, Modifier.options]
  have hpinned : eachMode.Pinned "size" := Or.inr ⟨"size:m", by decide, by decide⟩
  obtain ⟨halone, combinations, -, hmem, hmade⟩ := fanOut_combinations hclear hoptions
  refine ⟨hclear, hoptions, hpinned, halone _ hpinned, combinations, (hmem _).mpr ?_, hmade⟩
  exact .cons ⟨_, _, _, rfl, by decide⟩ .nil

/-- An entry that asks for every mode and for the dark one. -/
def darkAndEachMode : GenerateSpec :=
  { GenerateSpec.empty with includeModifiers := some ["mode", "mode:dark"] }

/-- An entry that asks for every mode twice. -/
def twiceEachMode : GenerateSpec :=
  { GenerateSpec.empty with includeModifiers := some ["mode", "mode"] }

/-- **A modifier that is mentioned again is fanned out all the same.**  If an option of it is asked
for, a file named for another option holds that one; else every combination comes several times. -/
theorem not_fanOut_combinations :
    (darkAndEachMode.Pinned "mode" ∧ "mode" ∈ lightAndDark.fanned darkAndEachMode ∧
      (lightAndDark.fanOut darkAndEachMode).map (fun made =>
        (made.2, lightAndDark.selectionOf made.1)) =
          [("output-light.json", [("mode", .text "dark")]),
            ("output-dark.json", [("mode", .text "dark")])]) ∧
      (lightAndDark.fanOut twiceEachMode).map (fun made =>
        (made.2, lightAndDark.selectionOf made.1)) =
          [("output-light.json", [("mode", .text "light")]),
            ("output-dark.json", [("mode", .text "dark")]),
            ("output-light.json", [("mode", .text "light")]),
            ("output-dark.json", [("mode", .text "dark")])] := by
  refine ⟨⟨Or.inr ⟨"mode:dark", by decide, by decide⟩, by decide, rfl⟩, rfl⟩

end Manifest

end DesignTokens
