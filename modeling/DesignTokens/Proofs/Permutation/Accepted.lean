import DesignTokens.Proofs.Manifest.Choices
import DesignTokens.Proofs.Permutation.FanOut

/-!
# Whether the selection of an entry is accepted

An entry fits a manifest if what it chooses fits the modifiers and if its rules ask for declared
options only (`GenerateSpec.Fits`).  Its selection is accepted then, but for one thing: a rule asks
for an option by its bare name, also of a modifier that takes a list of options.  So all that can be
rejected are the options asked for of such modifiers (`validate_selectionOf`).
-/

namespace DesignTokens

/-- Whether what an entry chooses fits a modifier. -/
def Modifier.Fits : Modifier → Choice → Prop
  | .oneOf options _ _, .one option => option ∈ options
  | .oneOf _ _ _, .many _ => False
  | .anyOf _ _, .one option => option = wildcard
  | .anyOf options _, .many chosen => ∀ option ∈ chosen, option ∈ options

/-- What fits a modifier is accepted of it once the wildcard has been replaced. -/
theorem Modifier.Fits.accepts {modifier : Modifier} {choice : Choice} (h : modifier.Fits choice) :
    modifier.Accepts (Manifest.chosen modifier choice).toValue := by
  cases modifier with
  | oneOf options values default =>
    cases choice with
    | one option => exact ⟨option, h, rfl⟩
    | many chosen => exact h.elim
  | anyOf options values =>
    cases choice with
    | one option =>
      have hall : Manifest.chosen (.anyOf options values) (.one option) = .many options := if_pos h
      rw [hall]
      exact ⟨options, fun _ hoption => hoption, rfl⟩
    | many chosen => exact ⟨chosen, h, rfl⟩

namespace GenerateSpec

variable {spec : GenerateSpec} {name option : String}

theorem ruleName_of_pins {rule : String} (h : pins rule name = true) : ruleName rule = name := by
  simp_all [pins]

/-- The option of a modifier that the rules of an entry ask for: the last one counts. -/
def asked? (spec : GenerateSpec) (name : String) : Option String :=
  (spec.rules.filter (pins · name)).getLast?.map ruleOption

theorem asked?_eq_none_iff :
    spec.asked? name = none ↔ ∀ rule ∈ spec.rules, pins rule name = false := by
  unfold asked?
  rw [Option.map_eq_none_iff, List.getLast?_eq_none_iff, List.filter_eq_nil_iff]
  simp

theorem exists_rule_of_asked? (h : spec.asked? name = some option) :
    ∃ rule ∈ spec.rules, pins rule name = true ∧ ruleOption rule = option := by
  obtain ⟨rule, hlast, hoption⟩ := Option.map_eq_some_iff.mp h
  obtain ⟨hrule, hpins⟩ := List.mem_filter.mp (List.mem_of_getLast? hlast)
  exact ⟨rule, hrule, hpins, hoption⟩

/-- Whether an entry fits a manifest: what it chooses fits the modifiers, and a rule that asks for
an option names a declared modifier and an option of it. -/
structure Fits (spec : GenerateSpec) (m : Manifest) : Prop where
  selections : ∀ name choice modifier, spec.selections.get? name = some choice →
    m.modifiers.get? name = some modifier → modifier.Fits choice
  rules : ∀ rule ∈ spec.rules, ∀ name, pins rule name = true →
    ∃ modifier, m.modifiers.get? name = some modifier ∧ ruleOption rule ∈ modifier.options

/-- What is rejected about a modifier: an option that is asked for by its bare name where a list of
options is wanted. -/
def misplaced (spec : GenerateSpec) (entry : String × Modifier) : List RejectedChoice :=
  match entry.2, spec.asked? entry.1 with
  | .anyOf options _, some option => [⟨entry.1, .notList, .text option, .listFrom options⟩]
  | _, _ => []

theorem misplaced_eq_nil_iff {entry : String × Modifier} :
    spec.misplaced entry = [] ↔ spec.asked? entry.1 = none ∨
      ∃ options values default, entry.2 = .oneOf options values default := by
  obtain ⟨name, modifier⟩ := entry
  unfold misplaced
  cases modifier with
  | oneOf options values default => simp
  | anyOf options values => cases spec.asked? name <;> simp

end GenerateSpec

namespace Manifest

open GenerateSpec

variable {m : Manifest} {spec : GenerateSpec} {name option : String} {modifier : Modifier}

/-- An entry selects what its rules ask for, and else what it chooses. -/
theorem choice?_selectionOf (m : Manifest) (spec : GenerateSpec) (name : String) :
    Selection.choice? (m.selectionOf spec) name =
      ((spec.asked? name).map .text).or ((spec.selections.get? name).bind fun choice =>
        (m.modifiers.get? name).map fun modifier => (chosen modifier choice).toValue) := by
  have hget := get?_selectionOf m spec name
  unfold asked?
  rw [Option.map_map]
  unfold Selection.choice?
  rw [hget]
  -- Neither an option that is asked for nor a choice is null.
  cases (spec.rules.filter (pins · name)).getLast? with
  | some rule => rfl
  | none =>
    cases spec.selections.get? name with
    | none => rfl
    | some choice =>
      cases m.modifiers.get? name with
      | none => rfl
      | some modifier => cases hchosen : chosen modifier choice <;> simp [hchosen, Choice.toValue]

/-- An entry that fits selects nothing but modifiers. -/
theorem mem_keys_of_mem_selectionOf (h : spec.Fits m) {entry : String × Value}
    (hentry : entry ∈ m.selectionOf spec) : entry.1 ∈ m.modifiers.keys := by
  have hkey : entry.1 ∈ (m.selectionOf spec).keys := List.mem_map_of_mem hentry
  by_contra hunknown
  have hnone : m.modifiers.get? entry.1 = none := Table.get?_eq_none_iff.mpr hunknown
  have hasked : spec.asked? entry.1 = none := by
    refine asked?_eq_none_iff.mpr fun rule hrule => ?_
    by_contra hpins
    obtain ⟨modifier, hmodifier, -⟩ := h.rules rule hrule entry.1 (by simpa using hpins)
    rw [hnone] at hmodifier
    cases hmodifier
  have hget : Table.get? (m.selectionOf spec) entry.1 = none := by
    rw [get?_selectionOf_of_not_pins (asked?_eq_none_iff.mp hasked), hnone]
    exact Option.bind_fun_none _
  exact Table.get?_eq_none_iff.mp hget hkey

/-- An option that is asked for is accepted, unless the modifier takes a list. -/
theorem rejectedChoices_asked (h : spec.Fits m) (hmodifier : m.modifiers.get? name = some modifier)
    (hasked : spec.asked? name = some option) :
    rejectedChoices name modifier (.text option) = spec.misplaced (name, modifier) := by
  obtain ⟨rule, hrule, hpins, rfl⟩ := exists_rule_of_asked? hasked
  obtain ⟨other, hother, hoption⟩ := h.rules rule hrule name hpins
  obtain rfl : modifier = other := Option.some.inj (hmodifier.symm.trans hother)
  unfold misplaced
  rw [hasked]
  cases modifier with
  | oneOf options values default =>
    have hdeclared : ruleOption rule ∈ options := hoption
    exact if_pos (List.contains_iff_mem.mpr hdeclared)
  | anyOf options values => rfl

theorem rejectedChoices_chosen (h : spec.Fits m) (hmodifier : m.modifiers.get? name = some modifier)
    {choice : Choice} (hchoice : spec.selections.get? name = some choice) :
    rejectedChoices name modifier (chosen modifier choice).toValue = [] :=
  rejectedChoices_eq_nil_iff.mpr (h.selections name choice modifier hchoice hmodifier).accepts

/-- What is rejected of the choice for a modifier. -/
theorem rejected_of_get? (h : spec.Fits m) (hmodifier : m.modifiers.get? name = some modifier) :
    (match Selection.choice? (m.selectionOf spec) name with
      | some v => rejectedChoices name modifier v
      | none => []) = spec.misplaced (name, modifier) := by
  rw [choice?_selectionOf, hmodifier]
  cases hasked : spec.asked? name with
  | some option => exact rejectedChoices_asked h hmodifier hasked
  | none =>
    have hnone : spec.misplaced (name, modifier) = [] := misplaced_eq_nil_iff.mpr (.inl hasked)
    rw [hnone]
    cases hchoice : spec.selections.get? name with
    | none => rfl
    | some choice => exact rejectedChoices_chosen h hmodifier hchoice

theorem validate_eq_misplaced (hkeys : m.modifiers.keys.Nodup) (h : spec.Fits m) :
    m.validate (m.selectionOf spec) = m.modifiers.flatMap spec.misplaced := by
  have hknown : (m.selectionOf spec).filter (fun entry =>
      entry.1 ≠ outputKey && !m.modifiers.has entry.1) = [] := by
    refine List.filter_eq_nil_iff.mpr fun entry hentry => ?_
    have hmem := mem_keys_of_mem_selectionOf h hentry
    simp [(Table.has_iff_mem_keys m.modifiers entry.1).mpr hmem]
  unfold validate
  rw [hknown, List.map_nil, List.append_nil]
  refine List.flatMap_congr fun entry hentry => ?_
  exact rejected_of_get? h (Table.get?_of_mem hkeys hentry)

/-- Nothing is misplaced if the rules ask for options of modifiers alone that take a single one. -/
theorem misplaced_eq_nil_iff_single (hkeys : m.modifiers.keys.Nodup) (h : spec.Fits m) :
    m.modifiers.flatMap spec.misplaced = [] ↔
      ∀ rule ∈ spec.rules, ∀ name, pins rule name = true →
        ∃ options values default,
          m.modifiers.get? name = some (.oneOf options values default) := by
  rw [List.flatMap_eq_nil_iff]
  constructor
  · intro hnone rule hrule name hpins
    obtain ⟨modifier, hmodifier, -⟩ := h.rules rule hrule name hpins
    rcases misplaced_eq_nil_iff.mp (hnone _ (Table.mem_of_get? hmodifier)) with hasked | hone
    · exact absurd (asked?_eq_none_iff.mp hasked rule hrule) (by simp [hpins])
    · obtain ⟨options, values, default, rfl⟩ := hone
      exact ⟨options, values, default, hmodifier⟩
  · rintro hone ⟨name, modifier⟩ hentry
    refine misplaced_eq_nil_iff.mpr ?_
    cases hasked : spec.asked? name with
    | none => exact .inl rfl
    | some option =>
      obtain ⟨rule, hrule, hpins, -⟩ := exists_rule_of_asked? hasked
      obtain ⟨options, values, default, hget⟩ := hone rule hrule name hpins
      rw [Table.get?_of_mem hkeys hentry] at hget
      exact .inr ⟨options, values, default, Option.some.inj hget⟩

/-- **What is rejected of the selection of an entry that fits**: the options that its rules ask for
of modifiers that take a list, each by its bare name, and nothing else.  So the selection is
accepted exactly if the rules ask for options only of modifiers that take a single one. -/
theorem validate_selectionOf (hkeys : m.modifiers.keys.Nodup) (h : spec.Fits m) :
    m.validate (m.selectionOf spec) = m.modifiers.flatMap spec.misplaced ∧
      (m.validate (m.selectionOf spec) = [] ↔
        ∀ rule ∈ spec.rules, ∀ name, pins rule name = true →
          ∃ options values default,
            m.modifiers.get? name = some (.oneOf options values default)) := by
  have hall := validate_eq_misplaced hkeys h
  refine ⟨hall, ?_⟩
  rw [hall]
  exact misplaced_eq_nil_iff_single hkeys h

/-- An entry for the dark mode with all features. -/
def darkWithFeatures : GenerateSpec :=
  { GenerateSpec.empty with
    selections := [("features", .one wildcard), ("mode", .one "light")]
    includeModifiers := some ["mode:dark", "size:m", "features"] }

theorem fits_darkWithFeatures : darkWithFeatures.Fits lightAndDark where
  selections := by
    intro name choice modifier hchoice hmodifier
    have hentry : (name, choice) ∈ darkWithFeatures.selections := Table.mem_of_get? hchoice
    rcases List.mem_pair.mp hentry with he | he
    all_goals
      obtain ⟨rfl, rfl⟩ := Prod.mk.inj he
      obtain rfl := Option.some.inj hmodifier
    · rfl
    · exact List.mem_cons_self
  rules := by
    intro rule hrule name hpins
    obtain rfl := ruleName_of_pins hpins
    have hcases : rule = "mode:dark" ∨ rule = "size:m" ∨ rule = "features" := by
      simpa [darkWithFeatures, rules] using hrule
    rcases hcases with rfl | rfl | rfl
    · exact ⟨_, rfl, by decide⟩
    · exact ⟨_, rfl, by decide⟩
    · exact absurd hpins (by decide)

theorem validate_selectionOf_darkWithFeatures :
    lightAndDark.modifiers.keys.Nodup ∧ darkWithFeatures.Fits lightAndDark ∧
      lightAndDark.selectionOf darkWithFeatures =
        [("features", .list [.text "a", .text "b"]), ("mode", .text "dark"),
          ("size", .text "m")] ∧
      lightAndDark.validate (lightAndDark.selectionOf darkWithFeatures) = [] := by
  have hkeys : lightAndDark.modifiers.keys.Nodup := by decide
  refine ⟨hkeys, fits_darkWithFeatures, rfl, ?_⟩
  exact (validate_selectionOf hkeys fits_darkWithFeatures).1.trans (by decide)

def oneFeature : GenerateSpec :=
  { GenerateSpec.empty with includeModifiers := some ["features:a"] }

/-- **A declared option that a rule asks for may be rejected**: of a modifier that takes a list, it
is selected by its bare name. -/
theorem not_validate_selectionOf :
    oneFeature.Fits lightAndDark ∧
      lightAndDark.selectionOf oneFeature = [("features", .text "a")] ∧
      lightAndDark.validate (lightAndDark.selectionOf oneFeature) =
        [⟨"features", .notList, .text "a", .listFrom ["a", "b"]⟩] := by
  refine ⟨⟨nofun, ?_⟩, rfl, rfl⟩
  intro rule hrule name hpins
  obtain rfl := ruleName_of_pins hpins
  obtain rfl : rule = "features:a" := List.mem_singleton.mp hrule
  exact ⟨_, rfl, by decide⟩

end Manifest

end DesignTokens
