import DesignTokens.Proofs.Manifest.Sound
import DesignTokens.Proofs.Permutation.FanOut
import DesignTokens.Proofs.Text.Joining

/-!
# The files of a selection

What a filter keeps is told from its rules alone (`keepsSet_iff`, `keepsModifier_iff`), and what a
modifier contributes from what is selected for it (`Modifier.Contributes`).  The files of an
accepted selection are those of the sets that are kept, followed by what each modifier contributes
that is kept (`files_of_validate`).

An option whose name is the empty text cannot be selected: it is taken for no choice at all
(`not_files_of_validate`).
-/

namespace DesignTokens

namespace GenerateSpec

variable {spec : GenerateSpec} {rule name : String} {set : TokenSet}

/-! ### Filters -/

/-- Whether a rule is about a modifier: it is the wildcard, the name of the modifier, or that name
with an option behind a colon. -/
def About (rule name : String) : Prop :=
  rule = wildcard ∨
    ':' ∉ name.toList ∧ (rule = name ∨ ∃ option, rule = name ++ ":" ++ option)

/-- Whether a set passes a filter.  Where there is one, the set has a name, which is not excluded
and which is included if anything is. -/
def AdmitsSet (spec : GenerateSpec) (set : TokenSet) : Prop :=
  spec.includeSets = none ∧ spec.excludeSets = none ∨
    ∃ name, set.name = some name ∧
      (∀ names, spec.excludeSets = some names → name ∉ names ∧ wildcard ∉ names) ∧
        ∀ names, spec.includeSets = some names → name ∈ names ∨ wildcard ∈ names

/-- Whether a modifier passes a filter: no rule excludes it, and a rule includes it if there are
any. -/
def AdmitsModifier (spec : GenerateSpec) (name : String) : Prop :=
  (∀ rules, spec.excludeModifiers = some rules → ∀ rule ∈ rules, ¬ About rule name) ∧
    ∀ rules, spec.includeModifiers = some rules → ∃ rule ∈ rules, About rule name

theorem ruleName_append (option : String) (h : ':' ∉ name.toList) :
    ruleName (name ++ ":" ++ option) = name := by
  have hcut : Text.cut ':' (name ++ ":" ++ option).toList = (name.toList, some option.toList) := by
    have hlist : (name ++ ":" ++ option).toList = name.toList ++ ':' :: option.toList := by simp
    rw [hlist, Text.cut_append ':' _ h]
  rw [ruleName, hcut, String.ofList_toList]

theorem ruleName_of_not_mem (h : ':' ∉ rule.toList) : ruleName rule = rule := by
  rw [ruleName, cut_of_not_mem h, String.ofList_toList]

theorem ruleName_eq_iff :
    ruleName rule = name ↔
      ':' ∉ name.toList ∧ (rule = name ∨ ∃ option, rule = name ++ ":" ++ option) := by
  constructor
  · rintro rfl
    by_cases hcolon : ':' ∈ rule.toList
    · obtain ⟨front, rest, hrule, hfront⟩ := List.eq_append_cons_of_mem hcolon
      have hname : ruleName rule = String.ofList front := by
        rw [ruleName, hrule, Text.cut_append ':' rest hfront]
      rw [hname, String.toList_ofList]
      refine ⟨hfront, .inr ⟨String.ofList rest, String.toList_inj.mp ?_⟩⟩
      rw [hrule]
      simp
    · rw [ruleName_of_not_mem hcolon]
      exact ⟨hcolon, .inl rfl⟩
  · rintro ⟨hcolon, rfl | ⟨option, rfl⟩⟩
    · exact ruleName_of_not_mem hcolon
    · exact ruleName_append option hcolon

theorem ruleMatches_iff : ruleMatches rule name = true ↔ About rule name := by
  unfold ruleMatches About
  rw [Bool.or_eq_true, decide_eq_true_iff, decide_eq_true_iff, ruleName_eq_iff]

/-- Of the sets, those are kept that pass the filter. -/
theorem keepsSet_iff : spec.keepsSet set = true ↔ spec.AdmitsSet set := by
  obtain ⟨setName, files⟩ := set
  unfold keepsSet filtersSets AdmitsSet
  cases hexclude : spec.excludeSets with
  | none =>
    cases hinclude : spec.includeSets with
    | none => simp
    | some included => cases setName <;> simp [covers]
  | some excluded =>
    cases hinclude : spec.includeSets with
    | none => cases setName <;> simp [covers]
    | some included => cases setName <;> simp [covers]

/-- Of the modifiers, those are kept that pass the filter. -/
theorem keepsModifier_iff : spec.keepsModifier name = true ↔ spec.AdmitsModifier name := by
  unfold keepsModifier AdmitsModifier
  cases hexclude : spec.excludeModifiers with
  | none => cases hinclude : spec.includeModifiers <;> simp [ruleMatches_iff]
  | some excluded => cases hinclude : spec.includeModifiers <;> simp [ruleMatches_iff]

end GenerateSpec

namespace Modifier

variable {m : Modifier} {v : Value} {files : List String}

/-! ### What a modifier contributes -/

/-- The files that a modifier contributes where a value is selected for it or nothing is: those of
the selected options, in the order of selection, and else those of the default, which is the first
option unless another one is declared. -/
inductive Contributes : Modifier → Option Value → List String → Prop
  | selected {options : List String} {values : Table String (List String)} {default : Option String}
      {option : String} (hoption : option ∈ options) (hname : option ≠ "") :
      Contributes (.oneOf options values default) (some (.text option))
        ((values.get? option).getD [])
  | declared {options : List String} {values : Table String (List String)} {option : String} :
      Contributes (.oneOf options values (some option)) none ((values.get? option).getD [])
  | first {option : String} {others : List String} {values : Table String (List String)} :
      Contributes (.oneOf (option :: others) values none) none ((values.get? option).getD [])
  /-- An option without a name cannot be told from no choice. -/
  | unnamed {options : List String} {values : Table String (List String)} {default : Option String}
      {files : List String} (hoption : "" ∈ options)
      (hdefault : Contributes (.oneOf options values default) none files) :
      Contributes (.oneOf options values default) (some (.text "")) files
  | nothing {options : List String} {values : Table String (List String)} :
      Contributes (.anyOf options values) none []
  | several {options : List String} {values : Table String (List String)} {chosen : List String}
      (hchosen : ∀ option ∈ chosen, option ∈ options) :
      Contributes (.anyOf options values) (some (.list (chosen.map .text)))
        (chosen.flatMap fun option => (values.get? option).getD [])

theorem Contributes.filesFor_eq {selected : Option Value} (h : m.Contributes selected files) :
    m.filesFor selected = .ok files := by
  induction h with
  | @selected options values default option hoption hname =>
    -- A text that is not empty says something.
    have hstated : Value.firstStated [some (.text option)] = some (.text option) := by
      simp [Value.firstStated, Value.isVacant, hname]
    unfold filesFor
    rw [hstated]
    rfl
  | declared => rfl
  | first => rfl
  | unnamed hoption hdefault ih => exact ih
  | nothing => rfl
  | @several options values chosen hchosen =>
    cases chosen with
    | nil => rfl
    | cons option others => exact filesOfItems_texts _ (option :: others)

theorem exists_contributes_none (h : m.options ≠ []) : ∃ files, m.Contributes none files := by
  cases m with
  | oneOf options values default =>
    cases default with
    | some option => exact ⟨_, .declared⟩
    | none =>
      obtain ⟨option, others, rfl⟩ := List.exists_cons_of_ne_nil h
      exact ⟨_, .first⟩
  | anyOf options values => exact ⟨_, .nothing⟩

/-- A modifier contributes something for what it accepts. -/
theorem Accepts.exists_contributes (h : m.Accepts v) : ∃ files, m.Contributes (some v) files := by
  cases m with
  | oneOf options values default =>
    obtain ⟨option, hoption, rfl⟩ := h
    by_cases hname : option = ""
    · subst hname
      obtain ⟨files, hfiles⟩ :=
        exists_contributes_none (m := .oneOf options values default) (List.ne_nil_of_mem hoption)
      exact ⟨files, .unnamed hoption hfiles⟩
    · exact ⟨_, .selected hoption hname⟩
  | anyOf options values =>
    obtain ⟨chosen, hchosen, rfl⟩ := h
    exact ⟨_, .several hchosen⟩

end Modifier

namespace Manifest

variable {m : Manifest} {s : Selection} {spec : GenerateSpec}

theorem modifierFiles_eq {modifiers : List (String × Modifier)} {parts : List (List String)}
    (h : List.Forall₂ (fun entry part => entry.2.Contributes (s.choice? entry.1) part)
      (modifiers.filter fun entry => spec.keepsModifier entry.1) parts) :
    modifierFiles spec s modifiers = .ok parts.flatten := by
  induction modifiers generalizing parts with
  | nil =>
    obtain rfl := List.forall₂_nil_left_iff.mp h
    rfl
  | cons entry modifiers ih =>
    obtain ⟨name, modifier⟩ := entry
    rw [List.filter_cons] at h
    rw [modifierFiles]
    cases hkept : spec.keepsModifier name with
    | true =>
      rw [if_pos hkept] at h
      obtain ⟨part, others, hpart, hothers, rfl⟩ := List.forall₂_cons_left_iff.mp h
      rw [if_pos rfl, filesFor_choice?, hpart.filesFor_eq, ih hothers]
      rfl
    | false =>
      rw [if_neg (by simp [hkept])] at h
      rw [if_neg Bool.false_ne_true, ih h]
      rfl

/-- **The files of an accepted selection** are those of the sets that pass the filter, followed by
what each modifier contributes that passes it, all in the order of declaration. -/
theorem files_of_validate (hoptions : ∀ entry ∈ m.modifiers, entry.2.options ≠ [])
    (hs : m.validate s = []) (spec : GenerateSpec) :
    (∀ set, spec.keepsSet set = true ↔ spec.AdmitsSet set) ∧
      (∀ name, spec.keepsModifier name = true ↔ spec.AdmitsModifier name) ∧
        ∃ parts, List.Forall₂ (fun entry part => entry.2.Contributes (s.choice? entry.1) part)
            (m.modifiers.filter fun entry => spec.keepsModifier entry.1) parts ∧
          m.files s spec =
            .ok ((m.sets.filter spec.keepsSet).flatMap TokenSet.files ++ parts.flatten) := by
  refine ⟨fun _ => GenerateSpec.keepsSet_iff, fun _ => GenerateSpec.keepsModifier_iff, ?_⟩
  have hpart : ∀ entry ∈ m.modifiers, ∃ part, entry.2.Contributes (s.choice? entry.1) part := by
    intro entry hentry
    cases hchoice : s.choice? entry.1 with
    | none => exact Modifier.exists_contributes_none (hoptions entry hentry)
    | some v => exact ((validate_eq_nil_iff.mp hs).1 entry hentry v hchoice).exists_contributes
  choose! part hpart using hpart
  have hparts : List.Forall₂ (fun entry part => entry.2.Contributes (s.choice? entry.1) part)
      (m.modifiers.filter fun entry => spec.keepsModifier entry.1)
      ((m.modifiers.filter fun entry => spec.keepsModifier entry.1).map part) := by
    rw [List.forall₂_map_right_iff, List.forall₂_same]
    exact fun entry hentry => hpart entry (List.mem_of_mem_filter hentry)
  refine ⟨_, hparts, ?_⟩
  unfold files
  rw [modifierFiles_eq hparts]
  rfl

def layered : Manifest :=
  { (default : Manifest) with
    sets := [⟨some "core", ["base.json"]⟩, ⟨none, ["extra.json"]⟩]
    modifiers := [
      ("mode", .oneOf ["light", "dark"] [("light", ["light.json"]), ("dark", ["dark.json"])] none),
      ("features", .anyOf ["a", "b"] [("a", ["a.json"]), ("b", ["b.json", "more.json"])]),
      ("size", .oneOf ["s", "m"] [("m", ["m.json"])] (some "m"))] }

def twoFeatures : Selection := [("features", .list [.text "b", .text "a"]), ("mode", .null)]

/-- An entry that leaves out the sizes, although it includes them as well. -/
def withoutSizes : GenerateSpec :=
  { GenerateSpec.empty with
    includeSets := some ["core"], includeModifiers := some ["*", "size:m"]
    excludeModifiers := some ["size:s"] }

theorem files_of_validate_layered :
    (∀ entry ∈ layered.modifiers, entry.2.options ≠ []) ∧
      layered.validate twoFeatures = [] ∧
      ¬ withoutSizes.AdmitsModifier "size" ∧
      ∃ parts : List (List String),
        parts.flatten = ["light.json", "b.json", "more.json", "a.json"] ∧
          layered.files twoFeatures withoutSizes = .ok (["base.json"] ++ parts.flatten) := by
  have hoptions : ∀ entry ∈ layered.modifiers, entry.2.options ≠ [] := by
    simp [layered, Modifier.options]
  have hs : layered.validate twoFeatures = [] := by decide
  obtain ⟨-, hmodifiers, parts, -, hfiles⟩ := files_of_validate hoptions hs withoutSizes
  refine ⟨hoptions, hs, fun hsize => ?_, parts, ?_, hfiles⟩
  · exact absurd ((hmodifiers "size").mpr hsize) (by decide)
  · have hrun : layered.files twoFeatures withoutSizes =
        .ok (["base.json"] ++ ["light.json", "b.json", "more.json", "a.json"]) := rfl
    exact List.append_cancel_left (Except.ok.inj (hfiles.symm.trans hrun))

/-- A manifest with a mode that has no name. -/
def withPlainMode : Manifest :=
  { (default : Manifest) with
    sets := [⟨none, ["base.json"]⟩]
    modifiers :=
      [("mode", .oneOf ["dark", ""] [("dark", ["dark.json"]), ("", ["plain.json"])] none)] }

/-- **An option without a name gets the files of the default**, although it is accepted and has
files of its own. -/
theorem not_files_of_validate :
    withPlainMode.validate [("mode", .text "")] = [] ∧
      (withPlainMode.modifiers.get? "mode").map (·.filesOf "") = some ["plain.json"] ∧
      withPlainMode.files [("mode", .text "")] .empty = .ok ["base.json", "dark.json"] := by
  refine ⟨rfl, rfl, rfl⟩

end Manifest

end DesignTokens
