import DesignTokens.Manifest.Upft
import DesignTokens.Permutation.Files
import DesignTokens.Proofs.Manifest.Choices
import DesignTokens.Proofs.Merge.Entries

/-!
# Sound manifests

Code that reads a manifest takes for granted that each modifier has options, files for its
options alone and a default among them, and that the entries of the `generate` list select
declared modifiers; `Manifest.Sound` says so.  A selection that a sound manifest accepts can
be completed: the completed one assigns every modifier, it is accepted, it is complete
already, and it collects the same files (`Manifest.Sound.normalize`).
-/

namespace DesignTokens

theorem Value.firstStated_some (v : Value) :
    firstStated [some v] = none ∨ firstStated [some v] = some v := by
  cases hstated : firstStated [some v] with
  | none => exact .inl rfl
  | some w => exact .inr (List.mem_singleton.mp (firstStated_cases hstated).1)

namespace Modifier

def declaredDefault? : Modifier → Option String
  | .oneOf _ _ default => default
  | .anyOf _ _ => none

/-- A modifier has options, files for its options alone and a default among its options. -/
structure WellFormed (m : Modifier) : Prop where
  options : m.options ≠ []
  values : ∀ option ∈ m.values.keys, option ∈ m.options
  default : ∀ option, m.declaredDefault? = some option → option ∈ m.options

variable {m : Modifier} {v : Value}

theorem WellFormed.exists_default (h : m.WellFormed) :
    ∃ choice, m.defaultChoice = .ok choice ∧ m.Accepts choice.toValue := by
  cases m with
  | oneOf options values default =>
    cases default with
    | some option => exact ⟨_, rfl, option, h.default option rfl, rfl⟩
    | none =>
      obtain ⟨first, others, rfl⟩ := List.exists_cons_of_ne_nil h.options
      exact ⟨_, rfl, first, List.mem_cons_self, rfl⟩
  | anyOf options values => exact ⟨_, rfl, [], nofun, rfl⟩

theorem Accepts.ne_null (h : m.Accepts v) : v ≠ .null := by
  cases m with
  | oneOf options values default =>
    obtain ⟨option, -, rfl⟩ := h
    exact nofun
  | anyOf options values =>
    obtain ⟨chosen, -, rfl⟩ := h
    exact nofun

theorem filesOfItems_texts (m : Modifier) (chosen : List String) :
    m.filesOfItems (chosen.map .text) = .ok (chosen.flatMap m.filesOf) := by
  induction chosen with
  | nil => rfl
  | cons option chosen ih =>
    rw [List.map_cons, filesOfItems, ih]
    rfl

theorem exists_defaultChoice (h : m.options ≠ []) : ∃ choice, m.defaultChoice = .ok choice := by
  cases m with
  | oneOf options values default =>
    cases default with
    | some option => exact ⟨_, rfl⟩
    | none =>
      obtain ⟨first, others, rfl⟩ := List.exists_cons_of_ne_nil h
      exact ⟨_, rfl⟩
  | anyOf options values => exact ⟨_, rfl⟩

theorem filesFor_of_unstated {selected : Option Value}
    (h : Value.firstStated [selected] = none) : m.filesFor selected = m.filesFor none := by
  unfold filesFor
  rw [h]
  rfl

theorem filesFor_none {choice : Choice} (h : m.defaultChoice = .ok choice) :
    m.filesFor none = .ok (m.filesOfChoice choice) :=
  congrArg (Except.map m.filesOfChoice) h

/-- An accepted choice contributes files. -/
theorem Accepts.exists_files (h : m.Accepts v) : ∃ files, m.filesFor (some v) = .ok files := by
  cases m with
  | oneOf options values default =>
    obtain ⟨option, hoption, rfl⟩ := h
    rcases Value.firstStated_some (.text option) with hstated | hstated
    · obtain ⟨choice, hdefault⟩ := exists_defaultChoice (m := .oneOf options values default)
        (List.ne_nil_of_mem hoption)
      exact ⟨_, (filesFor_of_unstated hstated).trans (filesFor_none hdefault)⟩
    · unfold filesFor
      rw [hstated]
      exact ⟨_, rfl⟩
  | anyOf options values =>
    obtain ⟨chosen, -, rfl⟩ := h
    rcases Value.firstStated_some (.list (chosen.map .text)) with hstated | hstated
    · exact ⟨_, filesFor_of_unstated hstated⟩
    · unfold filesFor
      rw [hstated]
      exact ⟨_, filesOfItems_texts _ chosen⟩

/-- The default contributes what a modifier does of which nothing is selected. -/
theorem filesFor_default {choice : Choice} (h : m.defaultChoice = .ok choice) :
    m.filesFor (some choice.toValue) = m.filesFor none := by
  have hnone := filesFor_none h
  cases m with
  | oneOf options values default =>
    obtain ⟨option, rfl⟩ : ∃ option, choice = .one option := by
      cases default with
      | some option => exact ⟨option, (Except.ok.inj h).symm⟩
      | none =>
        cases options with
        | nil => cases h
        | cons option others => exact ⟨option, (Except.ok.inj h).symm⟩
    rw [hnone]
    change filesFor _ (some (.text option)) = _
    rcases Value.firstStated_some (.text option) with hstated | hstated
    · exact (filesFor_of_unstated hstated).trans hnone
    · unfold filesFor
      rw [hstated]
      rfl
  | anyOf options values =>
    cases h
    rfl

end Modifier

namespace Manifest

/-- What a manifest keeps that was read: each name has one modifier, the modifiers are well
formed, what is generated selects nothing but modifiers, and the depth of references is at least
one. -/
structure Sound (m : Manifest) : Prop where
  keys : m.modifiers.keys.Nodup
  modifiers : ∀ entry ∈ m.modifiers, entry.2.WellFormed
  generate : ∀ spec ∈ m.generate.getD [], ∀ name ∈ spec.selections.keys, name ∈ m.modifiers.keys
  maxDepth : 1 ≤ m.maxDepth

theorem one_le_defaultMaxDepth : 1 ≤ Upft.defaultMaxDepth := by decide

variable {m : Manifest} {s : Selection}

theorem filesFor_choice? (modifier : Modifier) (s : Selection) (name : String) :
    modifier.filesFor (Table.get? s name) = modifier.filesFor (s.choice? name) := by
  unfold Selection.choice?
  split
  · rename_i hnull
    rw [hnull]
    rfl
  · rfl

/-- What completing gives where there is a choice for each modifier. -/
theorem normalize_eq_ok {v : String × Modifier → Value}
    (h : ∀ entry ∈ m.modifiers, completed s entry.1 entry.2 = .ok (v entry)) :
    m.normalize s = .ok (m.modifiers.map fun entry => (entry.1, v entry)) := by
  unfold normalize
  generalize m.modifiers = modifiers at h ⊢
  induction modifiers with
  | nil => rfl
  | cons entry modifiers ih =>
    obtain ⟨name, modifier⟩ := entry
    obtain ⟨hentry, hmodifiers⟩ := List.forall_mem_cons.mp h
    rw [List.mapM_cons, ih hmodifiers]
    dsimp only
    rw [hentry]
    rfl

theorem modifierFiles_congr {t : Selection} {spec : GenerateSpec}
    {modifiers : List (String × Modifier)}
    (h : ∀ entry ∈ modifiers,
      entry.2.filesFor (Table.get? s entry.1) = entry.2.filesFor (Table.get? t entry.1)) :
    modifierFiles spec s modifiers = modifierFiles spec t modifiers := by
  induction modifiers with
  | nil => rfl
  | cons entry modifiers ih =>
    obtain ⟨hentry, hmodifiers⟩ := List.forall_mem_cons.mp h
    rw [modifierFiles, modifierFiles, hentry, ih hmodifiers]

theorem exists_modifierFiles {spec : GenerateSpec} {modifiers : List (String × Modifier)}
    (h : ∀ entry ∈ modifiers, ∃ files, entry.2.filesFor (Table.get? s entry.1) = .ok files) :
    ∃ files, modifierFiles spec s modifiers = .ok files := by
  induction modifiers with
  | nil => exact ⟨[], rfl⟩
  | cons entry modifiers ih =>
    obtain ⟨⟨first, hfirst⟩, hmodifiers⟩ := List.forall_mem_cons.mp h
    obtain ⟨others, hothers⟩ := ih hmodifiers
    rw [modifierFiles, hothers, hfirst]
    cases spec.keepsModifier entry.1 with
    | true => exact ⟨first ++ others, rfl⟩
    | false => exact ⟨others, rfl⟩

namespace Sound

variable (h : m.Sound) (hs : m.validate s = [])

include h hs

/-- There is a choice for each modifier, which the modifier accepts and which changes nothing about
its files. -/
theorem exists_completed : ∀ entry ∈ m.modifiers,
    ∃ v, completed s entry.1 entry.2 = .ok v ∧ entry.2.Accepts v ∧
      entry.2.filesFor (Table.get? s entry.1) = entry.2.filesFor (some v) := by
  intro entry hentry
  unfold completed
  cases hchoice : s.choice? entry.1 with
  | some v =>
    refine ⟨v, rfl, (validate_eq_nil_iff.mp hs).1 entry hentry v hchoice, ?_⟩
    rw [filesFor_choice?, hchoice]
  | none =>
    obtain ⟨choice, hdefault, haccepts⟩ := (h.modifiers entry hentry).exists_default
    refine ⟨choice.toValue, congrArg (Except.map Choice.toValue) hdefault, haccepts, ?_⟩
    rw [filesFor_choice?, hchoice, Modifier.filesFor_default hdefault]

/-- **An accepted selection can be completed.**  The completed one has a choice for each modifier
that the modifier accepts, it is accepted, it is its own completion, and it collects the same files
whatever is filtered. -/
theorem normalize : ∃ full, m.normalize s = .ok full ∧
    (∀ entry ∈ m.modifiers, ∃ v, Table.get? full entry.1 = some v ∧ entry.2.Accepts v) ∧
      m.validate full = [] ∧ m.normalize full = .ok full ∧
        ∀ spec, ∃ files, m.files s spec = .ok files ∧ m.files full spec = .ok files := by
  choose! v hcompleted haccepts hsame using h.exists_completed hs
  have hget : ∀ entry ∈ m.modifiers,
      Table.get? (m.modifiers.map fun entry => (entry.1, v entry)) entry.1 = some (v entry) := by
    intro entry hentry
    refine Table.get?_of_mem ?_ (List.mem_map_of_mem (f := fun entry => (entry.1, v entry)) hentry)
    rw [Table.keys, List.map_map]
    exact h.keys
  have hchoice : ∀ entry ∈ m.modifiers,
      Selection.choice? (m.modifiers.map fun entry => (entry.1, v entry)) entry.1 =
        some (v entry) := fun entry hentry =>
    choice?_of_get? (hget entry hentry) (haccepts entry hentry).ne_null
  refine ⟨_, normalize_eq_ok hcompleted, fun entry hentry => ⟨_, hget entry hentry,
    haccepts entry hentry⟩, validate_eq_nil_iff.mpr ⟨?_, ?_⟩, normalize_eq_ok ?_, fun spec => ?_⟩
  · intro entry hentry w hw
    rw [hchoice entry hentry] at hw
    exact Option.some.inj hw ▸ haccepts entry hentry
  · rintro _ hmem
    obtain ⟨entry, hentry, rfl⟩ := List.mem_map.mp hmem
    exact Or.inr (List.mem_map_of_mem hentry)
  · intro entry hentry
    rw [completed, hchoice entry hentry]
  · -- Both selections have the same files for each modifier, and an accepted choice has some.
    have hsome : ∀ entry ∈ m.modifiers,
        ∃ files, entry.2.filesFor (Table.get? s entry.1) = .ok files := by
      intro entry hentry
      rw [hsame entry hentry]
      exact (haccepts entry hentry).exists_files
    obtain ⟨files, hfiles⟩ : ∃ files, modifierFiles spec s m.modifiers = .ok files :=
      exists_modifierFiles hsome
    unfold Manifest.files
    rw [← modifierFiles_congr fun entry hentry => (hsame entry hentry).trans
      (congrArg entry.2.filesFor (hget entry hentry).symm), hfiles]
    exact ⟨_, rfl, rfl⟩

end Sound

end Manifest

end DesignTokens
