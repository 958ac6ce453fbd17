import DesignTokens.Manifest.Selection
import DesignTokens.Proofs.Table

/-!
# Selections that are accepted

`Modifier.Accepts` says which values a selection may hold for a modifier: one of the
options of a `oneOf` modifier, a list of options of an `anyOf` modifier.  A selection is
accepted as a whole if every choice that it makes is, and if it names nothing but modifiers
and the file to write (`Manifest.validate_eq_nil_iff`).
-/

namespace DesignTokens

namespace Modifier

/-- Whether a value may be selected for a modifier. -/
def Accepts : Modifier → Value → Prop
  | .oneOf options _ _, v => ∃ option ∈ options, v = .text option
  | .anyOf options _, v =>
    ∃ chosen : List String, (∀ option ∈ chosen, option ∈ options) ∧ v = .list (chosen.map .text)

end Modifier

namespace Manifest

variable {m : Manifest} {s : Selection} {name : String} {modifier : Modifier} {v : Value}

/-- Items that are all texts of some list are a list of such texts. -/
theorem exists_map_text {items : List Value} {options : List String}
    (h : ∀ item ∈ items, (item.text?.map options.contains).getD false = true) :
    ∃ chosen : List String, (∀ option ∈ chosen, option ∈ options) ∧
      items = chosen.map Value.text := by
  induction items with
  | nil => exact ⟨[], nofun, rfl⟩
  | cons item items ih =>
    obtain ⟨hitem, hitems⟩ := List.forall_mem_cons.mp h
    obtain ⟨chosen, hchosen, rfl⟩ := ih hitems
    cases item with
    | text option =>
      refine ⟨option :: chosen, List.forall_mem_cons.mpr ⟨?_, hchosen⟩, rfl⟩
      exact List.contains_iff_mem.mp hitem
    | _ => cases hitem

/-- Nothing is rejected of a choice exactly if the modifier accepts it. -/
theorem rejectedChoices_eq_nil_iff : rejectedChoices name modifier v = [] ↔ modifier.Accepts v := by
  cases modifier with
  | oneOf options values default =>
    cases v with
    | text option =>
      unfold rejectedChoices
      dsimp only
      constructor
      · intro h
        split at h
        · rename_i hoption
          exact ⟨option, List.contains_iff_mem.mp hoption, rfl⟩
        · cases h
      · rintro ⟨_, hoption, ⟨⟩⟩
        rw [if_pos (List.contains_iff_mem.mpr hoption)]
    | _ =>
      constructor
      · intro h
        cases h
      · rintro ⟨_, _, ⟨⟩⟩
  | anyOf options values =>
    cases v with
    | list items =>
      unfold rejectedChoices
      dsimp only
      rw [List.map_eq_nil_iff, List.filter_eq_nil_iff]
      constructor
      · intro h
        obtain ⟨chosen, hchosen, rfl⟩ := exists_map_text fun item hitem => by
          simpa using h item hitem
        exact ⟨chosen, hchosen, rfl⟩
      · rintro ⟨chosen, hchosen, ⟨⟩⟩ item hitem
        obtain ⟨option, hoption, rfl⟩ := List.mem_map.mp hitem
        simpa [Value.text?] using hchosen option hoption
    | _ =>
      constructor
      · intro h
        cases h
      · rintro ⟨_, _, ⟨⟩⟩

/-- A selection is accepted if each choice is that it makes for a modifier, and if it names nothing
else but the file to write. -/
theorem validate_eq_nil_iff :
    m.validate s = [] ↔
      (∀ entry ∈ m.modifiers, ∀ v, s.choice? entry.1 = some v → entry.2.Accepts v) ∧
        ∀ entry ∈ s, entry.1 = outputKey ∨ entry.1 ∈ m.modifiers.keys := by
  unfold validate
  rw [List.append_eq_nil_iff, List.flatMap_eq_nil_iff, List.map_eq_nil_iff, List.filter_eq_nil_iff]
  refine and_congr (forall₂_congr fun entry _ => ?_) (forall₂_congr fun entry _ => ?_)
  · obtain ⟨name, modifier⟩ := entry
    dsimp only
    cases hchoice : s.choice? name with
    | none => exact ⟨fun _ v hv => (by cases hv), fun _ => rfl⟩
    | some v =>
      dsimp only
      rw [rejectedChoices_eq_nil_iff]
      constructor
      · rintro h _ ⟨⟩
        exact h
      · exact fun h => h v rfl
  · rw [← Table.has_iff_mem_keys]
    by_cases hkey : entry.1 = outputKey
    · simp [hkey]
    · simp [hkey]

theorem get?_of_choice? (h : s.choice? name = some v) : Table.get? s name = some v := by
  unfold Selection.choice? at h
  split at h
  · cases h
  · exact h

theorem choice?_of_get? (h : Table.get? s name = some v) (hv : v ≠ .null) :
    s.choice? name = some v := by
  unfold Selection.choice?
  rw [h]
  cases v with
  | null => exact absurd rfl hv
  | _ => rfl

end Manifest

end DesignTokens
