import DesignTokens.Proofs.Manifest.Rejections
import DesignTokens.Proofs.Manifest.Sound
import DesignTokens.Proofs.Reference.Substitution
import DesignTokens.Proofs.Value.Structure

/-!
# The plain form gives sound manifests

The checks of the plain form are made on the data before anything is built from them.  Each
lemma here takes one check that finds no fault to what it says of the part that is built.
-/

namespace DesignTokens.Upft

variable {data raw : Table String Value} {place : String} {options : List String}
  {entry : String × Value}

/-! ### Modifiers -/

theorem mem_options_of_valuesFaults {option : String}
    (h : valuesFaults place options (raw.get? "values") = [])
    (hoption : option ∈ (buildValues raw).keys) : option ∈ options := by
  obtain ⟨_, hmem, rfl⟩ := List.mem_map.mp hoption
  obtain ⟨entry, hentry, rfl⟩ := List.mem_map.mp hmem
  cases hvalues : raw.get? "values" with
  | none =>
    rw [hvalues] at hentry
    cases hentry
  | some v =>
    rw [hvalues] at h hentry
    cases v with
    | object members =>
      have hfaults := (List.append_eq_nil_iff.mp (List.flatMap_eq_nil_iff.mp h entry hentry)).1
      split at hfaults
      · rename_i hcontains
        exact List.contains_iff_mem.mp hcontains
      · cases hfaults
    | _ => cases hentry

theorem mem_options_of_defaultFaults {option : String}
    (h : defaultFaults place true options (raw.get? "default") = [])
    (hoption : (raw.get? "default").bind Value.text? = some option) : option ∈ options := by
  obtain ⟨v, hv, htext⟩ := Option.bind_eq_some_iff.mp hoption
  rw [hv] at h
  unfold defaultFaults at h
  dsimp only at h
  rw [if_pos rfl, htext] at h
  split at h
  · rename_i hcontains
    exact List.contains_iff_mem.mp hcontains
  · cases h

/-- A modifier without faults has the options that are built. -/
theorem options_of_kindFaults {isOneOf : Bool} (h : kindFaults place raw isOneOf = []) :
    ∃ options, (raw.get? (if isOneOf then "oneOf" else "anyOf")).bind Value.texts? = some options ∧
      options ≠ [] ∧ (∀ option ∈ (buildValues raw).keys, option ∈ options) ∧
        (isOneOf = true → ∀ option, (raw.get? "default").bind Value.text? = some option →
          option ∈ options) := by
  unfold kindFaults at h
  dsimp only at h
  split at h
  · cases h
  · rename_i options hoptions
    obtain ⟨hfirst, hdefault⟩ := List.append_eq_nil_iff.mp h
    obtain ⟨hempty, hvalues⟩ := List.append_eq_nil_iff.mp hfirst
    refine ⟨options, hoptions, ?_, fun option => mem_options_of_valuesFaults hvalues, ?_⟩
    · rintro rfl
      cases hempty
    · rintro rfl option hoption
      exact mem_options_of_defaultFaults hdefault hoption

theorem wellFormed_buildModifier (h : modifierFaults entry = []) :
    (buildModifier entry.2).WellFormed := by
  obtain ⟨name, v⟩ := entry
  cases v with
  | object members =>
    unfold modifierFaults at h
    dsimp only at h
    split at h
    · cases h
    · rename_i hkind
      obtain ⟨options, hoptions, hne, hvalues, hdefault⟩ := options_of_kindFaults h
      unfold buildModifier
      dsimp only [Value.members?, Option.getD_some]
      cases hone : Table.has members "oneOf" with
      | true =>
        rw [hone, if_pos rfl] at hoptions
        rw [hoptions]
        exact ⟨hne, hvalues, hdefault hone⟩
      | false =>
        rw [hone, if_neg Bool.false_ne_true] at hoptions
        rw [Option.not_isSome_iff_eq_none.mp (ne_true_of_eq_false hone), hoptions]
        exact ⟨hne, hvalues, fun _ hnone => by cases hnone⟩
  | _ => cases h

theorem rawModifiers_faults (h : modifiersFaults (present (data.get? "modifiers")) = []) :
    ∀ entry ∈ rawModifiers data, modifierFaults entry = [] := by
  intro entry hentry
  unfold rawModifiers at hentry
  cases hmodifiers : data.get? "modifiers" with
  | none =>
    rw [hmodifiers] at h
    cases h
  | some v =>
    rw [hmodifiers] at h hentry
    cases v with
    | object members => exact List.flatMap_eq_nil_iff.mp h entry hentry
    | _ => cases hentry

theorem nodup_rawModifiers (h : (Value.object data).KeysDistinct) :
    (rawModifiers data).keys.Nodup := by
  unfold rawModifiers
  cases hmodifiers : data.get? "modifiers" with
  | none => exact List.nodup_nil
  | some v =>
    have hv := (Value.everyObject_object.mp h).2 _ (Table.mem_of_get? hmodifiers)
    cases v with
    | object members => exact (Value.everyObject_object.mp hv).1
    | _ => exact List.nodup_nil

/-! ### What is generated -/

theorem has_of_generateMemberFaults {modifiers : Table String Value}
    (h : generateMemberFaults place modifiers entry = [])
    (hselects : ¬ (entry.1 = outputKey ∨ filterKeys.contains entry.1 = true)) :
    modifiers.has entry.1 = true := by
  unfold generateMemberFaults at h
  rw [not_or] at hselects
  dsimp only at h
  rw [if_neg hselects.1, if_neg hselects.2] at h
  split at h
  · assumption
  · cases h

theorem has_of_mem_selections {modifiers : Table String Value} {index : Nat} {v : Value}
    {name : String} (h : generateFaults modifiers index v = [])
    (hname : name ∈ (buildSpec v).selections.keys) : modifiers.has name = true := by
  obtain ⟨choice, hchoice, rfl⟩ := List.mem_map.mp hname
  obtain ⟨entry, hentry, he⟩ := List.mem_filterMap.mp hchoice
  cases v with
  | object members =>
    dsimp only at he
    split at he
    · cases he
    · rename_i hselects
      obtain ⟨_, -, rfl⟩ := Option.map_eq_some_iff.mp he
      exact has_of_generateMemberFaults (List.flatMap_eq_nil_iff.mp h entry hentry) hselects
  | _ => cases hentry

theorem has_of_generateListFaults {modifiers : Table String Value} {generate : Option Value}
    (h : generateListFaults modifiers (present generate) = []) :
    ∀ spec ∈ ((generate.bind Value.items?).map fun items => items.map buildSpec).getD [],
      ∀ name ∈ spec.selections.keys, modifiers.has name = true := by
  intro spec hspec name hname
  cases generate with
  | none => cases hspec
  | some v =>
    cases v with
    | list items =>
      obtain ⟨raw, hraw, rfl⟩ := List.mem_map.mp hspec
      obtain ⟨index, hindex, rfl⟩ := List.getElem_of_mem hraw
      have hmem := List.mem_mapIdx (f := generateFaults modifiers).mpr ⟨index, hindex, rfl⟩
      exact has_of_mem_selections (List.flatten_eq_nil_iff.mp h _ hmem) hname
    | _ => cases hspec

/-! ### The depth -/

theorem one_le_of_positiveInteger {v : Value} {n : Int} (h : Setting.positiveInteger v = .ok n) :
    1 ≤ n := by
  unfold Setting.positiveInteger at h
  split at h
  · split at h
    · cases h
    · rename_i hn
      cases h
      exact Int.not_lt.mp hn
  · cases h

theorem one_le_maxDepth (options : Table String Value) (names : List String) :
    1 ≤ (setting? options names Setting.positiveInteger defaultMaxDepth).1 := by
  unfold setting?
  split
  · exact Manifest.one_le_defaultMaxDepth
  · split
    · rename_i hread
      exact one_le_of_positiveInteger hread
    · exact Manifest.one_le_defaultMaxDepth

/-! ### The manifest -/

/-- What is read in the plain form is a sound manifest. -/
theorem sound_of_parse {source : Option String} {read : ParsedManifest}
    (hdata : (Value.object data).KeysDistinct) (h : parse data source = .ok read) :
    read.manifest.Sound := by
  unfold parse at h
  split at h
  · cases h
  · rename_i hfaults
    dsimp only at h
    split at h
    · cases h
    · obtain ⟨m, hm, rfl⟩ := Value.map_eq_ok.mp h
      obtain ⟨hmodifiers, hgenerate, hdepth⟩ := Manifest.of_withDescription hm
      unfold faults at hfaults
      obtain ⟨hfirst, -⟩ := List.append_eq_nil_iff.mp hfaults
      obtain ⟨hsecond, hgenerateFaults⟩ := List.append_eq_nil_iff.mp hfirst
      obtain ⟨-, hmodifiersFaults⟩ := List.append_eq_nil_iff.mp hsecond
      have hkeys : m.modifiers.keys = (rawModifiers data).keys := by
        rw [hmodifiers]
        exact List.map_map
      refine ⟨hkeys ▸ nodup_rawModifiers hdata, ?_, ?_, ?_⟩
      · rw [hmodifiers]
        intro entry hentry
        obtain ⟨raw, hraw, rfl⟩ := List.mem_map.mp hentry
        exact wellFormed_buildModifier (rawModifiers_faults hmodifiersFaults raw hraw)
      · rw [hgenerate]
        intro spec hspec name hname
        rw [hkeys, ← Table.has_iff_mem_keys]
        exact has_of_generateListFaults hgenerateFaults spec hspec name hname
      · rw [hdepth]
        exact one_le_maxDepth _ _

end DesignTokens.Upft
