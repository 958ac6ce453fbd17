import DesignTokens.Proofs.Reference.Occurrences

/-!
# Replacing the outermost pointers of a value

`Value.outerPointers` lists the `$ref` texts of a value that stand in no other such
object, as often as they stand, and `Value.including` replaces the objects that hold
them by what a function gives for them.  Where it gives nothing the object stays.

A value has no `$ref` member left exactly if each of its outermost pointers is replaced
by a value without any (`noRefs_including`, `mem_occurrences_including`).
-/

namespace DesignTokens.Value

mutual

/-- The pointers of a value that stand below no other pointer. -/
def outerPointers : Value → List String
  | .list items => outerPointersOfItems items
  | .object members =>
    match pointerOf? members with
    | some ref => [ref]
    | none => outerPointersOfMembers members
  | _ => []

def outerPointersOfItems : List Value → List String
  | [] => []
  | v :: items => v.outerPointers ++ outerPointersOfItems items

def outerPointersOfMembers : List (String × Value) → List String
  | [] => []
  | (_, v) :: members => v.outerPointers ++ outerPointersOfMembers members

end

mutual

/-- A value in which the outermost pointer objects are replaced, where there is something to
replace them by. -/
def including (part : String → Option Value) : Value → Value
  | .list items => .list (includingItems part items)
  | .object members =>
    match pointerOf? members with
    | some ref => (part ref).getD (.object members)
    | none => .object (includingMembers part members)
  | v => v

def includingItems (part : String → Option Value) : List Value → List Value
  | [] => []
  | v :: items => v.including part :: includingItems part items

def includingMembers (part : String → Option Value) :
    List (String × Value) → List (String × Value)
  | [] => []
  | (key, v) :: members => (key, v.including part) :: includingMembers part members

end

variable {part : String → Option Value} {items : List Value} {members : List (String × Value)}
  {ref : String} {v : Value}

theorem outerPointersOfItems_eq : outerPointersOfItems items = items.flatMap outerPointers := by
  induction items with
  | nil => rfl
  | cons v items ih => rw [outerPointersOfItems, ih, List.flatMap_cons]

theorem outerPointersOfMembers_eq :
    outerPointersOfMembers members = members.flatMap fun m => m.2.outerPointers := by
  induction members with
  | nil => rfl
  | cons m members ih => rw [outerPointersOfMembers, ih, List.flatMap_cons]

theorem includingItems_eq : includingItems part items = items.map (including part) := by
  induction items with
  | nil => rfl
  | cons v items ih => rw [includingItems, ih, List.map_cons]

theorem includingMembers_eq :
    includingMembers part members = members.map fun m => (m.1, m.2.including part) := by
  induction members with
  | nil => rfl
  | cons m members ih => rw [includingMembers, ih, List.map_cons]

theorem outerPointers_list : (Value.list items).outerPointers = items.flatMap outerPointers := by
  rw [outerPointers, outerPointersOfItems_eq]

theorem outerPointers_pointer (h : pointerOf? members = some ref) :
    (Value.object members).outerPointers = [ref] := by
  rw [outerPointers, h]

theorem outerPointers_object (h : pointerOf? members = none) :
    (Value.object members).outerPointers = members.flatMap fun m => m.2.outerPointers := by
  rw [outerPointers, h, ← outerPointersOfMembers_eq]

theorem including_list :
    (Value.list items).including part = .list (items.map (including part)) := by
  rw [including, includingItems_eq]

theorem including_pointer (h : pointerOf? members = some ref) :
    (Value.object members).including part = (part ref).getD (.object members) := by
  rw [including, h]

theorem including_object (h : pointerOf? members = none) :
    (Value.object members).including part =
      .object (members.map fun m => (m.1, m.2.including part)) := by
  rw [including, h, includingMembers_eq]

/-- Only the outermost pointers are looked up. -/
theorem including_congr {other : String → Option Value}
    (h : ∀ ref ∈ v.outerPointers, part ref = other ref) : v.including part = v.including other := by
  induction v using inductionOn with
  | list items ih =>
    rw [outerPointers_list] at h
    rw [including_list, including_list]
    refine congrArg Value.list (List.map_congr_left fun v hv => ih v hv fun ref href => ?_)
    exact h ref (List.mem_flatMap.mpr ⟨v, hv, href⟩)
  | object members ih =>
    cases hp : pointerOf? members with
    | some ref =>
      rw [outerPointers_pointer hp] at h
      rw [including_pointer hp, including_pointer hp, h ref List.mem_cons_self]
    | none =>
      rw [outerPointers_object hp] at h
      rw [including_object hp, including_object hp]
      refine congrArg Value.object (List.map_congr_left fun m hm => congrArg _ ?_)
      exact ih m hm fun ref href => h ref (List.mem_flatMap.mpr ⟨m, hm, href⟩)
  | _ => rw [including, including] <;> intros <;> contradiction

/-- Nothing changes where nothing is replaced. -/
theorem including_none : v.including (fun _ => none) = v := by
  induction v using inductionOn with
  | list items ih =>
    rw [including_list]
    exact congrArg Value.list ((List.map_congr_left ih).trans (List.map_id' items))
  | object members ih =>
    cases hp : pointerOf? members with
    | some ref =>
      rw [including_pointer hp]
      rfl
    | none =>
      rw [including_object hp]
      have hmembers : members.map (fun m => (m.1, m.2.including fun _ => none)) =
          members.map fun m => m :=
        List.map_congr_left fun m hm => congrArg (Prod.mk m.1) (ih m hm)
      exact congrArg Value.object (hmembers.trans (List.map_id' members))
  | _ => rw [including] <;> intros <;> contradiction

theorem including_eq_self (h : v.outerPointers = []) : v.including part = v := by
  refine Eq.trans (including_congr fun ref href => ?_) including_none
  rw [h] at href
  exact absurd href List.not_mem_nil

/-! ### What is left -/

theorem ne_pointerKey (hmembers : ∀ m ∈ members, m.1 = pointerKey → ∃ s, m.2 = .text s)
    (hp : pointerOf? members = none) {m : String × Value} (hm : m ∈ members) :
    m.1 ≠ pointerKey := by
  intro hkey
  have hsome := pointerOf?_isSome hmembers hm hkey
  rw [hp] at hsome
  cases hsome

/-- A pointer that is not replaced is found in the value. -/
theorem mem_occurrences_including (hv : v.RefsAreTexts) (href : ref ∈ v.outerPointers)
    (hnone : part ref = none) : .pointer ref ∈ (v.including part).occurrences := by
  induction v using inductionOn with
  | list items ih =>
    rw [outerPointers_list] at href
    obtain ⟨v, hm, href⟩ := List.mem_flatMap.mp href
    rw [including_list, mem_occurrences_list]
    exact ⟨_, List.mem_map.mpr ⟨v, hm, rfl⟩, ih v hm (everyObject_list.mp hv v hm) href⟩
  | object members ih =>
    obtain ⟨hhere, hbelow⟩ := everyObject_object.mp hv
    cases hp : pointerOf? members with
    | some other =>
      rw [outerPointers_pointer hp, List.mem_singleton] at href
      rw [including_pointer hp, ← href, hnone, Option.getD_none, mem_occurrences_object]
      exact Or.inl ⟨ref, href ▸ hp, rfl⟩
    | none =>
      rw [outerPointers_object hp] at href
      obtain ⟨m, hm, href⟩ := List.mem_flatMap.mp href
      rw [including_object hp, mem_occurrences_object]
      have hkey := ne_pointerKey hhere hp hm
      exact Or.inr ⟨_, List.mem_map.mpr ⟨m, hm, rfl⟩, hkey, ih m hm (hbelow m hm) href⟩
  | _ => cases href

theorem mem_occurrences_of_outer (hv : v.RefsAreTexts) (href : ref ∈ v.outerPointers) :
    .pointer ref ∈ v.occurrences := by
  have hm : .pointer ref ∈ (v.including fun _ => none).occurrences :=
    mem_occurrences_including hv href rfl
  rwa [including_none] at hm

/-- No `$ref` member is left where every outermost pointer is replaced by a value without. -/
theorem noRefs_including (hv : v.RefsAreTexts)
    (h : ∀ ref ∈ v.outerPointers, ∃ w, part ref = some w ∧ w.NoRefs) :
    (v.including part).NoRefs := by
  induction v using inductionOn with
  | list items ih =>
    rw [outerPointers_list] at h
    rw [including_list]
    refine everyObject_list.mpr fun w hw => ?_
    obtain ⟨v, hm, rfl⟩ := List.mem_map.mp hw
    refine ih v hm (everyObject_list.mp hv v hm) fun ref href => ?_
    exact h ref (List.mem_flatMap.mpr ⟨v, hm, href⟩)
  | object members ih =>
    obtain ⟨hhere, hbelow⟩ := everyObject_object.mp hv
    cases hp : pointerOf? members with
    | some ref =>
      rw [outerPointers_pointer hp] at h
      obtain ⟨w, hw, hfree⟩ := h ref List.mem_cons_self
      rw [including_pointer hp, hw]
      exact hfree
    | none =>
      rw [outerPointers_object hp] at h
      rw [including_object hp]
      refine everyObject_object.mpr ⟨fun n hn => ?_, fun n hn => ?_⟩
      · obtain ⟨m, hm, rfl⟩ := List.mem_map.mp hn
        have hkey := ne_pointerKey hhere hp hm
        exact hkey
      · obtain ⟨m, hm, rfl⟩ := List.mem_map.mp hn
        refine ih m hm (hbelow m hm) fun ref href => ?_
        exact h ref (List.mem_flatMap.mpr ⟨m, hm, href⟩)
  | _ => rw [including] <;> first | trivial | (intros; contradiction)

theorem outerPointers_eq_nil (hv : v.RefsAreTexts) (h : (Scan.of v).pointers = []) :
    v.outerPointers = [] := by
  refine List.eq_nil_iff_forall_not_mem.mpr fun ref href => ?_
  have hm := mem_pointers_iff.mpr (mem_occurrences_of_outer hv href)
  rw [h] at hm
  exact List.not_mem_nil hm

end DesignTokens.Value
