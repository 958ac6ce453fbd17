import DesignTokens.Proofs.Table
import DesignTokens.Value.Writable

/-!
# Integers in values

The integers of a list are those of its items, the integers of an object those of its members.
A value without a shown form has an integer without a numeral among its own.
-/

namespace DesignTokens.Value

variable {n : Int}

theorem mem_integersOfItems {items : List Value} :
    n ∈ integersOfItems items ↔ ∃ v ∈ items, n ∈ v.integers := by
  induction items with
  | nil => simp [integersOfItems]
  | cons v items ih => simp [integersOfItems, ih]

theorem mem_integersOfMembers {members : List (String × Value)} :
    n ∈ integersOfMembers members ↔ ∃ m ∈ members, n ∈ m.2.integers := by
  induction members with
  | nil => simp [integersOfMembers]
  | cons m members ih => simp [integersOfMembers, ih]

@[simp] theorem mem_integers_list {items : List Value} :
    n ∈ (Value.list items).integers ↔ ∃ v ∈ items, n ∈ v.integers := by
  rw [integers, mem_integersOfItems]

@[simp] theorem mem_integers_object {members : List (String × Value)} :
    n ∈ (Value.object members).integers ↔ ∃ m ∈ members, n ∈ m.2.integers := by
  rw [integers, mem_integersOfMembers]

theorem integers_item_subset {items : List Value} {v : Value} (h : v ∈ items) :
    v.integers ⊆ (Value.list items).integers :=
  fun _ hn => mem_integers_list.mpr ⟨v, h, hn⟩

theorem integers_member_subset {members : List (String × Value)} {m : String × Value}
    (h : m ∈ members) : m.2.integers ⊆ (Value.object members).integers :=
  fun _ hn => mem_integers_object.mpr ⟨m, h, hn⟩

theorem integers_tail_subset (v : Value) (items : List Value) :
    (Value.list items).integers ⊆ (Value.list (v :: items)).integers := by
  intro n hn
  obtain ⟨w, hw, hmem⟩ := mem_integers_list.mp hn
  exact mem_integers_list.mpr ⟨w, List.mem_cons_of_mem v hw, hmem⟩

theorem integers_others_subset (m : String × Value) (members : List (String × Value)) :
    (Value.object members).integers ⊆ (Value.object (m :: members)).integers := by
  intro n hn
  obtain ⟨o, ho, hmem⟩ := mem_integers_object.mp hn
  exact mem_integers_object.mpr ⟨o, List.mem_cons_of_mem m ho, hmem⟩

theorem integers_get?_subset {members : Table String Value} {key : String} {v : Value}
    (h : members.get? key = some v) : v.integers ⊆ (Value.object members).integers :=
  integers_member_subset (Table.mem_of_get? h)

theorem of_unwritable? {v : Value} (h : v.unwritable? = some n) :
    n ∈ v.integers ∧ isWritable n = false :=
  ⟨List.mem_of_find?_eq_some h, by simpa using List.find?_some h⟩

end DesignTokens.Value
