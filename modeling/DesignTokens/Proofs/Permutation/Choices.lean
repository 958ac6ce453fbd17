import DesignTokens.Permutation.Enumeration
import Mathlib.Algebra.BigOperators.Group.List.Basic
import Mathlib.Data.List.Forall2
import Mathlib.Data.List.Nodup
import Mathlib.Data.List.Sublists

/-!
# Ways to choose

The lists before each item are doubled by `subsets`, which gives the sublists of the items
in the order of Mathlib's `List.sublists` (`subsets_eq_sublists`).  A way to take one item
of each list is a list of such items (`mem_choices_iff`); no way is listed twice if no list
has an item twice (`choices_nodup`), and their number is the product of the lengths
(`length_choices`).
-/

namespace DesignTokens

variable {α : Type}

theorem subsets_concat (items : List α) (item : α) :
    subsets (items ++ [item]) = subsets items ++ (subsets items).map (· ++ [item]) := by
  unfold subsets
  rw [List.foldl_append, List.foldl_cons, List.foldl_nil]

theorem subsets_eq_sublists (items : List α) : subsets items = items.sublists := by
  induction items using List.reverseRecOn with
  | nil => rfl
  | append_singleton items item ih => rw [subsets_concat, List.sublists_concat, ih]

theorem mem_choices_iff {lists : List (List α)} {taken : List α} :
    taken ∈ choices lists ↔ List.Forall₂ (fun items item => item ∈ items) lists taken := by
  induction lists generalizing taken with
  | nil => rw [choices, List.mem_singleton, List.forall₂_nil_left_iff]
  | cons items lists ih =>
    rw [choices, List.mem_flatMap]
    constructor
    · rintro ⟨item, hitem, htaken⟩
      obtain ⟨rest, hrest, rfl⟩ := List.mem_map.mp htaken
      exact .cons hitem (ih.mp hrest)
    · intro h
      obtain ⟨item, rest, hitem, hrest, rfl⟩ := List.forall₂_cons_left_iff.mp h
      exact ⟨item, hitem, List.mem_map_of_mem (ih.mpr hrest)⟩

theorem choices_nodup {lists : List (List α)} (h : ∀ items ∈ lists, items.Nodup) :
    (choices lists).Nodup := by
  induction lists with
  | nil => exact List.nodup_singleton _
  | cons items lists ih =>
    obtain ⟨hitems, hlists⟩ := List.forall_mem_cons.mp h
    rw [choices, List.nodup_flatMap]
    refine ⟨fun item _ => (ih hlists).map List.cons_injective, ?_⟩
    refine hitems.imp fun {first second} hne => ?_
    -- Two ways with different first items differ.
    intro taken hfirst hsecond
    obtain ⟨rest, -, rfl⟩ := List.mem_map.mp hfirst
    obtain ⟨rest', -, he⟩ := List.mem_map.mp hsecond
    exact hne (List.cons.inj he).1.symm

theorem length_choices (lists : List (List α)) :
    (choices lists).length = (lists.map List.length).prod := by
  induction lists with
  | nil => rfl
  | cons items lists ih =>
    rw [choices, List.length_flatMap, List.map_cons, List.prod_cons, ← ih]
    simp only [List.length_map, List.map_const', List.sum_replicate_nat]

end DesignTokens
