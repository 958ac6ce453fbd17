import DesignTokens.Table
import Mathlib.Data.List.Forall2
import Mathlib.Data.List.Nodup

/-!
# Laws of ordered tables

What a table with distinct keys holds is what reading it finds (`mem_of_get?`,
`get?_of_mem`), changing a value touches no other key (`get?_modify`,
`keys_modify`), and a table of pairs holds nothing but these pairs
(`mem_of_get?_ofPairs`).
-/

namespace DesignTokens.Table

variable {κ α : Type} [DecidableEq κ] {t : Table κ α} {key other : κ} {value : α}

theorem mem_of_get? (h : t.get? key = some value) : (key, value) ∈ t := by
  induction t with
  | nil => simp [get?] at h
  | cons p rest ih =>
    obtain ⟨k, v⟩ := p
    rw [get?] at h
    split at h
    · rename_i hk
      rw [← hk, ← Option.some.inj h]
      exact List.mem_cons_self
    · exact List.mem_cons_of_mem _ (ih h)

theorem get?_of_mem (hkeys : t.keys.Nodup) (h : (key, value) ∈ t) : t.get? key = some value := by
  induction t with
  | nil => exact absurd h List.not_mem_nil
  | cons p rest ih =>
    obtain ⟨k, v⟩ := p
    obtain ⟨hk, hrest⟩ := List.nodup_cons.mp hkeys
    rw [get?]
    rcases List.mem_cons.mp h with he | h
    · cases he
      rw [if_pos rfl]
    · have hne : k ≠ key := by
        rintro rfl
        exact hk (List.mem_map.mpr ⟨_, h, rfl⟩)
      rw [if_neg hne]
      exact ih hrest h

theorem get?_eq_none_iff : t.get? key = none ↔ key ∉ t.keys := by
  rw [← has_iff_mem_keys, has]
  simp

theorem exists_get?_of_mem_keys (h : key ∈ t.keys) : ∃ value, t.get? key = some value :=
  Option.isSome_iff_exists.mp ((has_iff_mem_keys t key).mpr h)

/-! ### Behind a table -/

theorem put_of_not_mem (value : α) (h : key ∉ t.keys) : t.put key value = t ++ [(key, value)] := by
  induction t with
  | nil => rfl
  | cons p rest ih =>
    obtain ⟨k, v⟩ := p
    obtain ⟨hk, hrest⟩ := not_or.mp (mt List.mem_cons.mpr h)
    rw [put, if_neg (Ne.symm hk), ih hrest]
    rfl

theorem get?_append (t u : Table κ α) (key : κ) :
    Table.get? (t ++ u) key = (t.get? key).or (u.get? key) := by
  induction t with
  | nil => rfl
  | cons p rest ih =>
    obtain ⟨k, v⟩ := p
    rw [List.cons_append, get?, get?, ih]
    split
    · rfl
    · rfl

omit [DecidableEq κ] in
theorem keys_append (t u : Table κ α) : Table.keys (t ++ u) = t.keys ++ u.keys :=
  List.map_append

/-! ### Writing -/

theorem has_put : (t.put key value).has other = true ↔ other = key ∨ t.has other = true := by
  unfold has
  by_cases h : other = key
  · rw [h, get?_put_self]
    simp
  · rw [get?_put_of_ne t value h]
    simp [h]

theorem has_putNew : (t.putNew key value).has other = true ↔ other = key ∨ t.has other = true := by
  unfold putNew
  split
  · rename_i h
    constructor
    · exact Or.inr
    · rintro (rfl | hother)
      · exact h
      · exact hother
  · exact has_put

theorem get?_modify (f : α → α) :
    (t.modify key f).get? other = if other = key then (t.get? other).map f else t.get? other := by
  induction t with
  | nil => simp [modify, get?]
  | cons p rest ih =>
    obtain ⟨k, v⟩ := p
    rw [modify]
    by_cases hk : k = key
    · rw [if_pos hk, get?, get?]
      by_cases ho : k = other
      · rw [if_pos ho, if_pos ho, if_pos (ho.symm.trans hk)]
        rfl
      · rw [if_neg ho, if_neg ho, if_neg fun e => ho (hk.trans e.symm)]
    · rw [if_neg hk, get?, get?, ih]
      by_cases ho : k = other
      · rw [if_pos ho, if_pos ho, if_neg fun e => hk (ho.trans e)]
      · rw [if_neg ho, if_neg ho]

theorem keys_modify (f : α → α) : (t.modify key f).keys = t.keys := by
  induction t with
  | nil => rfl
  | cons p rest ih =>
    obtain ⟨k, v⟩ := p
    rw [modify]
    split
    · rfl
    · exact congrArg (k :: ·) ih

theorem modify_put (h : key ≠ other) (value : α) (f : α → α) :
    (t.put other value).modify key f = (t.modify key f).put other value := by
  induction t with
  | nil => rw [put, modify, modify, put, if_neg h.symm, modify]
  | cons p rest ih =>
    obtain ⟨k, v⟩ := p
    rw [put, modify]
    by_cases hk : k = other
    · have hne : k ≠ key := hk ▸ h.symm
      rw [if_pos hk, if_neg hne, modify, if_neg hne, put, if_pos hk]
    · rw [if_neg hk, modify]
      by_cases hkey : k = key
      · rw [if_pos hkey, if_pos hkey, put, if_neg hk]
      · rw [if_neg hkey, if_neg hkey, put, if_neg hk, ih]

theorem getD_putNew (value : α) :
    ((t.putNew key value).get? other).getD value = (t.get? other).getD value := by
  unfold putNew
  split
  · rfl
  · rename_i hhas
    have hnone : t.get? key = none := by simpa [has] using hhas
    by_cases ho : other = key
    · rw [ho, get?_put_self, hnone]
      rfl
    · rw [get?_put_of_ne t value ho]

/-! ### Building -/

theorem mem_of_get?_foldl_put {pairs : List (κ × α)}
    (h : (pairs.foldl (fun t p => t.put p.1 p.2) t).get? key = some value) :
    (key, value) ∈ pairs ∨ t.get? key = some value := by
  induction pairs generalizing t with
  | nil => exact Or.inr h
  | cons p pairs ih =>
    rcases ih h with hm | hput
    · exact Or.inl (List.mem_cons_of_mem _ hm)
    · by_cases hk : key = p.1
      · rw [hk, get?_put_self] at hput
        rw [hk, ← Option.some.inj hput]
        exact Or.inl List.mem_cons_self
      · rw [get?_put_of_ne t p.2 hk] at hput
        exact Or.inr hput

theorem has_foldl_put {pairs : List (κ × α)} :
    has (pairs.foldl (fun t p => t.put p.1 p.2) t) key = true ↔
      key ∈ keys pairs ∨ t.has key = true := by
  induction pairs generalizing t with
  | nil => simp [keys]
  | cons p pairs ih =>
    rw [List.foldl_cons, ih, has_put]
    simp only [keys, List.map_cons, List.mem_cons]
    tauto

/-- The stored pairs are read first, then the older ones. -/
theorem get?_foldl_put {pairs : Table κ α} (hpairs : pairs.keys.Nodup) :
    get? (pairs.foldl (fun t p => t.put p.1 p.2) t) key = (pairs.get? key).or (t.get? key) := by
  induction pairs generalizing t with
  | nil => rfl
  | cons p pairs ih =>
    obtain ⟨k, v⟩ := p
    obtain ⟨hk, hpairs⟩ := List.nodup_cons.mp hpairs
    rw [List.foldl_cons, ih hpairs, get?]
    by_cases he : k = key
    · have hnone : get? pairs key = none := get?_eq_none_iff.mpr (he ▸ hk)
      rw [if_pos he, hnone, he, get?_put_self]
      rfl
    · rw [if_neg he, get?_put_of_ne t v (Ne.symm he)]

/-- Pairs with new keys are stored behind a table. -/
theorem foldl_put_eq_append {pairs : Table κ α} (h : (t.keys ++ pairs.keys).Nodup) :
    pairs.foldl (fun t p => t.put p.1 p.2) t = t ++ pairs := by
  induction pairs generalizing t with
  | nil => exact (List.append_nil t).symm
  | cons p pairs ih =>
    have hp : p.1 ∉ t.keys := fun hm =>
      (List.nodup_append.mp h).2.2 p.1 hm p.1 List.mem_cons_self rfl
    have hput : t.put p.1 p.2 = t ++ [p] := put_of_not_mem p.2 hp
    rw [List.foldl_cons, hput, ih, List.append_assoc]
    · rfl
    · rw [keys_append, List.append_assoc]
      exact h

theorem ofPairs_eq_self {pairs : Table κ α} (h : pairs.keys.Nodup) : ofPairs pairs = pairs :=
  foldl_put_eq_append h

theorem mem_of_get?_ofPairs {pairs : List (κ × α)} (h : (ofPairs pairs).get? key = some value) :
    (key, value) ∈ pairs := by
  rcases mem_of_get?_foldl_put h with hm | hnil
  · exact hm
  · cases hnil

theorem get?_ofPairs {pairs : List (κ × α)} (hunique : ∀ w, (key, w) ∈ pairs → w = value)
    (h : (key, value) ∈ pairs) : (ofPairs pairs).get? key = some value := by
  have hhas : (ofPairs pairs).has key = true :=
    has_foldl_put.mpr (Or.inl (List.mem_map.mpr ⟨_, h, rfl⟩))
  obtain ⟨w, hw⟩ := Option.isSome_iff_exists.mp hhas
  rw [hw, hunique w (mem_of_get?_ofPairs hw)]

theorem get?_filter_keys (keep : κ → Bool) :
    get? (t.filter fun p => keep p.1) key = if keep key then t.get? key else none := by
  induction t with
  | nil => exact (ite_self _).symm
  | cons p rest ih =>
    obtain ⟨k, v⟩ := p
    rw [List.filter_cons]
    by_cases hk : k = key
    · rw [← hk] at ih ⊢
      cases hkeep : keep k with
      | false =>
        rw [hkeep] at ih
        exact ih
      | true => simp [get?]
    · cases hkeep : keep k with
      | false =>
        show get? (rest.filter fun p => keep p.1) key = _
        rw [ih, get?, if_neg hk]
      | true =>
        show get? ((k, v) :: rest.filter fun p => keep p.1) key = _
        rw [get?, if_neg hk, get?, if_neg hk, ih]

/-- Reading a table after its values were changed, where the keys tell which ones stay. -/
theorem get?_filterMap_keys {β γ : Type} (g : κ → Option γ) (f : γ → α → β) :
    get? (t.filterMap fun p => (g p.1).map fun c => (p.1, f c p.2)) key =
      (t.get? key).bind fun v => (g key).map (f · v) := by
  induction t with
  | nil => rfl
  | cons p rest ih =>
    obtain ⟨k, v⟩ := p
    rw [List.filterMap_cons, get?]
    by_cases hk : k = key
    · subst hk
      rw [if_pos rfl]
      cases hg : g k with
      | none =>
        rw [hg] at ih
        exact ih.trans (Option.bind_fun_none _)
      | some c => exact if_pos rfl
    · rw [if_neg hk, ← ih]
      cases hg : g k with
      | none => rfl
      | some c => exact if_neg hk

/-! ### Tables that agree member by member -/

section

variable {β : Type} {R : κ → α → β → Prop} {u : Table κ β}

theorem get?_of_forall₂ (h : List.Forall₂ (fun m n => m.1 = n.1 ∧ R m.1 m.2 n.2) t u) (key : κ) :
    (∀ v, t.get? key = some v → ∃ w, R key v w ∧ u.get? key = some w) ∧
      (t.get? key = none → u.get? key = none) := by
  induction h with
  | nil => exact ⟨fun v hv => (by cases hv), fun _ => rfl⟩
  | @cons m n members merged hmn _ ih =>
    obtain ⟨k, v⟩ := m
    obtain ⟨k', w⟩ := n
    obtain ⟨rfl, hR⟩ : k = k' ∧ R k v w := hmn
    rw [get?, get?]
    by_cases hk : k = key
    · rw [if_pos hk, if_pos hk]
      refine ⟨?_, fun h => by cases h⟩
      intro v' hv
      exact ⟨w, hk ▸ Option.some.inj hv ▸ hR, rfl⟩
    · rw [if_neg hk, if_neg hk]
      exact ih

omit [DecidableEq κ] in
theorem keys_of_forall₂ (h : List.Forall₂ (fun m n => m.1 = n.1 ∧ R m.1 m.2 n.2) t u) :
    u.keys = t.keys := by
  induction h with
  | nil => rfl
  | cons hmn _ ih => exact congrArg₂ List.cons hmn.1.symm ih

end

end DesignTokens.Table
