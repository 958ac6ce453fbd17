import DesignTokens.Merge.Combine
import DesignTokens.Proofs.Table
import Mathlib.Data.List.Forall2

/-!
# Laying one table over another

Every kind of merge stores members over an older table, one after the other.  A key of
the older table keeps its place and the new keys come last (`keys_overlay`); a member
that is stored is what is read, and under any other key the older table shows
(`get?_overlay`).  What is stored may itself depend on the older table, and storing it
may fail: `overlayWith` is the common form, and `Laid` says what a success looks like.
-/

namespace DesignTokens

namespace Value

theorem firstStated_cases {values : List (Option Value)} {w : Value}
    (h : firstStated values = some w) : some w ∈ values ∧ w.isVacant = false := by
  obtain ⟨v, hm, he⟩ := List.exists_of_findSome?_eq_some h
  obtain ⟨rfl, hstated⟩ := Option.filter_eq_some_iff.mp he
  exact ⟨hm, by simpa using hstated⟩

end Value

namespace Table

variable {κ α : Type} [DecidableEq κ] {t u : Table κ α} {key : κ} {value : α}

theorem put_eq_self (h : t.get? key = some value) : t.put key value = t := by
  induction t with
  | nil => cases h
  | cons p rest ih =>
    obtain ⟨k, v⟩ := p
    rw [get?] at h
    by_cases hk : k = key
    · rw [if_pos hk] at h
      rw [put, if_pos hk, Option.some.inj h]
    · rw [if_neg hk] at h
      rw [put, if_neg hk, ih h]

theorem mem_keys_put {other : κ} :
    other ∈ (t.put key value).keys ↔ other = key ∨ other ∈ t.keys := by
  rw [← has_iff_mem_keys, has_put, has_iff_mem_keys]

theorem nodup_keys_put (h : t.keys.Nodup) : (t.put key value).keys.Nodup := by
  by_cases hk : key ∈ t.keys
  · rwa [keys_put_of_mem t value hk]
  · rw [keys_put_of_not_mem t value hk, List.nodup_append]
    refine ⟨h, List.nodup_singleton key, ?_⟩
    intro a ha b hb
    rw [List.mem_singleton.mp hb]
    rintro rfl
    exact hk ha

/-- Tables with the same keys in the same order and the same values are equal. -/
theorem ext_get? (hkeys : t.keys = u.keys) (hnodup : t.keys.Nodup)
    (h : ∀ key ∈ t.keys, t.get? key = u.get? key) : t = u := by
  induction t generalizing u with
  | nil =>
    cases u with
    | nil => rfl
    | cons q u => cases hkeys
  | cons p t ih =>
    obtain ⟨k, v⟩ := p
    cases u with
    | nil => cases hkeys
    | cons q u =>
      obtain ⟨k', w⟩ := q
      obtain ⟨rfl, hrest⟩ : k = k' ∧ keys t = keys u := List.cons.inj hkeys
      obtain ⟨hk, hnodup⟩ := List.nodup_cons.mp hnodup
      have hhead := h k List.mem_cons_self
      rw [get?, get?, if_pos rfl, if_pos rfl] at hhead
      rw [Option.some.inj hhead]
      refine congrArg (List.cons (k, w)) (ih hrest hnodup fun key hm => ?_)
      have hne : k ≠ key := fun he => hk (he ▸ hm)
      have htail := h key (List.mem_cons_of_mem _ hm)
      rwa [get?, get?, if_neg hne, if_neg hne] at htail

end Table

namespace Merge

variable {κ α ε : Type} [DecidableEq κ] {a b : Table κ α} {key : κ}

@[simp] theorem overlay_nil : overlay a [] = a := rfl

@[simp] theorem overlay_cons (p : κ × α) :
    overlay a (p :: b) = overlay (a.put p.1 p.2) b := rfl

theorem overlay_append (t a b : Table κ α) :
    overlay t (a ++ b) = overlay (overlay t a) b := List.foldl_append

theorem get?_overlay (hb : b.keys.Nodup) :
    (overlay a b).get? key = (b.get? key).or (a.get? key) := Table.get?_foldl_put hb

theorem overlay_eq_append (h : (a.keys ++ b.keys).Nodup) : overlay a b = a ++ b :=
  Table.foldl_put_eq_append h

/-- The older keys keep their order, and the new ones follow in theirs. -/
theorem keys_overlay (hb : b.keys.Nodup) :
    (overlay a b).keys = a.keys ++ b.keys.filter (· ∉ a.keys) := by
  induction b generalizing a with
  | nil => simp [Table.keys]
  | cons p b ih =>
    obtain ⟨k, v⟩ := p
    obtain ⟨hk, hb⟩ := List.nodup_cons.mp hb
    have hkeys : Table.keys ((k, v) :: b) = k :: Table.keys b := rfl
    rw [overlay_cons, ih hb, hkeys]
    by_cases he : k ∈ a.keys
    · rw [Table.keys_put_of_mem a v he, List.filter_cons_of_neg (by simpa using he)]
    · have hrest : (Table.keys b).filter (fun key => decide (key ∉ (a.put k v).keys)) =
          (Table.keys b).filter (fun key => decide (key ∉ a.keys)) := by
        refine List.filter_congr fun key hm => ?_
        have hne : key ≠ k := fun h => hk (h ▸ hm)
        simp [Table.mem_keys_put, hne]
      rw [hrest, Table.keys_put_of_not_mem a v he, List.filter_cons_of_pos (by simpa using he)]
      simp

theorem nodup_keys_overlay (ha : a.keys.Nodup) : (overlay a b).keys.Nodup := by
  induction b generalizing a with
  | nil => exact ha
  | cons p b ih => exact ih (Table.nodup_keys_put ha)

theorem overlay_eq_self (h : ∀ m ∈ b, a.get? m.1 = some m.2) : overlay a b = a := by
  induction b with
  | nil => rfl
  | cons p b ih =>
    obtain ⟨hp, hb⟩ := List.forall_mem_cons.mp h
    rw [overlay_cons, Table.put_eq_self hp, ih hb]

/-! ### Members that depend on what they are laid over -/

/-- Members stored one after the other, each as what `f` makes of it. -/
def overlayWith (f : κ → α → Except ε α) (result : Table κ α) :
    List (κ × α) → Except ε (Table κ α)
  | [] => .ok result
  | (key, v) :: members => do
    let merged ← f key v
    overlayWith f (result.put key merged) members

variable {f : κ → α → Except ε α} {old result t : Table κ α} {members : List (κ × α)}

theorem overlayWith_cons {v : α} :
    overlayWith f result ((key, v) :: members) =
      (f key v).bind fun merged => overlayWith f (result.put key merged) members := rfl

theorem overlayWith_eq_ok_iff :
    overlayWith f result members = .ok t ↔
      ∃ merged, List.Forall₂ (fun m n => m.1 = n.1 ∧ f m.1 m.2 = .ok n.2) members merged ∧
        overlay result merged = t := by
  induction members generalizing result with
  | nil =>
    rw [overlayWith]
    simp [List.forall₂_nil_left_iff]
  | cons m members ih =>
    obtain ⟨key, v⟩ := m
    rw [overlayWith_cons]
    simp only [List.forall₂_cons_left_iff]
    constructor
    · intro h
      cases hf : f key v with
      | error e =>
        rw [hf] at h
        cases h
      | ok w =>
        rw [hf] at h
        obtain ⟨merged, hmerged, ht⟩ := ih.mp h
        exact ⟨(key, w) :: merged, ⟨(key, w), merged, ⟨rfl, rfl⟩, hmerged, rfl⟩, ht⟩
    · rintro ⟨_, ⟨⟨_, w⟩, merged, ⟨rfl, hf⟩, hmerged, rfl⟩, ht⟩
      rw [show f key v = .ok w from hf]
      exact ih.mpr ⟨merged, hmerged, ht⟩

theorem overlayWith_eq_self
    (h : ∀ m ∈ members, ∃ w, result.get? m.1 = some w ∧ f m.1 m.2 = .ok w) :
    overlayWith f result members = .ok result := by
  induction members with
  | nil => rfl
  | cons m members ih =>
    obtain ⟨⟨w, hw, hf⟩, hmembers⟩ := List.forall_mem_cons.mp h
    rw [overlayWith_cons, hf]
    show overlayWith f (result.put m.1 w) members = _
    rw [Table.put_eq_self hw]
    exact ih hmembers

theorem exists_overlayWith (result : Table κ α) (h : ∀ m ∈ members, ∃ w, f m.1 m.2 = .ok w) :
    ∃ t, overlayWith f result members = .ok t := by
  induction members generalizing result with
  | nil => exact ⟨result, rfl⟩
  | cons m members ih =>
    obtain ⟨⟨w, hw⟩, hmembers⟩ := List.forall_mem_cons.mp h
    obtain ⟨t, ht⟩ := ih (result.put m.1 w) hmembers
    refine ⟨t, ?_⟩
    rw [overlayWith_cons, hw]
    exact ht

/-- A table laid over an older one: where each new member went, and what is left. -/
structure Laid (f : κ → α → Except ε α) (old members t : Table κ α) : Prop where
  keys : t.keys = old.keys ++ members.keys.filter (· ∉ old.keys)
  member : ∀ key v, members.get? key = some v → ∃ w, f key v = .ok w ∧ t.get? key = some w
  rest : ∀ key, members.get? key = none → t.get? key = old.get? key

theorem Laid.has_eq (h : Laid f old members t) (key : κ) :
    t.has key = (old.has key || Table.has members key) := by
  unfold Table.has
  cases hmember : Table.get? members key with
  | none => simp [h.rest key hmember]
  | some v =>
    obtain ⟨w, -, ht⟩ := h.member key v hmember
    simp [ht]

theorem Laid.nodup (h : Laid f old members t) (hold : old.keys.Nodup)
    (hmembers : (Table.keys members).Nodup) : t.keys.Nodup := by
  rw [h.keys]
  refine List.nodup_append.mpr ⟨hold, hmembers.filter _, fun key hk other hm => ?_⟩
  rintro rfl
  simpa [hk] using (List.mem_filter.mp hm).2

/-- What a success looks like. -/
theorem laid_of_overlayWith (hmembers : (Table.keys members).Nodup)
    (h : overlayWith f old members = .ok t) : Laid f old members t := by
  obtain ⟨merged, hmerged, rfl⟩ := overlayWith_eq_ok_iff.mp h
  have hkeys := Table.keys_of_forall₂ (R := fun key v w => f key v = .ok w) hmerged
  have hnodup : (Table.keys merged).Nodup := hkeys ▸ hmembers
  have hget := Table.get?_of_forall₂ (R := fun key v w => f key v = .ok w) hmerged
  refine ⟨?_, ?_, ?_⟩
  · rw [keys_overlay hnodup, hkeys]
  · intro key v hv
    obtain ⟨w, hf, hw⟩ := (hget key).1 v hv
    refine ⟨w, hf, ?_⟩
    rw [get?_overlay hnodup, hw]
    rfl
  · intro key hnone
    rw [get?_overlay hnodup, (hget key).2 hnone]
    rfl

end Merge

end DesignTokens
