import DesignTokens.Proofs.Merge.Overlay
import DesignTokens.Proofs.Value.Structure

/-!
# What becomes of the members of two entries

Merging at every depth, merging tokens and merging groups lay the members of the second
entry over those of the first (`deepMembers_eq`, `tokenMembers_eq`, `groupMembers_eq`).
What one member becomes is given by `deepMember`, `tokenMember` and `groupMember`, and
`child_cases` goes through the pairs of entries that can meet below a group.

The walk for conflicts goes through the same pairs.  It finds nothing at two groups
exactly when it finds nothing at the children that both have (`walkMembers_eq_nil_iff`).
-/

namespace DesignTokens

namespace Value

theorem keysDistinct_object {members : Table String Value} :
    (Value.object members).KeysDistinct ↔
      members.keys.Nodup ∧ ∀ m ∈ members, m.2.KeysDistinct := everyObject_object

theorem KeysDistinct.nodup {members : Table String Value}
    (h : (Value.object members).KeysDistinct) :
    members.keys.Nodup := (keysDistinct_object.mp h).1

theorem KeysDistinct.member {members : Table String Value} (h : (Value.object members).KeysDistinct)
    {key : String} {v : Value} (hv : members.get? key = some v) : v.KeysDistinct :=
  (keysDistinct_object.mp h).2 _ (Table.mem_of_get? hv)

@[simp] theorem isToken_object (members : Table String Value) :
    (Value.object members).isToken = members.has valueKey := rfl

@[simp] theorem isGroup_object (members : Table String Value) :
    (Value.object members).isGroup = !members.has valueKey := rfl

theorem eq_object_of_isToken {v : Value} (h : v.isToken = true) :
    ∃ members : Table String Value, v = .object members ∧ members.has valueKey = true := by
  cases v with
  | object members => exact ⟨members, rfl, h⟩
  | _ => cases h

theorem eq_object_of_isGroup {v : Value} (h : v.isGroup = true) :
    ∃ members : Table String Value, v = .object members ∧ members.has valueKey = false := by
  cases v with
  | object members => exact ⟨members, rfl, by simpa using h⟩
  | _ => cases h

end Value

namespace Merge

variable {type inherited : Option Value} {old members result t : Table String Value} {u v w : Value}

/-! ### Merging at every depth -/

def deepMember (old : Table String Value) (key : String) (v : Value) : Value :=
  match old.get? key with
  | some w => deep w v
  | none => v

theorem deepMember_some {key : String} (h : old.get? key = some w) :
    deepMember old key v = deep w v := by
  rw [deepMember, h]

theorem deepMember_none {key : String} (h : old.get? key = none) : deepMember old key v = v := by
  rw [deepMember, h]

theorem deep_objects (old members : Table String Value) :
    deep (.object old) (.object members) = .object (deepMembers old old members) := by
  rw [deep]

theorem deep_of_not_object (h : v.isObject = false ∨ w.isObject = false) : deep v w = w := by
  cases w with
  | object members =>
    cases v with
    | object old => simp [Value.isObject] at h
    | _ => rw [deep]; intro _ h; cases h
  | _ => rw [deep]; intro _ h; cases h

theorem deepMembers_eq :
    deepMembers old result members =
      overlay result (members.map fun m => (m.1, deepMember old m.1 m.2)) := by
  induction members generalizing result with
  | nil => rw [deepMembers]; rfl
  | cons m members ih =>
    obtain ⟨key, v⟩ := m
    rw [deepMembers, ih]
    rfl

/-! ### Merging tokens -/

def tokenMember (type : Option Value) (old : Table String Value) (key : String) (v : Value) :
    Except MergeError Value :=
  if key = valueKey then values type ((old.get? key).getD .null) v
  else .ok (if key = extensionsKey then deep ((old.get? key).getD (.object [])) v else v)

theorem tokenMembers_eq :
    tokenMembers type old result members = overlayWith (tokenMember type old) result members := by
  induction members generalizing result with
  | nil => rfl
  | cons m members ih =>
    obtain ⟨key, v⟩ := m
    rw [tokenMembers, overlayWith_cons, tokenMember]
    by_cases hk : key = valueKey
    · rw [if_pos hk, if_pos hk]
      exact bind_congr fun merged => ih
    · rw [if_neg hk, if_neg hk]
      exact ih

theorem tokens_eq_ok_iff :
    tokens inherited old members = .ok u ↔
      ∃ t, overlayWith (tokenMember (pairType old members inherited) old) old members = .ok t ∧
        .object t = u := by
  rw [tokens, tokenMembers_eq, Value.map_eq_ok]

theorem values_of_not_object (h : v.isObject = false ∨ w.isObject = false) :
    values type v w = .ok w := by
  cases w with
  | object members =>
    cases v with
    | object old => simp [Value.isObject] at h
    | _ => rfl
  | _ => cases v <;> rfl

theorem values_objects (h : isTypeName type = true) :
    values type (.object old) (.object members) = .ok (.object (overlay old members)) :=
  if_pos h

/-! ### Merging groups -/

def groupMember (type : Option Value) (old : Table String Value) (key : String) (v : Value) :
    Except MergeError Value :=
  if Conflict.isOwnKey key then .ok (ownMember old key v)
  else
    match old.get? key with
    | some w => child type w v
    | none => .ok v

theorem groupMember_own {key : String} (h : Conflict.isOwnKey key = true) :
    groupMember type old key v = .ok (ownMember old key v) := if_pos h

theorem groupMember_new {key : String} (h : Conflict.isOwnKey key = false)
    (hnone : old.get? key = none) : groupMember type old key v = .ok v := by
  rw [groupMember, h, hnone]
  rfl

theorem groupMember_child {key : String} (h : Conflict.isOwnKey key = false)
    (hw : old.get? key = some w) : groupMember type old key v = child type w v := by
  rw [groupMember, h, hw]
  rfl

theorem groupMembers_eq :
    groupMembers type old result members = overlayWith (groupMember type old) result members := by
  induction members generalizing result with
  | nil => rw [groupMembers, overlayWith]
  | cons m members ih =>
    obtain ⟨key, v⟩ := m
    rw [groupMembers, overlayWith_cons]
    cases hown : Conflict.isOwnKey key with
    | true =>
      rw [groupMember_own hown]
      exact ih
    | false =>
      cases hold : old.get? key with
      | none =>
        rw [groupMember_new hown hold]
        exact ih
      | some w =>
        rw [groupMember_child hown hold]
        exact bind_congr fun merged => ih

theorem isOwnKey_typeKey : Conflict.isOwnKey typeKey = true := by decide

theorem ownMember_type (v : Value) :
    ownMember old typeKey v = if v.isVacant then (old.get? typeKey).getD .null else v := if_pos rfl

/-! ### Children that both groups have -/

theorem child_of_tokens (hold : old.has valueKey = true) (hmembers : members.has valueKey = true) :
    child inherited (.object old) (.object members) = tokens inherited old members := by
  rw [child]
  simp only [hold, hmembers, if_true]

theorem child_of_groups (hold : old.has valueKey = false)
    (hmembers : members.has valueKey = false) :
    child inherited (.object old) (.object members) =
      (groupMembers (pairType old members inherited) old old members).map .object := by
  rw [child]
  simp only [hold, hmembers, Bool.false_eq_true, if_false]

theorem child_of_mixed (htokens : (v.isToken && w.isToken) = false)
    (hgroups : (v.isGroup && w.isGroup) = false) : child inherited v w = .ok w := by
  cases w with
  | object members =>
    cases v with
    | object old =>
      rw [Value.isToken_object, Value.isToken_object] at htokens
      rw [Value.isGroup_object, Value.isGroup_object] at hgroups
      rw [child]
      cases hold : Table.has old valueKey with
      | true =>
        have hmembers : Table.has members valueKey = false := by simpa [hold] using htokens
        simp only [hmembers, if_true, Bool.false_eq_true, if_false]
      | false =>
        have hmembers : Table.has members valueKey = true := by simpa [hold] using hgroups
        simp only [hmembers, if_true, Bool.false_eq_true, if_false]
    | _ => rw [child]; intro _ h; cases h
  | _ => rw [child]; intro _ h; cases h

/-- Two children are two tokens, two groups, or the second one replaces the first. -/
theorem child_cases (h : child inherited v w = .ok u) :
    (∃ old members : Table String Value, v = .object old ∧ w = .object members ∧
      old.has valueKey = true ∧ members.has valueKey = true ∧
        tokens inherited old members = .ok u) ∨
      (∃ old members t : Table String Value, v = .object old ∧ w = .object members ∧
        old.has valueKey = false ∧ members.has valueKey = false ∧
          overlayWith (groupMember (pairType old members inherited) old) old members = .ok t ∧
            u = .object t) ∨
      ((v.isToken && w.isToken) = false ∧ (v.isGroup && w.isGroup) = false ∧ u = w) := by
  cases htokens : v.isToken && w.isToken with
  | true =>
    rw [Bool.and_eq_true] at htokens
    obtain ⟨old, rfl, hold⟩ := Value.eq_object_of_isToken htokens.1
    obtain ⟨members, rfl, hmembers⟩ := Value.eq_object_of_isToken htokens.2
    rw [child_of_tokens hold hmembers] at h
    exact Or.inl ⟨old, members, rfl, rfl, hold, hmembers, h⟩
  | false =>
    cases hgroups : v.isGroup && w.isGroup with
    | true =>
      rw [Bool.and_eq_true] at hgroups
      obtain ⟨old, rfl, hold⟩ := Value.eq_object_of_isGroup hgroups.1
      obtain ⟨members, rfl, hmembers⟩ := Value.eq_object_of_isGroup hgroups.2
      rw [child_of_groups hold hmembers, groupMembers_eq] at h
      cases ht : overlayWith (groupMember (pairType old members inherited) old) old members with
      | error e =>
        rw [ht] at h
        cases h
      | ok t =>
        rw [ht] at h
        exact Or.inr (Or.inl ⟨old, members, t, rfl, rfl, hold, hmembers, ht,
          (Except.ok.inj h).symm⟩)
    | false =>
      rw [child_of_mixed htokens hgroups] at h
      exact Or.inr (Or.inr ⟨rfl, rfl, (Except.ok.inj h).symm⟩)

end Merge

/-! ### The walk for conflicts -/

namespace Conflict

variable {inherited : Option Value} {old members others : Table String Value} {v w : Value}
  {path : String}

theorem walk_of_tokens (hold : old.has valueKey = true) (hmembers : members.has valueKey = true) :
    walk (.object members) path inherited (.object old) =
      ofTokens (.object old) (.object members) path inherited := by
  rw [walk]
  simp only [Value.isToken_object, hold, hmembers, if_true]

theorem walk_of_groups (hold : old.has valueKey = false) (hmembers : members.has valueKey = false) :
    walk (.object members) path inherited (.object old) =
      walkMembers members path (Merge.pairType old members inherited) old := by
  rw [walk]
  simp only [Value.isToken_object, hold, hmembers, Bool.false_eq_true, if_false]
  rfl

theorem walk_of_token_group (hold : old.has valueKey = true)
    (hmembers : members.has valueKey = false) :
    walk (.object members) path inherited (.object old) =
      [⟨displayPath path, .tokenAndGroup true, .object old, .object members⟩] := by
  rw [walk]
  simp [hold, hmembers]

theorem walk_of_group_token (hold : old.has valueKey = false)
    (hmembers : members.has valueKey = true) :
    walk (.object members) path inherited (.object old) =
      [⟨displayPath path, .tokenAndGroup false, .object old, .object members⟩] := by
  rw [walk]
  simp [hold, hmembers]

theorem walk_ne_nil (h : old.has valueKey ≠ members.has valueKey) :
    walk (.object members) path inherited (.object old) ≠ [] := by
  cases hold : old.has valueKey with
  | true =>
    rw [walk_of_token_group hold (by simpa [hold] using h.symm)]
    exact List.cons_ne_nil _ _
  | false =>
    rw [walk_of_group_token hold (by simpa [hold] using h.symm)]
    exact List.cons_ne_nil _ _

/-- What is no object is in no conflict. -/
theorem walk_of_not_object (h : v.isObject = false ∨ w.isObject = false) :
    walk w path inherited v = [] := by
  cases v with
  | object old =>
    cases w with
    | object members => simp [Value.isObject] at h
    | _ =>
      rw [walk]
      · simp [Value.isToken, Value.isGroup]
      · intro _ h
        cases h
  | _ =>
    rw [walk]
    intro _ h
    cases h

theorem walkMembers_eq_nil_iff {members : List (String × Value)} :
    walkMembers others path inherited members = [] ↔
      ∀ m ∈ members, isOwnKey m.1 = false → ∀ w, others.get? m.1 = some w →
        walk w (joinPath path m.1) inherited m.2 = [] := by
  induction members with
  | nil => simp [walkMembers]
  | cons m members ih =>
    obtain ⟨key, v⟩ := m
    rw [walkMembers, List.append_eq_nil_iff, ih, List.forall_mem_cons]
    refine and_congr_left fun _ => ?_
    cases hown : isOwnKey key with
    | true => simp
    | false =>
      cases hget : others.get? key with
      | none => simp
      | some w => simp

end Conflict

/-! ### Documents -/

namespace Merge

variable {old members : Table String Value} {a b c : Value}

theorem unchecked_objects :
    unchecked (.object old) (.object members) =
      (overlayWith (groupMember (pairType old members none) old) old members).map .object := by
  rw [← groupMembers_eq]
  rfl

theorem documents_eq_ok_iff :
    documents a b = .ok c ↔ Conflict.between a b = [] ∧ unchecked a b = .ok c := by
  unfold documents
  cases Conflict.between a b with
  | nil => simp
  | cons first others => simp

end Merge

end DesignTokens
