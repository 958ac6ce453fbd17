import DesignTokens.Merge.Keyed
import DesignTokens.Proofs.Merge.Members

/-!
# Groups under the texts of their keys

A merge of two groups reads both under the texts of their keys.  Merging and walking go
over the members of the second group once, and what they find under one text is then
stored under it, the last one winning; this is the same as going over the members under
their texts (`groupMembers_eq`, `walkMembers_eq`).  From there on a merge of groups lays
one table over another, as it does where all keys are texts.

A number is never written with a dollar sign, so the members that belong to the group
itself are found under the same key before and after (`get?_textKeys_own`).
-/

namespace DesignTokens

namespace Table

variable {κ α β : Type} [DecidableEq κ] {t : Table κ α} {key : κ}

/-- Keys are renamed one to one, and values change with them. -/
theorem put_map_keys {ι : Type} [DecidableEq ι] {k : κ → ι} (hk : Function.Injective k)
    (g : κ → α → β) (value : α) :
    put (t.map fun p => (k p.1, g p.1 p.2)) (k key) (g key value) =
      (t.put key value).map fun p => (k p.1, g p.1 p.2) := by
  induction t with
  | nil => rfl
  | cons p t ih =>
    obtain ⟨other, v⟩ := p
    rw [List.map_cons, put, put]
    by_cases he : other = key
    · subst he
      rw [if_pos rfl, if_pos rfl, List.map_cons]
    · rw [if_neg he, if_neg fun h => he (hk h), List.map_cons, ih]

theorem get?_map_keys {ι : Type} [DecidableEq ι] {k : κ → ι} (hk : Function.Injective k)
    (g : κ → α → β) :
    get? (t.map fun p => (k p.1, g p.1 p.2)) (k key) = (t.get? key).map (g key) := by
  induction t with
  | nil => rfl
  | cons p t ih =>
    obtain ⟨other, v⟩ := p
    rw [List.map_cons, get?, get?]
    by_cases he : other = key
    · subst he
      rw [if_pos rfl, if_pos rfl]
      rfl
    · rw [if_neg he, if_neg fun h => he (hk h), ih]

theorem put_map (g : κ → α → β) (value : α) :
    put (t.map fun p => (p.1, g p.1 p.2)) key (g key value) =
      (t.put key value).map fun p => (p.1, g p.1 p.2) :=
  put_map_keys Function.injective_id g value

theorem get?_map (g : κ → α → β) :
    get? (t.map fun p => (p.1, g p.1 p.2)) key = (t.get? key).map (g key) :=
  get?_map_keys Function.injective_id g

/-- What is made of each value may be made before the pairs are stored or after. -/
theorem ofPairs_map (g : κ → α → β) (pairs : List (κ × α)) :
    ofPairs (pairs.map fun p => (p.1, g p.1 p.2)) =
      (ofPairs pairs).map fun p => (p.1, g p.1 p.2) := by
  have hfold : ∀ t : Table κ α,
      (pairs.map fun p => (p.1, g p.1 p.2)).foldl (fun t p => put t p.1 p.2)
        (t.map fun p => (p.1, g p.1 p.2)) =
      (pairs.foldl (fun t p => t.put p.1 p.2) t).map fun p => (p.1, g p.1 p.2) := by
    induction pairs with
    | nil => exact fun t => rfl
    | cons p pairs ih =>
      intro t
      rw [List.map_cons, List.foldl_cons, List.foldl_cons, put_map, ih]
  exact hfold []

theorem nodup_keys_ofPairs (pairs : List (κ × α)) : (ofPairs pairs).keys.Nodup := by
  have hfold : ∀ t : Table κ α, t.keys.Nodup →
      (keys (pairs.foldl (fun t p => t.put p.1 p.2) t)).Nodup := by
    induction pairs with
    | nil => exact fun t ht => ht
    | cons p pairs ih => exact fun t ht => ih _ (nodup_keys_put ht)
  exact hfold [] List.nodup_nil

omit [DecidableEq κ] in
theorem keys_map (g : κ → α → β) : keys (t.map fun p => (p.1, g p.1 p.2)) = t.keys := by
  rw [keys, keys, List.map_map]
  rfl

end Table

/-! ### Keys -/

theorem Conflict.isOwnKey_iff {key : String} :
    isOwnKey key = true ↔ ∃ rest, key.toList = '$' :: rest := by
  unfold isOwnKey
  split
  · rename_i rest h
    exact ⟨fun _ => ⟨rest, h⟩, fun _ => rfl⟩
  · rename_i h
    exact ⟨fun h => (by cases h), fun ⟨rest, hrest⟩ => absurd hrest (h rest)⟩

namespace Key

theorem text_injective : Function.Injective Key.text := fun _ _ h => Key.text.inj h

/-- A number does not begin with a dollar sign. -/
theorem isOwnKey_toString (n : Int) : Conflict.isOwnKey (toString n) = false := by
  rw [Bool.eq_false_iff]
  intro hown
  obtain ⟨rest, hrest⟩ := Conflict.isOwnKey_iff.mp hown
  cases n with
  | ofNat m =>
    have hmem : '$' ∈ (Nat.repr m).toList := by
      change (Nat.repr m).toList = _ at hrest
      rw [hrest]
      exact List.mem_cons_self
    rw [Nat.toList_repr] at hmem
    exact absurd (Nat.isDigit_of_mem_toDigits (by decide) (by decide) hmem) (by decide)
  | negSucc m =>
    change ("-" ++ (m + 1).repr).toList = _ at hrest
    rw [String.toList_append] at hrest
    exact absurd (List.cons.inj hrest).1 (by decide)

theorem eq_text_of_isOwnKey {k : Key} (h : Conflict.isOwnKey k.spelling = true) :
    k = .text k.spelling := by
  cases k with
  | text s => rfl
  | number n _ =>
    rw [spelling, isOwnKey_toString] at h
    cases h

end Key

theorem Merge.isOwnKey_valueKey : Conflict.isOwnKey valueKey = true := by decide

namespace Keyed

@[elab_as_elim]
theorem inductionOn {motive : Keyed → Prop} (scalar : ∀ s, motive (.scalar s))
    (list : ∀ items, (∀ v ∈ items, motive v) → motive (.list items))
    (object : ∀ members, (∀ m ∈ members, motive m.2) → motive (.object members)) :
    ∀ v, motive v := by
  refine @Keyed.rec motive (fun items => ∀ v ∈ items, motive v)
    (fun members => ∀ m ∈ members, motive m.2) (fun m => motive m.2)
    scalar list object ?_ ?_ ?_ ?_ fun _ _ h => h
  · exact fun _ h => absurd h List.not_mem_nil
  · exact fun first items hfirst hitems => List.forall_mem_cons.mpr ⟨hfirst, hitems⟩
  · exact fun _ h => absurd h List.not_mem_nil
  · exact fun first members hfirst hmembers => List.forall_mem_cons.mpr ⟨hfirst, hmembers⟩

variable {first members : List (Key × Keyed)} {t : Table String Keyed} {key : String} {v w : Keyed}

/-! ### The texts of the keys -/

theorem nodup_keys_textKeys (members : List (Key × Keyed)) : (textKeys members).keys.Nodup :=
  Table.nodup_keys_ofPairs _

theorem exists_mem_of_get?_textKeys (h : (textKeys members).get? key = some v) :
    ∃ m ∈ members, m.1.spelling = key ∧ m.2 = v := by
  obtain ⟨m, hm, he⟩ := List.mem_map.mp (Table.mem_of_get?_ofPairs h)
  exact ⟨m, hm, congrArg Prod.fst he, congrArg Prod.snd he⟩

/-- The members of the group itself are found under the same keys. -/
theorem get?_textKeys_own (hkeys : (Table.keys members).Nodup)
    (hown : Conflict.isOwnKey key = true) :
    (textKeys members).get? key = Table.get? members (.text key) := by
  have htext : ∀ m ∈ members, m.1.spelling = key → m.1 = .text key := by
    rintro m - rfl
    exact Key.eq_text_of_isOwnKey hown
  cases hget : Table.get? members (.text key) with
  | none =>
    refine Option.eq_none_iff_forall_ne_some.mpr fun v hv => ?_
    obtain ⟨m, hm, hspelling, -⟩ := exists_mem_of_get?_textKeys hv
    refine Table.get?_eq_none_iff.mp hget (List.mem_map.mpr ⟨m, hm, htext m hm hspelling⟩)
  | some v =>
    refine Table.get?_ofPairs (fun w hw => ?_)
      (List.mem_map.mpr ⟨(.text key, v), Table.mem_of_get? hget, rfl⟩)
    obtain ⟨m, hm, he⟩ := List.mem_map.mp hw
    obtain ⟨hspelling, rfl⟩ : m.1.spelling = key ∧ m.2 = w := Prod.mk.inj he
    have hmem : (Key.text key, m.2) ∈ members := htext m hm hspelling ▸ hm
    exact Option.some.inj ((Table.get?_of_mem hkeys hmem).symm.trans hget)

theorem has_textKeys_value (members : List (Key × Keyed)) :
    (textKeys members).has valueKey = Table.has members (.text valueKey) := by
  rw [Bool.eq_iff_iff, Table.has_iff_mem_keys members, textKeys, Table.ofPairs,
    Table.has_foldl_put]
  simp only [Table.keys, List.map_map, List.mem_map, Function.comp_apply]
  constructor
  · rintro (⟨m, hm, hspelling⟩ | hnil)
    · refine ⟨m, hm, ?_⟩
      have hown : Conflict.isOwnKey m.1.spelling = true := hspelling ▸ Merge.isOwnKey_valueKey
      rw [Key.eq_text_of_isOwnKey hown, hspelling]
    · cases hnil
  · rintro ⟨m, hm, hkey⟩
    exact Or.inl ⟨m, hm, by rw [hkey]; rfl⟩

theorem textKeys_map_text (h : t.keys.Nodup) :
    textKeys (t.map fun m => (.text m.1, m.2)) = t := by
  have hmap : (t.map fun m => (Key.text m.1, m.2)).map (fun m => (m.1.spelling, m.2)) = t := by
    rw [List.map_map]
    exact List.map_id t
  rw [textKeys, hmap, Table.ofPairs_eq_self h]

theorem get?_map_text (t : Table String Keyed) (key : String) :
    Table.get? (t.map fun m => (Key.text m.1, m.2)) (.text key) = t.get? key :=
  (Table.get?_map_keys Key.text_injective fun _ v => v).trans Option.map_id'

theorem nodup_keys_map_text (h : t.keys.Nodup) :
    (Table.keys (t.map fun m => (Key.text m.1, m.2))).Nodup := by
  have hkeys : Table.keys (t.map fun m => (Key.text m.1, m.2)) = t.keys.map Key.text := by
    rw [Table.keys, Table.keys, List.map_map, List.map_map]
    rfl
  rw [hkeys]
  exact h.map Key.text_injective

theorem has_map_text (t : Table String Keyed) :
    Table.has (t.map fun m => (Key.text m.1, m.2)) (.text valueKey) = t.has valueKey := by
  rw [Table.has, get?_map_text]
  rfl

@[simp] theorem isToken_ofTable (t : Table String Keyed) :
    (ofTable t).isToken = t.has valueKey := has_map_text t

@[simp] theorem typeOf_ofTable (t : Table String Keyed) : (ofTable t).typeOf = t.get? typeKey :=
  get?_map_text t typeKey

/-! ### Merging at every depth -/

def deepMember (old : Table Key Keyed) (key : Key) (v : Keyed) : Keyed :=
  match old.get? key with
  | some w => deep w v
  | none => v

theorem deepMember_some {old : Table Key Keyed} {key : Key} (h : old.get? key = some w) :
    deepMember old key v = deep w v := by
  rw [deepMember, h]

theorem deepMember_none {old : Table Key Keyed} {key : Key} (h : old.get? key = none) :
    deepMember old key v = v := by
  rw [deepMember, h]

theorem deep_objects (old members : Table Key Keyed) :
    deep (.object old) (.object members) = .object (deepMembers old old members) := by
  rw [deep]

theorem deep_cases (v w : Keyed) :
    (∃ old members, v = .object old ∧ w = .object members) ∨ deep v w = w := by
  cases w with
  | object members =>
    cases v with
    | object old => exact Or.inl ⟨old, members, rfl, rfl⟩
    | _ => exact Or.inr (by rw [deep]; intro _ h; cases h)
  | _ => exact Or.inr (by rw [deep]; intro _ h; cases h)

theorem deepMembers_eq {old result : Table Key Keyed} :
    deepMembers old result members =
      Merge.overlay result (members.map fun m => (m.1, deepMember old m.1 m.2)) := by
  induction members generalizing result with
  | nil => rw [deepMembers]; rfl
  | cons m members ih =>
    obtain ⟨key, v⟩ := m
    rw [deepMembers, ih]
    rfl

/-! ### Merging tokens -/

def tokenMember (type : Option Keyed) (old : Table Key Keyed) (key : Key) (v : Keyed) :
    Except (MergeError Keyed) Keyed :=
  if key = .text valueKey then values type ((old.get? key).getD (.scalar .null)) v
  else
    .ok (if key = .text Merge.extensionsKey then deep ((old.get? key).getD (.object [])) v else v)

theorem tokenMembers_eq {type : Option Keyed} {old result : Table Key Keyed} :
    tokenMembers type old result members =
      Merge.overlayWith (tokenMember type old) result members := by
  induction members generalizing result with
  | nil => rfl
  | cons m members ih =>
    obtain ⟨key, v⟩ := m
    rw [tokenMembers, Merge.overlayWith_cons, tokenMember]
    by_cases hk : key = .text valueKey
    · rw [if_pos hk, if_pos hk]
      exact bind_congr fun merged => ih
    · rw [if_neg hk, if_neg hk]
      exact ih

def tokenType (old members : Table Key Keyed) (inherited : Option Keyed) : Option Keyed :=
  firstStated [members.get? (.text typeKey), old.get? (.text typeKey), inherited]

theorem tokens_eq_ok_iff {old members : Table Key Keyed} {inherited : Option Keyed} {u : Keyed} :
    tokens inherited old members = .ok u ↔
      ∃ t, Merge.overlayWith (tokenMember (tokenType old members inherited) old) old members =
        .ok t ∧ .object t = u := by
  rw [tokens, tokenMembers_eq, Value.map_eq_ok]
  rfl

theorem values_objects {type : Option Keyed} {old members : Table Key Keyed}
    (h : isTypeName type = true) :
    values type (.object old) (.object members) = .ok (.object (Merge.overlay old members)) :=
  if_pos h

theorem values_cases (type : Option Keyed) (v w : Keyed) :
    (∃ old members, v = .object old ∧ w = .object members) ∨ values type v w = .ok w := by
  cases w with
  | object members =>
    cases v with
    | object old => exact Or.inl ⟨old, members, rfl, rfl⟩
    | _ => exact Or.inr rfl
  | _ => cases v <;> exact Or.inr rfl

/-! ### Merging groups -/

variable {type inherited : Option Keyed} {old : Table String Keyed} {u : Keyed} {path : String}

def groupMember (type : Option Keyed) (old : Table String Keyed) (key : String) (v : Keyed) :
    Except (MergeError Keyed) Keyed :=
  if Conflict.isOwnKey key then .ok (ownMember old key v)
  else
    match old.get? key with
    | some w => child type w v
    | none => .ok v

theorem groupMember_own (h : Conflict.isOwnKey key = true) :
    groupMember type old key v = .ok (ownMember old key v) := if_pos h

theorem groupMember_new (h : Conflict.isOwnKey key = false) (hnone : old.get? key = none) :
    groupMember type old key v = .ok v := by
  rw [groupMember, h, hnone]
  rfl

theorem groupMember_child (h : Conflict.isOwnKey key = false) (hw : old.get? key = some w) :
    groupMember type old key v = child type w v := by
  rw [groupMember, h, hw]
  rfl

theorem lay_eq {f : String → Keyed → Except (MergeError Keyed) Keyed} {result : Table String Keyed}
    (t : Table String Keyed) :
    lay result (t.map fun m => (m.1, f m.1 m.2)) = Merge.overlayWith f result t := by
  induction t generalizing result with
  | nil => rfl
  | cons m t ih =>
    rw [List.map_cons, lay, Merge.overlayWith_cons]
    exact bind_congr fun merged => ih

theorem groupMembers_eq_map :
    groupMembers type old members =
      (members.map fun m => (m.1.spelling, m.2)).map fun m =>
        (m.1, groupMember type old m.1 m.2) := by
  rw [List.map_map]
  induction members with
  | nil => rw [groupMembers, List.map_nil]
  | cons m members ih =>
    obtain ⟨key, v⟩ := m
    rw [groupMembers, List.map_cons, ih]
    rfl

theorem groupMembers_eq :
    lay old (Table.ofPairs (groupMembers type old members)) =
      Merge.overlayWith (groupMember type old) old (textKeys members) := by
  rw [groupMembers_eq_map, Table.ofPairs_map, lay_eq]
  rfl

def pairType (old members : Table String Keyed) (inherited : Option Keyed) : Option Keyed :=
  firstStated [members.get? typeKey, old.get? typeKey, inherited]

theorem child_of_tokens (hfirst : Table.has first (.text valueKey) = true)
    (hmembers : Table.has members (.text valueKey) = true) :
    child inherited (.object first) (.object members) = tokens inherited first members := by
  rw [child]
  simp only [hfirst, hmembers, if_true]

theorem child_of_groups (hfirst : Table.has first (.text valueKey) = false)
    (hmembers : Table.has members (.text valueKey) = false) :
    child inherited (.object first) (.object members) =
      (Merge.overlayWith (groupMember (pairType (textKeys first) (textKeys members) inherited)
        (textKeys first)) (textKeys first) (textKeys members)).map ofTable := by
  rw [child]
  simp only [hfirst, hmembers, Bool.false_eq_true, if_false]
  rw [groupMembers_eq]
  rfl

theorem child_of_mixed (htokens : (v.isToken && w.isToken) = false)
    (hgroups : (v.isGroup && w.isGroup) = false) : child inherited v w = .ok w := by
  cases w with
  | object members =>
    cases v with
    | object first =>
      rw [isToken, isToken] at htokens
      rw [isGroup, isGroup] at hgroups
      rw [child]
      cases hfirst : Table.has first (.text valueKey) with
      | true =>
        have hmembers : Table.has members (.text valueKey) = false := by
          simpa [hfirst] using htokens
        simp only [hmembers, if_true, Bool.false_eq_true, if_false]
      | false =>
        have hmembers : Table.has members (.text valueKey) = true := by
          simpa [hfirst] using hgroups
        simp only [hmembers, if_true, Bool.false_eq_true, if_false]
    | _ => rw [child]; intro _ h; cases h
  | _ => rw [child]; intro _ h; cases h

theorem eq_object_of_isToken (h : v.isToken = true) :
    ∃ members, v = .object members ∧ Table.has members (.text valueKey) = true := by
  cases v with
  | object members => exact ⟨members, rfl, h⟩
  | _ => cases h

theorem eq_object_of_isGroup (h : v.isGroup = true) :
    ∃ members, v = .object members ∧ Table.has members (.text valueKey) = false := by
  cases v with
  | object members => exact ⟨members, rfl, by simpa [isGroup] using h⟩
  | _ => cases h

/-- Two children are two tokens, two groups, or the second one replaces the first. -/
theorem child_cases (h : child inherited v w = .ok u) :
    (∃ first members, v = .object first ∧ w = .object members ∧
      Table.has first (.text valueKey) = true ∧ Table.has members (.text valueKey) = true ∧
        tokens inherited first members = .ok u) ∨
      (∃ first members t, v = .object first ∧ w = .object members ∧
        Table.has first (.text valueKey) = false ∧ Table.has members (.text valueKey) = false ∧
          Merge.overlayWith (groupMember (pairType (textKeys first) (textKeys members) inherited)
            (textKeys first)) (textKeys first) (textKeys members) = .ok t ∧ ofTable t = u) ∨
      ((v.isToken && w.isToken) = false ∧ (v.isGroup && w.isGroup) = false ∧ u = w) := by
  cases htokens : v.isToken && w.isToken with
  | true =>
    rw [Bool.and_eq_true] at htokens
    obtain ⟨first, rfl, hfirst⟩ := eq_object_of_isToken htokens.1
    obtain ⟨members, rfl, hmembers⟩ := eq_object_of_isToken htokens.2
    rw [child_of_tokens hfirst hmembers] at h
    exact Or.inl ⟨first, members, rfl, rfl, hfirst, hmembers, h⟩
  | false =>
    cases hgroups : v.isGroup && w.isGroup with
    | true =>
      rw [Bool.and_eq_true] at hgroups
      obtain ⟨first, rfl, hfirst⟩ := eq_object_of_isGroup hgroups.1
      obtain ⟨members, rfl, hmembers⟩ := eq_object_of_isGroup hgroups.2
      rw [child_of_groups hfirst hmembers, Value.map_eq_ok] at h
      obtain ⟨t, ht, hu⟩ := h
      exact Or.inr (Or.inl ⟨first, members, t, rfl, rfl, hfirst, hmembers, ht, hu⟩)
    | false =>
      rw [child_of_mixed htokens hgroups] at h
      exact Or.inr (Or.inr ⟨rfl, rfl, (Except.ok.inj h).symm⟩)

theorem unchecked_objects (first members : List (Key × Keyed)) :
    unchecked (.object first) (.object members) =
      (Merge.overlayWith (groupMember (pairType (textKeys first) (textKeys members) none)
        (textKeys first)) (textKeys first) (textKeys members)).map ofTable := by
  rw [← groupMembers_eq]
  rfl

/-! ### The walk for conflicts -/

def walkMember (others : Table String Keyed) (path : String) (inherited : Option Keyed)
    (key : String) (v : Keyed) : List (Conflict Keyed) :=
  if Conflict.isOwnKey key then []
  else
    match others.get? key with
    | some w => walk w (Conflict.joinPath path key) inherited v
    | none => []

theorem walkMembers_eq_map {others : Table String Keyed} :
    walkMembers others path inherited members =
      (members.map fun m => (m.1.spelling, m.2)).map fun m =>
        (m.1, walkMember others path inherited m.1 m.2) := by
  rw [List.map_map]
  induction members with
  | nil => rw [walkMembers, List.map_nil]
  | cons m members ih =>
    obtain ⟨key, v⟩ := m
    rw [walkMembers, List.map_cons, ih]
    rfl

theorem walkMembers_eq {others : Table String Keyed} :
    (Table.ofPairs (walkMembers others path inherited members)).flatMap Prod.snd =
      (textKeys members).flatMap fun m => walkMember others path inherited m.1 m.2 := by
  rw [walkMembers_eq_map, Table.ofPairs_map, List.flatMap_map]
  rfl

theorem walk_of_tokens (hfirst : Table.has first (.text valueKey) = true)
    (hmembers : Table.has members (.text valueKey) = true) :
    walk (.object members) path inherited (.object first) =
      ofTokens (.object first) (.object members) path inherited := by
  rw [walk]
  simp only [isToken, hfirst, hmembers, if_true]

theorem walk_of_token_group (hfirst : Table.has first (.text valueKey) = true)
    (hmembers : Table.has members (.text valueKey) = false) :
    walk (.object members) path inherited (.object first) =
      [⟨Conflict.displayPath path, .tokenAndGroup true, .object first, .object members⟩] := by
  rw [walk]
  simp [isToken, isGroup, hfirst, hmembers]

theorem walk_of_group_token (hfirst : Table.has first (.text valueKey) = false)
    (hmembers : Table.has members (.text valueKey) = true) :
    walk (.object members) path inherited (.object first) =
      [⟨Conflict.displayPath path, .tokenAndGroup false, .object first, .object members⟩] := by
  rw [walk]
  simp [isToken, hfirst, hmembers]

/-- What is no object is in no conflict. -/
theorem walk_of_not_object (h : ∀ members, w ≠ .object members) :
    walk w path inherited v = [] := by
  cases v with
  | object first =>
    cases w with
    | object members => exact absurd rfl (h members)
    | _ =>
      rw [walk]
      · simp [isToken, isGroup]
      · intro _ h
        cases h
  | _ =>
    rw [walk]
    intro _ h
    cases h

theorem walk_of_groups (hfirst : Table.has first (.text valueKey) = false)
    (hmembers : Table.has members (.text valueKey) = false) :
    walk (.object members) path inherited (.object first) =
      (textKeys first).flatMap fun m => walkMember (textKeys members) path
        (firstStated [typeOf (.object members), typeOf (.object first), inherited]) m.1 m.2 := by
  rw [walk]
  simp only [isToken, hfirst, hmembers, Bool.false_eq_true, if_false]
  exact walkMembers_eq

end Keyed

end DesignTokens
