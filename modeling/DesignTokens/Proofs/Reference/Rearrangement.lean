import DesignTokens.Proofs.Reference.Inclusion
import DesignTokens.Reference.Problem
import Mathlib.Data.List.Perm.Basic

/-!
# Values whose entries stand in another order

`Value.Rearranged` relates two values that differ in the order of the entries of their
objects, at any depth.  Objects with the same keys and rearranged values are such values
(`Rearranged.of_get?`).  What is read from such values is again rearranged: the members of
objects and the items of lists (`Rearranged.shape`), and so the part below some segments
(`Rearranged.descend`).  Their outermost pointers are the same
(`Rearranged.mem_outerPointers`), and they stay rearranged when these are replaced
(`Rearranged.including`).
-/

namespace DesignTokens

theorem Table.get?_perm {κ α : Type} [DecidableEq κ] {t u : Table κ α} (hkeys : t.keys.Nodup)
    (h : List.Perm t u) (key : κ) : t.get? key = u.get? key := by
  have hother : u.keys.Nodup := (h.map Prod.fst).nodup_iff.mp hkeys
  refine Option.ext fun value => ?_
  constructor
  · exact fun hget => get?_of_mem hother (h.mem_iff.mp (mem_of_get? hget))
  · exact fun hget => get?_of_mem hkeys (h.mem_iff.mpr (mem_of_get? hget))

theorem Table.perm_of_get? {κ α : Type} [DecidableEq κ] {t u : Table κ α} (hkeys : t.keys.Nodup)
    (hkeys' : u.keys.Nodup) (h : ∀ key, t.get? key = u.get? key) : List.Perm t u := by
  rw [List.perm_ext_iff_of_nodup hkeys.of_map hkeys'.of_map]
  rintro ⟨key, value⟩
  constructor
  · exact fun hm => mem_of_get? ((h key).symm.trans (get?_of_mem hkeys hm))
  · exact fun hm => mem_of_get? ((h key).trans (get?_of_mem hkeys' hm))

theorem rel_refl {α : Type} {R : α → α → Prop} (h : ∀ a, R a a) (x : Option α) :
    Option.Rel R x x := by
  cases x with
  | none => exact .none
  | some a => exact .some (h a)

theorem rel_trans {α : Type} (R : α → α → Prop) (h : ∀ {a b c}, R a b → R b c → R a c)
    {x y z : Option α} (hxy : Option.Rel R x y) (hyz : Option.Rel R y z) : Option.Rel R x z := by
  cases hxy with
  | none =>
    cases hyz
    exact .none
  | some hab =>
    cases hyz with
    | some hbc => exact .some (h hab hbc)

theorem rel_imp {α β : Type} {R S : α → β → Prop} {x : Option α} {y : Option β}
    (h : ∀ a b, x = some a → y = some b → R a b → S a b) (hxy : Option.Rel R x y) :
    Option.Rel S x y := by
  cases hxy with
  | none => exact .none
  | some hab => exact .some (h _ _ rfl rfl hab)

theorem rel_eq {α : Type} {x y : Option α} (h : Option.Rel Eq x y) : x = y := by
  cases h with
  | none => rfl
  | some he => rw [he]

theorem rel_isSome {α β : Type} {R : α → β → Prop} {x : Option α} {y : Option β}
    (h : Option.Rel R x y) : x.isSome = y.isSome := by
  cases h with
  | none => rfl
  | some _ => rfl

theorem rel_bind {α β γ δ : Type} {R : α → β → Prop} {S : γ → δ → Prop} {x : Option α}
    {y : Option β} {f : α → Option γ} {g : β → Option δ} (h : Option.Rel R x y)
    (hfg : ∀ a b, x = some a → R a b → Option.Rel S (f a) (g b)) :
    Option.Rel S (x.bind f) (y.bind g) := by
  cases h with
  | none => exact .none
  | some hab => exact hfg _ _ rfl hab

theorem bind_eq_of_rel {α β γ : Type} {R : α → β → Prop} {x : Option α} {y : Option β}
    {f : α → Option γ} {g : β → Option γ} (h : Option.Rel R x y)
    (hfg : ∀ a b, x = some a → R a b → f a = g b) : x.bind f = y.bind g := by
  cases h with
  | none => rfl
  | some hab => exact hfg _ _ rfl hab

namespace Value

/-- A value with the entries of its objects in another order, here and in all its parts. -/
inductive Rearranged : Value → Value → Prop
  | refl (v : Value) : Rearranged v v
  | moved {members others : List (String × Value)} : (members.map Prod.fst).Nodup →
      members.Perm others → Rearranged (.object members) (.object others)
  | member {front back : List (String × Value)} {key : String} {v w : Value} : Rearranged v w →
      Rearranged (.object (front ++ (key, v) :: back)) (.object (front ++ (key, w) :: back))
  | item {front back : List Value} {v w : Value} : Rearranged v w →
      Rearranged (.list (front ++ v :: back)) (.list (front ++ w :: back))
  | trans {u v w : Value} : Rearranged u v → Rearranged v w → Rearranged u w

namespace Rearranged

variable {v w x : Value} {members others : List (String × Value)} {key : String}

theorem symm (h : v.Rearranged w) : w.Rearranged v := by
  induction h with
  | refl v => exact .refl v
  | moved hkeys hperm => exact .moved ((hperm.map Prod.fst).nodup_iff.mp hkeys) hperm.symm
  | member _ ih => exact .member ih
  | item _ ih => exact .item ih
  | trans _ _ ih ih' => exact ih'.trans ih

/-! ### Objects member by member -/

/-- Members that are rearranged one by one. -/
theorem append_members (front : List (String × Value))
    (h : List.Forall₂ (fun m n => m.1 = n.1 ∧ m.2.Rearranged n.2) members others) :
    (Value.object (front ++ members)).Rearranged (.object (front ++ others)) := by
  induction h generalizing front with
  | nil => exact .refl _
  | @cons m n members others hmn _ ih =>
    obtain ⟨key, v⟩ := m
    obtain ⟨_, w⟩ := n
    obtain ⟨rfl, hvw⟩ := hmn
    have hrest := ih (front ++ [(key, w)])
    rw [List.append_assoc, List.append_assoc] at hrest
    exact (Rearranged.member hvw).trans hrest

/-- Objects with the same keys and rearranged values are rearranged. -/
theorem of_get? (hkeys : (members.map Prod.fst).Nodup) (hkeys' : (others.map Prod.fst).Nodup)
    (h : ∀ key, Option.Rel Rearranged (Table.get? members key) (Table.get? others key)) :
    (Value.object members).Rearranged (.object others) := by
  -- the values change first, then the members move
  let changed := members.map fun m => (m.1, (Table.get? others m.1).getD m.2)
  let R : String → Value → Value → Prop := fun key v w =>
    v.Rearranged w ∧ Table.get? others key = some w
  have hvalues : List.Forall₂ (fun m n => m.1 = n.1 ∧ R m.1 m.2 n.2) members changed := by
    refine List.forall₂_map_right_iff.mpr (List.forall₂_same.mpr fun m hm => ?_)
    have hrel := h m.1
    rw [Table.get?_of_mem hkeys hm] at hrel
    cases hget : Table.get? others m.1 with
    | none =>
      rw [hget] at hrel
      cases hrel
    | some w =>
      rw [hget] at hrel
      cases hrel with
      | some hvw => exact ⟨rfl, hvw, hget⟩
  have hchanged : (Table.keys changed).Nodup := by
    rw [Table.keys_of_forall₂ hvalues]
    exact hkeys
  have hread : ∀ key, Table.get? changed key = Table.get? others key := by
    intro key
    obtain ⟨hsome, hnone⟩ := Table.get?_of_forall₂ hvalues key
    have hrel := h key
    cases hget : Table.get? members key with
    | none =>
      rw [hget] at hrel
      generalize Table.get? others key = x at hrel ⊢
      cases hrel
      exact hnone hget
    | some v =>
      obtain ⟨w, ⟨-, hw⟩, hchanged⟩ := hsome v hget
      rw [hchanged, hw]
  exact (append_members [] (hvalues.imp fun _ _ hmn => ⟨hmn.1, hmn.2.1⟩)).trans
    (.moved hchanged (Table.perm_of_get? hchanged hkeys' hread))

/-! ### What is read -/

theorem rel_get?_member {front back : List (String × Value)} (h : v.Rearranged w) (other : String) :
    Option.Rel Rearranged (Table.get? (front ++ (key, v) :: back) other)
      (Table.get? (front ++ (key, w) :: back) other) := by
  induction front with
  | nil =>
    rw [List.nil_append, List.nil_append, Table.get?, Table.get?]
    split
    · exact .some h
    · exact rel_refl refl _
  | cons m front ih =>
    rw [List.cons_append, List.cons_append, Table.get?, Table.get?]
    split
    · exact .some (.refl _)
    · exact ih

theorem rel_getElem?_item {front back : List Value} (h : v.Rearranged w) (n : Nat) :
    Option.Rel Rearranged (front ++ v :: back)[n]? (front ++ w :: back)[n]? := by
  induction front generalizing n with
  | nil =>
    cases n with
    | zero => exact .some h
    | succ n => exact rel_refl refl _
  | cons u front ih =>
    cases n with
    | zero => exact .some (.refl u)
    | succ n => exact ih n

/-- Rearranged values are objects with rearranged members, lists with rearranged items, or one
value. -/
theorem shape (h : v.Rearranged w) :
    (∃ members others, v = .object members ∧ w = .object others ∧
      ∀ key, Option.Rel Rearranged (Table.get? members key) (Table.get? others key)) ∨
    (∃ items others, v = .list items ∧ w = .list others ∧
      ∀ n : Nat, Option.Rel Rearranged items[n]? others[n]?) ∨ v = w := by
  induction h with
  | refl v => exact Or.inr (Or.inr rfl)
  | moved hkeys hperm =>
    refine Or.inl ⟨_, _, rfl, rfl, fun key => ?_⟩
    rw [Table.get?_perm hkeys hperm]
    exact rel_refl refl _
  | member h _ => exact Or.inl ⟨_, _, rfl, rfl, rel_get?_member h⟩
  | item h _ => exact Or.inr (Or.inl ⟨_, _, rfl, rfl, rel_getElem?_item h⟩)
  | trans _ _ ih ih' =>
    rcases ih with ⟨members, middle, rfl, rfl, hrel⟩ | ⟨items, middle, rfl, rfl, hrel⟩ | rfl
    · rcases ih' with ⟨_, others, hm, rfl, hrel'⟩ | ⟨_, _, hm, -, -⟩ | rfl
      · cases hm
        exact Or.inl ⟨_, _, rfl, rfl, fun key => rel_trans Rearranged .trans (hrel key) (hrel' key)⟩
      · cases hm
      · exact Or.inl ⟨_, _, rfl, rfl, hrel⟩
    · rcases ih' with ⟨_, _, hm, -, -⟩ | ⟨_, others, hm, rfl, hrel'⟩ | rfl
      · cases hm
      · cases hm
        exact Or.inr
          (Or.inl ⟨_, _, rfl, rfl, fun n => rel_trans Rearranged .trans (hrel n) (hrel' n)⟩)
      · exact Or.inr (Or.inl ⟨_, _, rfl, rfl, hrel⟩)
    · exact ih'

theorem rel_get? (h : (Value.object members).Rearranged (.object others)) (key : String) :
    Option.Rel Rearranged (Table.get? members key) (Table.get? others key) := by
  rcases h.shape with ⟨_, _, he, he', hrel⟩ | ⟨_, _, he, -, -⟩ | he
  · cases he
    cases he'
    exact hrel key
  · cases he
  · cases he
    exact rel_refl refl _

theorem exists_members (h : (Value.object members).Rearranged w) :
    ∃ others, w = .object others := by
  rcases h.shape with ⟨_, others, -, rfl, -⟩ | ⟨_, _, he, -, -⟩ | rfl
  · exact ⟨others, rfl⟩
  · cases he
  · exact ⟨members, rfl⟩

theorem isObject_eq (h : v.Rearranged w) : v.isObject = w.isObject := by
  rcases h.shape with ⟨_, _, rfl, rfl, -⟩ | ⟨_, _, rfl, rfl, -⟩ | rfl
  · rfl
  · rfl
  · rfl

theorem text?_eq (h : v.Rearranged w) : v.text? = w.text? := by
  rcases h.shape with ⟨_, _, rfl, rfl, -⟩ | ⟨_, _, rfl, rfl, -⟩ | rfl
  · rfl
  · rfl
  · rfl

theorem pointerOf?_eq (h : (Value.object members).Rearranged (.object others)) :
    pointerOf? members = pointerOf? others := by
  unfold pointerOf?
  exact bind_eq_of_rel (h.rel_get? pointerKey) fun _ _ _ hvalue => hvalue.text?_eq

theorem has_eq (h : (Value.object members).Rearranged (.object others)) (key : String) :
    Table.has members key = Table.has others key :=
  rel_isSome (h.rel_get? key)

theorem getD_get? (h : (Value.object members).Rearranged (.object others)) (key : String) :
    ((Table.get? members key).getD .null).Rearranged ((Table.get? others key).getD .null) := by
  have hrel := h.rel_get? key
  generalize Table.get? members key = a at hrel ⊢
  generalize Table.get? others key = b at hrel ⊢
  cases hrel with
  | none => exact .refl .null
  | some hvalue => exact hvalue

/-- The part of a rearranged value is rearranged. -/
theorem descend {raw : String} {segments : List String} (h : v.Rearranged w)
    (hx : Pointer.descend raw v segments = .ok (.ok x)) :
    ∃ y, Pointer.descend raw w segments = .ok (.ok y) ∧ x.Rearranged y := by
  induction segments generalizing v w with
  | nil =>
    have hself : ∀ u, Pointer.descend raw u [] = .ok (.ok u) := fun u => by cases u <;> rfl
    rw [hself] at hx
    cases Except.ok.inj (Except.ok.inj hx)
    exact ⟨w, hself w, h⟩
  | cons segment rest ih =>
    rcases h.shape with ⟨members, others, rfl, rfl, hrel⟩ | ⟨items, others, rfl, rfl, hrel⟩ | rfl
    · have hrel := hrel segment
      rw [Pointer.descend] at hx ⊢
      generalize Table.get? members segment = a at hx hrel
      generalize Table.get? others segment = b at hrel ⊢
      cases hrel with
      | none => cases Except.ok.inj hx
      | some hvalue => exact ih hvalue hx
    · rw [Pointer.descend] at hx ⊢
      cases hindex : Pointer.index segment with
      | none =>
        rw [hindex] at hx
        cases Except.ok.inj hx
      | unreadable =>
        rw [hindex] at hx
        cases hx
      | place n =>
        rw [hindex] at hx
        have hrel := hrel n
        dsimp only at hx ⊢
        generalize items[n]? = a at hx hrel
        generalize others[n]? = b at hrel ⊢
        cases hrel with
        | none => cases Except.ok.inj hx
        | some hvalue => exact ih hvalue hx
    · exact ⟨x, hx, .refl x⟩

/-! ### All objects -/

/-- A property of the objects in a value that does not depend on the order of entries. -/
theorem everyObject {P : List (String × Value) → Prop}
    (hmoved : ∀ {members others}, members.Perm others → P members → P others)
    (hmember : ∀ {front back key v w}, v.Rearranged w → P (front ++ (key, v) :: back) →
      P (front ++ (key, w) :: back)) (h : v.Rearranged w) (hv : v.EveryObject P) :
    w.EveryObject P := by
  induction h with
  | refl v => exact hv
  | moved _ hperm =>
    obtain ⟨hhere, hbelow⟩ := everyObject_object.mp hv
    exact everyObject_object.mpr ⟨hmoved hperm hhere, fun m hm => hbelow m (hperm.mem_iff.mpr hm)⟩
  | @member front back key v w h ih =>
    obtain ⟨hhere, hbelow⟩ := everyObject_object.mp hv
    refine everyObject_object.mpr ⟨hmember h hhere, fun m hm => ?_⟩
    have hnew := ih (hbelow (key, v) (List.mem_append_right _ List.mem_cons_self))
    rcases List.mem_append.mp hm with hm | hm
    · exact hbelow m (List.mem_append_left _ hm)
    · rcases List.mem_cons.mp hm with rfl | hm
      · exact hnew
      · exact hbelow m (List.mem_append_right _ (List.mem_cons_of_mem _ hm))
  | @item front back v w _ ih =>
    have hitems := everyObject_list.mp hv
    refine everyObject_list.mpr fun u hu => ?_
    rcases List.mem_append.mp hu with hu | hu
    · exact hitems u (List.mem_append_left _ hu)
    · rcases List.mem_cons.mp hu with rfl | hu
      · exact ih (hitems v (List.mem_append_right _ List.mem_cons_self))
      · exact hitems u (List.mem_append_right _ (List.mem_cons_of_mem _ hu))
  | trans _ _ ih ih' => exact ih' (ih hv)

theorem keysDistinct (h : v.Rearranged w) (hv : v.KeysDistinct) : w.KeysDistinct := by
  refine h.everyObject (fun hperm hnodup => (hperm.map Prod.fst).nodup_iff.mp hnodup) ?_ hv
  intro front back key v w _ hnodup
  rw [List.map_append, List.map_cons] at hnodup ⊢
  exact hnodup

theorem refsAreTexts (h : v.Rearranged w) (hv : v.RefsAreTexts) : w.RefsAreTexts := by
  refine h.everyObject (fun hperm hall m hm => hall m (hperm.mem_iff.mpr hm)) ?_ hv
  intro front back key v w hvalue hall m hm hkey
  rcases List.mem_append.mp hm with hm | hm
  · exact hall m (List.mem_append_left _ hm) hkey
  · rcases List.mem_cons.mp hm with rfl | hm
    · obtain ⟨s, hs⟩ := hall (key, v) (List.mem_append_right _ List.mem_cons_self) hkey
      have htext := hvalue.text?_eq
      rw [show v = .text s from hs] at htext
      cases w with
      | text s' => exact ⟨s', rfl⟩
      | _ => cases htext
    · exact hall m (List.mem_append_right _ (List.mem_cons_of_mem _ hm)) hkey

/-! ### Pointers -/

theorem mem_outerPointers {ref : String} (h : v.Rearranged w) :
    ref ∈ v.outerPointers ↔ ref ∈ w.outerPointers := by
  induction h with
  | refl v => exact Iff.rfl
  | @moved members others hkeys hperm =>
    have hpointer := (moved hkeys hperm).pointerOf?_eq
    cases hp : pointerOf? members with
    | some other => rw [outerPointers_pointer hp, outerPointers_pointer (hpointer ▸ hp)]
    | none =>
      rw [outerPointers_object hp, outerPointers_object (hpointer ▸ hp), List.mem_flatMap,
        List.mem_flatMap]
      simp only [hperm.mem_iff]
  | @member front back key v w h ih =>
    have hpointer := (@member front back key v w h).pointerOf?_eq
    cases hp : pointerOf? (front ++ (key, v) :: back) with
    | some other => rw [outerPointers_pointer hp, outerPointers_pointer (hpointer ▸ hp)]
    | none =>
      rw [outerPointers_object hp, outerPointers_object (hpointer ▸ hp)]
      simp only [List.flatMap_append, List.flatMap_cons, List.mem_append, ih]
  | item h ih =>
    rw [outerPointers_list, outerPointers_list]
    simp only [List.flatMap_append, List.flatMap_cons, List.mem_append, ih]
  | trans _ _ ih ih' => exact ih.trans ih'

theorem including_same (h : v.Rearranged w) (part : String → Option Value) :
    (v.including part).Rearranged (w.including part) := by
  induction h with
  | refl v => exact .refl _
  | @moved members others hkeys hperm =>
    have hpointer := (moved hkeys hperm).pointerOf?_eq
    cases hp : pointerOf? members with
    | some ref =>
      rw [including_pointer hp, including_pointer (hpointer ▸ hp)]
      cases part ref with
      | none => exact .moved hkeys hperm
      | some u => exact .refl u
    | none =>
      rw [including_object hp, including_object (hpointer ▸ hp)]
      refine .moved ?_ (hperm.map _)
      rw [List.map_map]
      exact hkeys
  | @member front back key v w h ih =>
    have hpointer := (@member front back key v w h).pointerOf?_eq
    cases hp : pointerOf? (front ++ (key, v) :: back) with
    | some ref =>
      rw [including_pointer hp, including_pointer (hpointer ▸ hp)]
      cases part ref with
      | none => exact .member h
      | some u => exact .refl u
    | none =>
      rw [including_object hp, including_object (hpointer ▸ hp), List.map_append, List.map_append,
        List.map_cons, List.map_cons]
      exact .member ih
  | item h ih =>
    rw [including_list, including_list, List.map_append, List.map_append, List.map_cons,
      List.map_cons]
    exact .item ih
  | trans _ _ ih ih' => exact ih.trans ih'

theorem map_items {f g : Value → Value} {items : List Value}
    (h : ∀ v ∈ items, (f v).Rearranged (g v)) (front : List Value) :
    (Value.list (front ++ items.map f)).Rearranged (.list (front ++ items.map g)) := by
  induction items generalizing front with
  | nil => exact .refl _
  | cons v items ih =>
    obtain ⟨hv, hitems⟩ := List.forall_mem_cons.mp h
    have hrest := ih hitems (front ++ [g v])
    rw [List.append_assoc, List.append_assoc] at hrest
    exact (item hv).trans hrest

theorem map_members {f g : Value → Value} (h : ∀ m ∈ members, (f m.2).Rearranged (g m.2))
    (front : List (String × Value)) :
    (Value.object (front ++ members.map fun m => (m.1, f m.2))).Rearranged
      (.object (front ++ members.map fun m => (m.1, g m.2))) := by
  induction members generalizing front with
  | nil => exact .refl _
  | cons m members ih =>
    obtain ⟨hm, hmembers⟩ := List.forall_mem_cons.mp h
    have hrest := ih hmembers (front ++ [(m.1, g m.2)])
    rw [List.append_assoc, List.append_assoc] at hrest
    exact (member hm).trans hrest

theorem including_parts {part other : String → Option Value}
    (h : ∀ ref ∈ v.outerPointers, Option.Rel Rearranged (part ref) (other ref)) :
    (v.including part).Rearranged (v.including other) := by
  induction v using inductionOn with
  | list items ih =>
    rw [outerPointers_list] at h
    rw [including_list, including_list]
    refine map_items (fun v hv => ih v hv fun ref href => ?_) []
    exact h ref (List.mem_flatMap.mpr ⟨v, hv, href⟩)
  | object members ih =>
    cases hp : pointerOf? members with
    | some ref =>
      rw [outerPointers_pointer hp] at h
      rw [including_pointer hp, including_pointer hp]
      have hrel := h ref List.mem_cons_self
      generalize part ref = a at hrel ⊢
      generalize other ref = b at hrel ⊢
      cases hrel with
      | none => exact .refl _
      | some hpart => exact hpart
    | none =>
      rw [outerPointers_object hp] at h
      rw [including_object hp, including_object hp]
      refine map_members (fun m hm => ih m hm fun ref href => ?_) []
      exact h ref (List.mem_flatMap.mpr ⟨m, hm, href⟩)
  | _ =>
    simp only [Value.including]
    exact .refl _

theorem including {part other : String → Option Value} (h : v.Rearranged w)
    (hparts : ∀ ref ∈ v.outerPointers, Option.Rel Rearranged (part ref) (other ref)) :
    (v.including part).Rearranged (w.including other) :=
  (including_parts hparts).trans (h.including_same other)

end Rearranged

end Value

end DesignTokens
