import DesignTokens.Proofs.Merge.Overlay
import DesignTokens.Proofs.Token.Building
import DesignTokens.Proofs.Token.Outline
import DesignTokens.Token.Document

/-!
# Reading a written tree back

A tree is written as a document by laying its metadata, its extras and its children over
one another.  In a tree that was built of a document these do not get in each other's way
(`Node.Writable`, `Group.writable_build`), and this only depends on the outline of the
tree.  So the document has its tokens where the tree has them, with the values that they
are written with (`Group.tokenAt?_written`).
-/

namespace DesignTokens

/-! ### Keys with a dollar sign -/

theorem metadataKey?_eq_some {key name : String} :
    metadataKey? key = some name ↔ key = "$" ++ name := by
  unfold metadataKey?
  constructor
  · intro h
    split at h
    · rename_i rest hrest
      rw [← Option.some.inj h, ← String.toList_inj, String.toList_append, hrest]
      show '$' :: rest = '$' :: (String.ofList rest).toList
      rw [String.toList_ofList]
    · cases h
  · rintro rfl
    rw [String.toList_append]
    exact congrArg some String.ofList_toList

theorem valueKey_eq : valueKey = "$" ++ "value" := by decide

theorem dollar_inj {a b : String} (h : "$" ++ a = "$" ++ b) : a = b :=
  Option.some.inj ((metadataKey?_eq_some.mpr h).symm.trans (metadataKey?_eq_some.mpr rfl)).symm

/-! ### What has to hold of a tree -/

/-- The extras of a group are no entries. -/
def Label.Plain (label : Label) : Prop :=
  ∀ p ∈ label.extras, metadataKey? p.1 = none ∧ p.2.isObject = false

/-- Metadata that holds no value. -/
def Valueless (metadata : Table String Value) : Prop := ∀ p ∈ metadata, p.1 ≠ "value"

/-- In a tree that can be written nothing gets in the way of a token. -/
structure Node.Writable (n : Node) : Prop where
  token : ∀ place t, n.tokenAt? place = some t → Valueless t.metadata
  group : ∀ place label children, n.at? place = some (.group label children) →
    label.Plain ∧ Valueless label.metadata ∧ ∀ p ∈ children, metadataKey? p.1 = none

/-- The root may have a value among its metadata. -/
structure Group.Writable (g : Group) : Prop where
  plain : g.label.Plain
  keys : ∀ p ∈ g.children, metadataKey? p.1 = none
  below : ∀ p ∈ g.children, p.2.Writable

namespace Node

variable {n m : Node} {label : Label} {children : List (String × Node)}

theorem Writable.child (h : (Node.group label children).Writable)
    (hkeys : (Table.keys children).Nodup) {p : String × Node} (hp : p ∈ children) :
    p.2.Writable where
  token place t ht := h.token (p.1 :: place) t (by
    rw [tokenAt?_group_cons, Table.get?_of_mem hkeys hp]
    exact ht)
  group place below others hat := h.group (p.1 :: place) below others
    (at?_group_cons_eq_some.mpr ⟨p.2, Table.get?_of_mem hkeys hp, hat⟩)

theorem keys_of_outline {others : List (String × Node)}
    (h : outlineChildren children = outlineChildren others)
    (hkeys : ∀ p ∈ others, metadataKey? p.1 = none) : ∀ p ∈ children, metadataKey? p.1 = none := by
  intro p hp
  have hm : p.1 ∈ Table.keys others := by
    rw [← keys_outlineChildren, ← h, keys_outlineChildren]
    exact List.mem_map.mpr ⟨p, hp, rfl⟩
  obtain ⟨q, hq, he⟩ := List.mem_map.mp hm
  rw [← he]
  exact hkeys q hq

theorem Writable.of_outline (h : m.Writable) (he : n.outline = m.outline) : n.Writable where
  token place t ht := by
    obtain ⟨u, hu, hsame⟩ := exists_tokenAt?_of_outline he ht
    rw [Token.metadata_eq_of_outline hsame]
    exact h.token place u hu
  group place label children hat := by
    obtain ⟨d, hd, hsame⟩ := exists_at?_of_outline he hat
    obtain ⟨others, rfl, hchildren⟩ := exists_group_of_outline hsame.symm
    obtain ⟨hplain, hmetadata, hkeys⟩ := h.group place label others hd
    exact ⟨hplain, hmetadata, keys_of_outline hchildren.symm hkeys⟩

end Node

/-! ### Built trees can be written -/

theorem Token.valueless_build (name path : String) (members : Table String Value)
    (parentPath inherited : Option String) :
    Valueless (Token.build name path members parentPath inherited).metadata := by
  intro p hp hvalue
  obtain ⟨⟨key, v⟩, -, he⟩ := List.mem_filterMap.mp hp
  dsimp only at he
  split at he
  · cases he
  · rename_i hne
    obtain ⟨name, hname, rfl⟩ := Option.map_eq_some_iff.mp he
    refine hne (Or.inl ?_)
    rw [metadataKey?_eq_some.mp hname, valueKey_eq]
    exact congrArg _ hvalue

theorem Label.plain_build (path : String) (parentPath : Option String)
    (members : Table String Value) : (Label.build path parentPath members).Plain := by
  intro p hp
  have hkeep := (List.mem_filter.mp hp).2
  rw [Bool.and_eq_true] at hkeep
  exact ⟨Option.isNone_iff_eq_none.mp hkeep.1, by simpa using hkeep.2⟩

theorem Label.valueless_build (path : String) (parentPath : Option String)
    {members : Table String Value} (h : members.has valueKey = false) :
    Valueless (Label.build path parentPath members).metadata := by
  intro p hp hvalue
  obtain ⟨⟨key, v⟩, hm, he⟩ := List.mem_filterMap.mp hp
  dsimp only at he
  split at he
  · cases he
  · obtain ⟨name, hname, rfl⟩ := Option.map_eq_some_iff.mp he
    have hkey : key = valueKey := by
      rw [metadataKey?_eq_some.mp hname, valueKey_eq]
      exact congrArg _ hvalue
    have hhas := (Table.has_iff_mem_keys members valueKey).mpr
      (List.mem_map.mpr ⟨(key, v), hm, hkey⟩)
    rw [h] at hhas
    cases hhas

namespace Node

variable {key path parentPath : String} {inherited : Option String} {v : Value} {n c : Node}
  {label : Label} {children : List (String × Node)} {place : Place}

theorem metadataKey?_of_mem_buildChildren {members : List (String × Value)} {p : String × Node}
    (h : p ∈ buildChildren path inherited members) : metadataKey? p.1 = none := by
  induction members with
  | nil => exact absurd h List.not_mem_nil
  | cons m members ih =>
    obtain ⟨key, v⟩ := m
    rw [buildChildren] at h
    split at h
    · exact ih h
    · rename_i hkey
      split at h
      · rcases List.mem_cons.mp h with rfl | h
        · simpa using hkey
        · exact ih h
      · exact ih h

theorem get?_buildChildren_of_some {members : List (String × Value)} {name : String}
    (hkey : metadataKey? key = some name) :
    Table.get? (buildChildren path inherited members) key = none := by
  refine Table.get?_eq_none_iff.mpr fun hmem => ?_
  obtain ⟨m, hm, rfl⟩ := List.mem_map.mp hmem
  rw [metadataKey?_of_mem_buildChildren hm] at hkey
  cases hkey

/-- The child of a group under a key is built of the member under it. -/
theorem get?_buildChildren {members : Table String Value} (hkeys : members.keys.Nodup)
    (hkey : metadataKey? key = none) :
    Table.get? (buildChildren path inherited members) key =
      (members.get? key).bind (build? key (childPath path key) path inherited) := by
  induction members with
  | nil => rfl
  | cons m members ih =>
    obtain ⟨k, v⟩ := m
    obtain ⟨hk, hkeys⟩ := List.nodup_cons.mp hkeys
    rw [buildChildren, Table.get?]
    by_cases he : k = key
    · have hrest : Table.get? (buildChildren path inherited members) key = none := by
        rw [ih hkeys, Table.get?_eq_none_iff.mpr (he ▸ hk)]
        rfl
      rw [if_pos he, he, hkey, Option.isSome_none, if_neg Bool.false_ne_true, Option.bind_some]
      cases hb : build? key (childPath path key) path inherited v with
      | none =>
        dsimp only
        exact hrest
      | some n =>
        dsimp only
        rw [Table.get?, if_pos rfl]
    · rw [if_neg he, ← ih hkeys]
      split
      · rfl
      · split
        · rw [Table.get?, if_neg he]
        · rfl

theorem exists_build?_of_at? (hn : build? key path parentPath inherited v = some n)
    (hc : n.at? place = some c) :
    ∃ key path parentPath inherited w, build? key path parentPath inherited w = some c := by
  induction place generalizing key path parentPath inherited v n with
  | nil =>
    cases Option.some.inj hc
    exact ⟨key, path, parentPath, inherited, v, hn⟩
  | cons next place ih =>
    obtain ⟨members, -, ⟨u, rfl, -⟩ | ⟨label, below, rfl⟩⟩ := build?_eq_some hn
    · cases hc
    · obtain ⟨d, hd, hc⟩ := at?_group_cons_eq_some.mp hc
      obtain ⟨w, -, hb⟩ := mem_of_mem_buildChildren (Table.mem_of_get? hd)
      exact ih hb hc

theorem build?_eq_group
    (h : build? key path parentPath inherited v = some (.group label children)) :
    ∃ (members : Table String Value) (below : Option String), members.has valueKey = false ∧
      label = Label.build path (some parentPath) members ∧
        children = buildChildren path below members := by
  cases v with
  | object members =>
    rw [build?] at h
    dsimp only at h
    split at h
    · cases h
    · rename_i hvalue
      obtain ⟨hlabel, hchildren⟩ := Node.group.inj (Option.some.inj h)
      exact ⟨members, _, by simpa using hvalue, hlabel.symm, hchildren.symm⟩
  | _ => cases h

theorem writable_of_build? (hn : build? key path parentPath inherited v = some n) :
    n.Writable where
  token place t ht := by
    obtain ⟨name, members, parent, inherited, rfl⟩ := tokenAt?_of_build? hn ht
    exact Token.valueless_build _ _ _ _ _
  group place label children hat := by
    obtain ⟨key, path, parentPath, inherited, w, hb⟩ := exists_build?_of_at? hn hat
    obtain ⟨members, below, hvalue, rfl, rfl⟩ := build?_eq_group hb
    exact ⟨Label.plain_build _ _ _, Label.valueless_build _ _ hvalue,
      fun p hp => metadataKey?_of_mem_buildChildren hp⟩

end Node

theorem Group.writable_build (document : Value) : (Group.build document).Writable where
  plain := Label.plain_build _ _ _
  keys _ hp := Node.metadataKey?_of_mem_buildChildren hp
  below _ hp := by
    obtain ⟨v, -, hb⟩ := Node.mem_of_mem_buildChildren hp
    exact Node.writable_of_build? hb

theorem Group.Writable.of_outline {g h : Group} (hg : g.Writable) (hkeys : h.KeysDistinct)
    (he : h.outline = g.outline) : h.Writable := by
  obtain ⟨label, children⟩ := g
  obtain ⟨label', others⟩ := h
  obtain ⟨rfl, hchildren⟩ := Node.group.inj he
  refine ⟨hg.plain, Node.keys_of_outline hchildren hg.keys, fun p hp => ?_⟩
  obtain ⟨d, hd, hsame⟩ :=
    Node.exists_child_of_outline hchildren (Table.get?_of_mem (Node.KeysDistinct.here hkeys) hp)
  exact (hg.below _ (Table.mem_of_get? hd)).of_outline hsame

/-! ### Written members -/

namespace Merge

variable {a b : Table String Value} {key : String}

theorem get?_overlay_of_not_mem (h : key ∉ b.keys) : (overlay a b).get? key = a.get? key := by
  induction b generalizing a with
  | nil => rfl
  | cons p b ih =>
    have hne : key ≠ p.1 := fun he => h (he ▸ List.mem_cons_self)
    rw [overlay_cons, ih fun hm => h (List.mem_cons_of_mem _ hm), Table.get?_put_of_ne a p.2 hne]

end Merge

theorem withMetadata_eq (members metadata : Table String Value) :
    withMetadata members metadata =
      Merge.overlay members (metadata.map fun p => ("$" ++ p.1, p.2)) := by
  unfold withMetadata Merge.overlay
  rw [List.foldl_map]

theorem get?_withMetadata {members metadata : Table String Value} {key : String}
    (h : ∀ p ∈ metadata, "$" ++ p.1 ≠ key) :
    (withMetadata members metadata).get? key = members.get? key := by
  rw [withMetadata_eq]
  refine Merge.get?_overlay_of_not_mem fun hm => ?_
  obtain ⟨q, hq, he⟩ := List.mem_map.mp hm
  obtain ⟨p, hp, rfl⟩ := List.mem_map.mp hq
  exact h p hp he

/-- A value that stands alone in a token is found again. -/
theorem Node.build?_token_written {t : Token} (h : Valueless t.metadata) (resolved : Bool)
    (key path parentPath : String) (inherited inherited' : Option String) :
    ∃ u, build? key path parentPath inherited (t.toValue resolved inherited') = some (.token u) ∧
      u.value = t.writtenValue resolved := by
  have hget : ∀ members : Table String Value,
      (withMetadata ((valueKey, t.writtenValue resolved) :: members) t.metadata).get? valueKey =
        some (t.writtenValue resolved) := by
    intro members
    rw [get?_withMetadata]
    · exact if_pos rfl
    · intro p hp he
      exact h p hp (dollar_inj (he.trans valueKey_eq))
  unfold Token.toValue
  rw [build?]
  dsimp only
  rw [if_pos (by rw [Table.has, hget]; rfl)]
  refine ⟨_, rfl, ?_⟩
  show ((withMetadata _ _).get? valueKey).getD .null = _
  rw [hget]
  rfl

/-- Where a member of a group comes from that is no child. -/
theorem Label.mem_of_get?_members {label : Label} {key : String} {v : Value}
    (h : label.members.get? key = some v) :
    (key, v) ∈ label.extras ∨ (∃ p ∈ label.metadata, key = "$" ++ p.1) ∨ key = typeKey := by
  rcases Table.mem_of_get?_foldl_put h with hm | hm
  · exact Or.inl hm
  · rw [withMetadata_eq] at hm
    rcases Table.mem_of_get?_foldl_put hm with hm | hm
    · obtain ⟨p, hp, he⟩ := List.mem_map.mp hm
      exact Or.inr (Or.inl ⟨p, hp, (congrArg Prod.fst he).symm⟩)
    · refine Or.inr (Or.inr ?_)
      unfold typeMember at hm
      split at hm
      · exact (congrArg Prod.fst (List.mem_singleton.mp (Table.mem_of_get? hm)))
      · cases hm

theorem Label.not_object_of_get?_members {label : Label} (h : label.Plain) {key : String}
    (hkey : metadataKey? key = none) {v : Value} (hv : label.members.get? key = some v) :
    v.isObject = false := by
  rcases label.mem_of_get?_members hv with hm | ⟨p, -, rfl⟩ | rfl
  · exact (h _ hm).2
  · rw [metadataKey?_eq_some.mpr rfl] at hkey
    cases hkey
  · cases hkey

theorem Label.get?_valueKey_members {label : Label} (h : label.Plain)
    (hmetadata : Valueless label.metadata) : label.members.get? valueKey = none := by
  cases hv : label.members.get? valueKey with
  | none => rfl
  | some v =>
    rcases label.mem_of_get?_members hv with hm | ⟨p, hp, he⟩ | he
    · have hkey : metadataKey? valueKey = none := (h _ hm).1
      exact absurd hkey (by decide)
    · exact absurd (dollar_inj (he.symm.trans valueKey_eq)) (hmetadata p hp)
    · exact absurd he (by decide)

theorem Label.nodup_keys_members (label : Label) : label.members.keys.Nodup := by
  have htype : (typeMember (ownTypeText label.ownType)).keys.Nodup := by
    unfold typeMember
    split
    · exact List.nodup_singleton _
    · exact List.nodup_nil
  unfold Label.members
  rw [withMetadata_eq]
  exact Merge.nodup_keys_overlay (Merge.nodup_keys_overlay htype)

namespace Node

variable {label : Label} {children : List (String × Node)} {resolved : Bool}
  {inherited : Option String} {key : String}

theorem putChildren_eq (members : Table String Value) :
    putChildren resolved inherited members children =
      Merge.overlay members (children.map fun p => (p.1, p.2.toValue resolved inherited)) := by
  induction children generalizing members with
  | nil =>
    rw [putChildren]
    rfl
  | cons p children ih =>
    obtain ⟨key, n⟩ := p
    rw [putChildren, ih]
    rfl

theorem keys_map_toValue :
    Table.keys (children.map fun p => (p.1, p.2.toValue resolved inherited)) =
    Table.keys children := by
  unfold Table.keys
  rw [List.map_map]
  rfl

theorem get?_map_toValue (key : String) :
    Table.get? (children.map fun p => (p.1, p.2.toValue resolved inherited)) key =
      (Table.get? children key).map fun n => n.toValue resolved inherited := by
  induction children with
  | nil => rfl
  | cons p children ih =>
    rw [List.map_cons, Table.get?, Table.get?, ih]
    split
    · rfl
    · rfl

theorem get?_putChildren (hkeys : (Table.keys children).Nodup) (members : Table String Value) :
    (putChildren resolved inherited members children).get? key =
      ((Table.get? children key).map fun n => n.toValue resolved inherited).or
        (members.get? key) := by
  rw [putChildren_eq, Merge.get?_overlay (keys_map_toValue ▸ hkeys), get?_map_toValue]

theorem nodup_keys_putChildren (label : Label) :
    (putChildren resolved inherited label.members children).keys.Nodup := by
  rw [putChildren_eq]
  exact Merge.nodup_keys_overlay label.nodup_keys_members

theorem build?_of_not_object {path parentPath : String} {v : Value} (h : v.isObject = false) :
    build? key path parentPath inherited v = none := by
  cases v with
  | object members => cases h
  | _ => rfl

/-- A node that is found again where it was written, with its tokens. -/
def ReadsBack (resolved : Bool) (n : Node) : Prop :=
  ∀ key path parentPath inherited inherited', ∃ m,
    build? key path parentPath inherited (n.toValue resolved inherited') = some m ∧
      ∀ place, (m.tokenAt? place).map Token.value =
        (n.tokenAt? place).map (Token.writtenValue resolved)

/-- The tokens below a written group are found again. -/
theorem tokenAt?_children_written (hplain : label.Plain)
    (hnames : ∀ p ∈ children, metadataKey? p.1 = none) (hkeys : (Table.keys children).Nodup)
    (hchildren : ∀ p ∈ children, p.2.ReadsBack resolved) (path : String)
    (inherited inherited' : Option String) (key : String) (place : Place) :
    ((Table.get? (buildChildren path inherited
        (putChildren resolved inherited' label.members children)) key).bind
          fun c => c.tokenAt? place).map Token.value =
      ((Table.get? children key).bind fun c => c.tokenAt? place).map
        (Token.writtenValue resolved) := by
  cases hkey : metadataKey? key with
  | some name =>
    have hnone : ∀ others : List (String × Node), (∀ p ∈ others, metadataKey? p.1 = none) →
        Table.get? others key = none := by
      intro others hothers
      refine Table.get?_eq_none_iff.mpr fun hm => ?_
      obtain ⟨p, hp, rfl⟩ := List.mem_map.mp hm
      cases hkey.symm.trans (hothers p hp)
    rw [hnone _ hnames, hnone _ fun p hp => metadataKey?_of_mem_buildChildren hp]
    rfl
  | none =>
    rw [get?_buildChildren (nodup_keys_putChildren label) hkey, get?_putChildren hkeys]
    cases hc : Table.get? children key with
    | some c =>
      obtain ⟨m, hm, htokens⟩ := hchildren _ (Table.mem_of_get? hc) key (childPath path key) path
        inherited inherited'
      show Option.map _ (Option.bind (build? _ _ _ _ _) _) = _
      rw [hm]
      exact htokens place
    | none =>
      show Option.map _ (((label.members.get? key).bind _).bind _) = none
      cases hv : label.members.get? key with
      | none => rfl
      | some v =>
        rw [Option.bind_some,
          build?_of_not_object (Label.not_object_of_get?_members hplain hkey hv)]
        rfl

theorem get?_valueKey_putChildren (hplain : label.Plain) (hmetadata : Valueless label.metadata)
    (hnames : ∀ p ∈ children, metadataKey? p.1 = none) (hkeys : (Table.keys children).Nodup) :
    Table.get? (putChildren resolved inherited label.members children) valueKey = none := by
  rw [get?_putChildren hkeys, Label.get?_valueKey_members hplain hmetadata, Option.or_none,
    Option.map_eq_none_iff, Table.get?_eq_none_iff]
  intro hm
  obtain ⟨p, hp, he⟩ := List.mem_map.mp hm
  exact absurd (hnames p hp) (he ▸ by decide)

/-- **A node that can be written is found again.** -/
theorem Writable.readsBack {n : Node} (h : n.Writable) (hkeys : n.KeysDistinct) (resolved : Bool) :
    n.ReadsBack resolved := by
  induction n using inductionOn with
  | token t =>
    intro key path parentPath inherited inherited'
    obtain ⟨u, hu, hvalue⟩ := build?_token_written (h.token [] t rfl) resolved key path parentPath
      inherited inherited'
    refine ⟨.token u, hu, fun place => ?_⟩
    cases place with
    | nil => exact congrArg some hvalue
    | cons next place => rfl
  | group label children ih =>
    intro key path parentPath inherited inherited'
    obtain ⟨hplain, hmetadata, hnames⟩ := h.group [] label children rfl
    have hbelow := fun p hp => ih p hp (h.child hkeys.here hp) (hkeys.child hp)
    rw [toValue, build?]
    dsimp only
    rw [Table.has, get?_valueKey_putChildren hplain hmetadata hnames hkeys.here,
      if_neg (by decide)]
    refine ⟨_, rfl, fun place => ?_⟩
    cases place with
    | nil => rfl
    | cons next place =>
      rw [tokenAt?_group_cons, tokenAt?_group_cons]
      exact tokenAt?_children_written hplain hnames hkeys.here hbelow _ _ _ next place

end Node

/-- **A written tree has its tokens where they were**, with the values that they are written
with. -/
theorem Group.tokenAt?_written {g : Group} (h : g.Writable) (hkeys : g.KeysDistinct)
    (resolved : Bool) (place : Place) :
    ((build (g.toDocument resolved)).tokenAt? place).map Token.value =
      (g.tokenAt? place).map (Token.writtenValue resolved) := by
  obtain ⟨label, children⟩ := g
  cases place with
  | nil => rfl
  | cons key place =>
    have hnodup := Node.KeysDistinct.here hkeys
    have hbelow := fun p hp => (h.below p hp).readsBack (Node.KeysDistinct.child hkeys hp) resolved
    have hgroup : ∀ g : Group, g.tokenAt? (key :: place) =
        (Table.get? g.children key).bind fun c => c.tokenAt? place :=
      fun g => Node.tokenAt?_group_cons
    rw [hgroup, hgroup]
    exact Node.tokenAt?_children_written h.plain h.keys hnodup hbelow _ _ _ key place

end DesignTokens
