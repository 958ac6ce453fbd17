import DesignTokens.Proofs.Token.Writing

/-!
# A written tree is written the same again

In a tree that was built of a document with distinct keys no two members of one object are written
under one key (`Node.Tidy`, `Group.tidy_build`), and this too only depends on the outline of the
tree.  So a group is written as its type, its metadata, its extras and its children, one after the
other (`Node.putChildren_eq_append`).  Reading that back gives a group of the same label and the
same children, and these are written as before, in the same order (`Group.build_written`).
-/

namespace DesignTokens

/-! ### What has to hold of a tree -/

/-- Metadata with distinct names, none of which is the one of the type. -/
structure TidyMetadata (metadata : Table String Value) : Prop where
  nodup : metadata.keys.Nodup
  typeless : ∀ p ∈ metadata, p.1 ≠ "type"

/-- In a tidy tree no member of an object is written over another one. -/
structure Node.Tidy (n : Node) : Prop where
  token : ∀ place t, n.tokenAt? place = some t → TidyMetadata t.metadata
  group : ∀ place label children, n.at? place = some (.group label children) →
    TidyMetadata label.metadata ∧ (Table.keys label.extras ++ Table.keys children).Nodup

theorem typeKey_eq : typeKey = "$" ++ "type" := by decide

theorem valueKey_ne_typeKey : valueKey ≠ typeKey := by decide

namespace Node

variable {n m : Node} {label : Label} {children : List (String × Node)}

theorem tidy_token {t : Token} (h : TidyMetadata t.metadata) : (Node.token t).Tidy where
  token place u hu := by
    cases place with
    | nil => exact Option.some.inj hu ▸ h
    | cons key place => cases hu
  group place label children hat := by
    cases place with
    | nil => cases hat
    | cons key place => cases hat

theorem tidy_group (hmetadata : TidyMetadata label.metadata)
    (hkeys : (Table.keys label.extras ++ Table.keys children).Nodup)
    (hchildren : ∀ p ∈ children, p.2.Tidy) : (Node.group label children).Tidy where
  token place t ht := by
    cases place with
    | nil => cases ht
    | cons key place =>
      rw [tokenAt?_group_cons] at ht
      obtain ⟨c, hc, ht⟩ := Option.bind_eq_some_iff.mp ht
      exact (hchildren _ (Table.mem_of_get? hc)).token place t ht
  group place below others hat := by
    cases place with
    | nil =>
      cases Option.some.inj hat
      exact ⟨hmetadata, hkeys⟩
    | cons key place =>
      obtain ⟨c, hc, hat⟩ := at?_group_cons_eq_some.mp hat
      exact (hchildren _ (Table.mem_of_get? hc)).group place below others hat

theorem Tidy.keys (h : (Node.group label children).Tidy) : (Table.keys children).Nodup :=
  (List.nodup_append.mp (h.group [] label children rfl).2).2.1

theorem Tidy.child (h : (Node.group label children).Tidy) {p : String × Node}
    (hp : p ∈ children) : p.2.Tidy where
  token place t ht := h.token (p.1 :: place) t (by
    rw [tokenAt?_group_cons, Table.get?_of_mem h.keys hp]
    exact ht)
  group place below others hat := h.group (p.1 :: place) below others
    (at?_group_cons_eq_some.mpr ⟨p.2, Table.get?_of_mem h.keys hp, hat⟩)

/-- Only the outline counts. -/
theorem Tidy.of_outline (h : m.Tidy) (he : n.outline = m.outline) : n.Tidy where
  token place t ht := by
    obtain ⟨u, hu, hsame⟩ := exists_tokenAt?_of_outline he ht
    rw [Token.metadata_eq_of_outline hsame]
    exact h.token place u hu
  group place label children hat := by
    obtain ⟨d, hd, hsame⟩ := exists_at?_of_outline he hat
    obtain ⟨others, rfl, hchildren⟩ := exists_group_of_outline hsame.symm
    have hkeys : Table.keys children = Table.keys others := by
      rw [← keys_outlineChildren, ← hchildren, keys_outlineChildren]
    rw [hkeys]
    exact h.group place label others hd

end Node

/-! ### Built trees are tidy -/

/-- Metadata that is made of members with dollar signs is tidy as their keys are distinct. -/
theorem tidy_filterMap {f : String × Value → Option (String × Value)}
    (hf : ∀ m p, f m = some p → m.1 = "$" ++ p.1 ∧ m.1 ≠ typeKey) {members : Table String Value}
    (h : members.keys.Nodup) : TidyMetadata (members.filterMap f) where
  nodup := by
    have hsub : ((Table.keys (members.filterMap f)).map ("$" ++ ·)).Sublist members.keys := by
      unfold Table.keys
      clear h
      induction members with
      | nil => exact List.Sublist.slnil
      | cons m members ih =>
        cases hm : f m with
        | none =>
          rw [List.filterMap_cons_none hm]
          exact ih.cons m.1
        | some p =>
          rw [List.filterMap_cons_some hm, List.map_cons, List.map_cons, List.map_cons,
            ← (hf m p hm).1]
          exact ih.cons_cons m.1
    exact (h.sublist hsub).of_map _
  typeless p hp he := by
    obtain ⟨m, -, hm⟩ := List.mem_filterMap.mp hp
    obtain ⟨hkey, hne⟩ := hf m p hm
    exact hne (by rw [hkey, he, typeKey_eq])

theorem Token.tidy_metadataOf {members : Table String Value} (h : members.keys.Nodup) :
    TidyMetadata (metadataOf members) := by
  refine tidy_filterMap ?_ h
  rintro ⟨key, v⟩ p hp
  dsimp only at hp
  split at hp
  · cases hp
  · rename_i hne
    obtain ⟨name, hname, rfl⟩ := Option.map_eq_some_iff.mp hp
    exact ⟨metadataKey?_eq_some.mp hname, fun he => hne (Or.inr he)⟩

theorem Label.tidy_metadata_build (path : String) (parentPath : Option String)
    {members : Table String Value} (h : members.keys.Nodup) :
    TidyMetadata (Label.build path parentPath members).metadata := by
  refine tidy_filterMap ?_ h
  rintro ⟨key, v⟩ p hp
  dsimp only at hp
  split at hp
  · cases hp
  · rename_i hne
    obtain ⟨name, hname, rfl⟩ := Option.map_eq_some_iff.mp hp
    exact ⟨metadataKey?_eq_some.mp hname, hne⟩

/-- A member is kept as it is or built, and never both. -/
theorem Label.nodup_keys_build (path : String) (parentPath inherited : Option String)
    {members : Table String Value} (h : members.keys.Nodup) :
    (Table.keys (Label.build path parentPath members).extras ++
      Table.keys (Node.buildChildren path inherited members)).Nodup := by
  refine List.nodup_append.mpr ⟨h.sublist (List.filter_sublist.map _),
    h.sublist (Node.keys_buildChildren_sublist _ _ _), ?_⟩
  rintro key hextra _ hchild rfl
  obtain ⟨⟨key, v⟩, hm, rfl⟩ := List.mem_map.mp hextra
  obtain ⟨p, hp, rfl⟩ := List.mem_map.mp hchild
  obtain ⟨hm, hkeep⟩ := List.mem_filter.mp hm
  obtain ⟨w, hw, hb⟩ := Node.mem_of_mem_buildChildren hp
  obtain ⟨others, rfl, -⟩ := Node.build?_eq_some hb
  have hsame := (Table.get?_of_mem h hm).symm.trans (Table.get?_of_mem h hw)
  rw [Option.some.inj hsame] at hkeep
  simp [Value.isObject] at hkeep

theorem Node.tidy_of_build? {key path parentPath : String} {inherited : Option String}
    {v : Value} {n : Node} (hv : v.KeysDistinct)
    (hn : build? key path parentPath inherited v = some n) : n.Tidy := by
  induction v using Value.inductionOn generalizing key path parentPath inherited n with
  | object members ih =>
    obtain ⟨hkeys, hbelow⟩ := Value.everyObject_object.mp hv
    rw [build?] at hn
    dsimp only at hn
    split at hn
    · cases Option.some.inj hn
      exact tidy_token (Token.tidy_metadataOf hkeys)
    · cases Option.some.inj hn
      refine tidy_group (Label.tidy_metadata_build _ _ hkeys)
        (Label.nodup_keys_build _ _ _ hkeys) ?_
      intro p hp
      obtain ⟨w, hw, hb⟩ := mem_of_mem_buildChildren hp
      exact ih _ hw (hbelow _ hw) hb
  | _ => cases hn

theorem Group.tidy_build {document : Value} (h : document.KeysDistinct) :
    (Group.build document).toNode.Tidy := by
  cases document with
  | object members =>
    obtain ⟨hkeys, hbelow⟩ := Value.everyObject_object.mp h
    refine Node.tidy_group (Label.tidy_metadata_build _ _ hkeys)
      (Label.nodup_keys_build _ _ _ hkeys) ?_
    intro p hp
    obtain ⟨v, hv, hb⟩ := Node.mem_of_mem_buildChildren hp
    exact Node.tidy_of_build? (hbelow _ hv) hb
  | _ =>
    exact Node.tidy_group ⟨List.nodup_nil, fun _ hp => absurd hp List.not_mem_nil⟩ List.nodup_nil
      fun _ hp => absurd hp List.not_mem_nil

/-! ### Members one after the other -/

def dollared (metadata : Table String Value) : Table String Value :=
  metadata.map fun p => ("$" ++ p.1, p.2)

theorem keys_dollared (metadata : Table String Value) :
    (dollared metadata).keys = metadata.keys.map ("$" ++ ·) := by
  unfold dollared Table.keys
  rw [List.map_map, List.map_map]
  rfl

theorem exists_of_mem_keys_dollared {metadata : Table String Value} {key : String}
    (h : key ∈ (dollared metadata).keys) : ∃ p ∈ metadata, "$" ++ p.1 = key := by
  rw [keys_dollared] at h
  obtain ⟨name, hname, he⟩ := List.mem_map.mp h
  obtain ⟨p, hp, rfl⟩ := List.mem_map.mp hname
  exact ⟨p, hp, he⟩

theorem withMetadata_eq_overlay (members metadata : Table String Value) :
    withMetadata members metadata = Merge.overlay members (dollared metadata) :=
  withMetadata_eq members metadata

theorem TidyMetadata.nodup_dollared {metadata : Table String Value} (h : TidyMetadata metadata) :
    (dollared metadata).keys.Nodup := by
  rw [keys_dollared]
  exact h.nodup.map fun _ _ => dollar_inj

theorem filterMap_dollared {metadata : Table String Value}
    {f : String × Value → Option (String × Value)}
    (hf : ∀ p ∈ metadata, f ("$" ++ p.1, p.2) = (metadataKey? ("$" ++ p.1)).map (·, p.2)) :
    (dollared metadata).filterMap f = metadata := by
  unfold dollared
  rw [List.filterMap_map]
  refine (List.filterMap_congr fun p hp => ?_).trans List.filterMap_some
  rw [Function.comp_apply, hf p hp, metadataKey?_eq_some.mpr rfl]
  rfl

theorem mem_keys_typeMember {type : Option String} {key : String}
    (h : key ∈ (typeMember type).keys) : key = typeKey := by
  cases type with
  | none => cases h
  | some t => exact List.mem_singleton.mp h

theorem get?_typeKey_typeMember (type : Option String) :
    ((typeMember type).get? typeKey).bind Value.text? = type := by
  cases type with
  | none => rfl
  | some t => rfl

theorem nodup_keys_typeMember (type : Option String) : (typeMember type).keys.Nodup := by
  cases type with
  | none => exact List.nodup_nil
  | some t => exact List.nodup_singleton _

/-! ### Types -/

theorem ownTypeText_ne {type : Option String} : ownTypeText type ≠ some "" := by
  unfold ownTypeText effectiveType
  split
  · exact nofun
  · rename_i t hne
    exact fun he => hne (Option.some.inj he)
  · exact nofun

theorem ownTypeText_of_ne {type : Option String} (h : type ≠ some "") :
    ownTypeText type = type := by
  unfold ownTypeText effectiveType
  split
  · exact absurd rfl h
  · rfl
  · rfl

theorem ownTypeText_twice (type : Option String) :
    ownTypeText (ownTypeText type) = ownTypeText type :=
  ownTypeText_of_ne ownTypeText_ne

theorem effectiveType_ownTypeText (type inherited : Option String) :
    effectiveType (ownTypeText type) inherited = effectiveType type inherited := by
  by_cases h : type = some ""
  · rw [h]
    rfl
  · rw [ownTypeText_of_ne h]

/-- The type with which a token is written. -/
def statedType (type inherited : Option String) : Option String :=
  if ownTypeText type = inherited then none else ownTypeText type

theorem statedType_self (inherited : Option String) : statedType inherited inherited = none := by
  unfold statedType
  by_cases h : inherited = some ""
  · rw [h]
    rfl
  · rw [if_pos (ownTypeText_of_ne h)]

theorem statedType_or (type inherited : Option String) :
    statedType ((statedType type inherited).or inherited) inherited =
      statedType type inherited := by
  unfold statedType
  by_cases he : ownTypeText type = inherited
  · rw [if_pos he]
    exact statedType_self inherited
  · rw [if_neg he]
    cases ho : ownTypeText type with
    | none => exact statedType_self inherited
    | some t =>
      rw [Option.some_or, ownTypeText_of_ne (ho ▸ ownTypeText_ne), if_neg (ho ▸ he)]

/-! ### Tokens -/

theorem toValue_eq (t : Token) (resolved : Bool) (inherited : Option String) :
    t.toValue resolved inherited =
      .object (withMetadata ((valueKey, t.writtenValue resolved) ::
        typeMember (statedType t.type inherited)) t.metadata) := rfl

/-- What a token is written as, member after member. -/
theorem withMetadata_token {metadata : Table String Value} (htidy : TidyMetadata metadata)
    (hvalueless : Valueless metadata) (v : Value) (stated : Option String) :
    withMetadata ((valueKey, v) :: typeMember stated) metadata =
      ((valueKey, v) :: typeMember stated) ++ dollared metadata := by
  have hfront : (Table.keys ((valueKey, v) :: typeMember stated)).Nodup :=
    List.nodup_cons.mpr ⟨fun hm => valueKey_ne_typeKey (mem_keys_typeMember hm),
      nodup_keys_typeMember stated⟩
  rw [withMetadata_eq_overlay]
  refine Merge.overlay_eq_append (List.nodup_append.mpr ⟨hfront, htidy.nodup_dollared, ?_⟩)
  rintro key hkey _ hname rfl
  obtain ⟨p, hp, rfl⟩ := exists_of_mem_keys_dollared hname
  rcases List.mem_cons.mp hkey with he | hm
  · exact hvalueless p hp (dollar_inj (he.trans valueKey_eq))
  · exact htidy.typeless p hp (dollar_inj ((mem_keys_typeMember hm).trans typeKey_eq))

theorem get?_typeKey_dollared {metadata : Table String Value} (h : TidyMetadata metadata) :
    (dollared metadata).get? typeKey = none := by
  refine Table.get?_eq_none_iff.mpr fun hm => ?_
  obtain ⟨p, hp, he⟩ := exists_of_mem_keys_dollared hm
  exact h.typeless p hp (dollar_inj (he.trans typeKey_eq))

theorem Token.metadataOf_written {metadata : Table String Value} (htidy : TidyMetadata metadata)
    (hvalueless : Valueless metadata) (v : Value) (stated : Option String) :
    metadataOf (((valueKey, v) :: typeMember stated) ++ dollared metadata) = metadata := by
  have htype : ∀ f : String × Value → Option (String × Value), (∀ w, f (typeKey, w) = none) →
      (typeMember stated).filterMap f = [] := by
    intro f hf
    cases stated with
    | none => rfl
    | some t => exact List.filterMap_cons_none (hf _)
  unfold metadataOf
  rw [List.filterMap_append, List.filterMap_cons_none (by rfl), htype _ fun w => by rfl,
    List.nil_append]
  refine filterMap_dollared fun p hp => if_neg ?_
  rintro (he | he)
  · exact hvalueless p hp (dollar_inj (he.trans valueKey_eq))
  · exact htidy.typeless p hp (dollar_inj (he.trans typeKey_eq))

/-- A token that is read back is written as before. -/
theorem Token.toValue_written {t : Token} (htidy : TidyMetadata t.metadata)
    (hvalueless : Valueless t.metadata) (resolved : Bool) (key path parentPath : String)
    (inherited : Option String) :
    ∃ u, Node.build? key path parentPath inherited (t.toValue resolved inherited) =
        some (.token u) ∧ u.toValue false inherited = t.toValue resolved inherited := by
  have hmembers := withMetadata_token htidy hvalueless (t.writtenValue resolved)
    (statedType t.type inherited)
  have htype : ((withMetadata ((valueKey, t.writtenValue resolved) ::
      typeMember (statedType t.type inherited)) t.metadata).get? typeKey).bind Value.text? =
        statedType t.type inherited := by
    rw [hmembers, Table.get?_append, get?_typeKey_dollared htidy, Option.or_none, Table.get?,
      if_neg valueKey_ne_typeKey, get?_typeKey_typeMember]
  have hvalue : (withMetadata ((valueKey, t.writtenValue resolved) ::
      typeMember (statedType t.type inherited)) t.metadata).get? valueKey =
        some (t.writtenValue resolved) := by
    rw [hmembers]
    exact if_pos rfl
  rw [toValue_eq t, Node.build?]
  dsimp only
  rw [Table.has, hvalue, if_pos (by rfl)]
  refine ⟨_, rfl, ?_⟩
  show Value.object (withMetadata ((valueKey, ((withMetadata _ _).get? valueKey).getD .null) ::
    typeMember (statedType ((((withMetadata _ _).get? typeKey).bind Value.text?).or inherited)
      inherited)) (metadataOf _)) = _
  rw [htype, hvalue, statedType_or, hmembers, metadataOf_written htidy hvalueless, ← hmembers]
  rfl

/-! ### Groups -/

namespace Node

variable {label : Label} {children : List (String × Node)} {resolved : Bool}
  {path : String} {inherited : Option String}

/-- What a group is written as, member after member. -/
theorem putChildren_eq_append (hplain : label.Plain)
    (hnames : ∀ p ∈ children, metadataKey? p.1 = none) (htidy : TidyMetadata label.metadata)
    (hkeys : (Table.keys label.extras ++ Table.keys children).Nodup) :
    putChildren resolved inherited label.members children =
      typeMember (ownTypeText label.ownType) ++ dollared label.metadata ++ label.extras ++
        children.map fun p => (p.1, p.2.toValue resolved inherited) := by
  have hbare : ∀ key ∈ Table.keys label.extras ++ Table.keys children,
      metadataKey? key = none := by
    intro key hm
    rcases List.mem_append.mp hm with hm | hm
    · obtain ⟨p, hp, rfl⟩ := List.mem_map.mp hm
      exact (hplain p hp).1
    · obtain ⟨p, hp, rfl⟩ := List.mem_map.mp hm
      exact hnames p hp
  have hfront : ((typeMember (ownTypeText label.ownType)).keys ++
      (dollared label.metadata).keys).Nodup := by
    refine List.nodup_append.mpr ⟨nodup_keys_typeMember _, htidy.nodup_dollared, ?_⟩
    rintro key htype _ hm rfl
    obtain ⟨p, hp, he⟩ := exists_of_mem_keys_dollared hm
    exact htidy.typeless p hp
      (dollar_inj ((he.trans (mem_keys_typeMember htype)).trans typeKey_eq))
  have hall : ((typeMember (ownTypeText label.ownType)).keys ++ (dollared label.metadata).keys ++
      (Table.keys label.extras ++ Table.keys children)).Nodup := by
    refine List.nodup_append.mpr ⟨hfront, hkeys, ?_⟩
    rintro key hm _ hother rfl
    have hnone := hbare key hother
    rcases List.mem_append.mp hm with hm | hm
    · rw [mem_keys_typeMember hm] at hnone
      exact absurd hnone (by decide)
    · obtain ⟨p, -, rfl⟩ := exists_of_mem_keys_dollared hm
      rw [metadataKey?_eq_some.mpr rfl] at hnone
      cases hnone
  have hmembers : label.members =
      typeMember (ownTypeText label.ownType) ++ dollared label.metadata ++ label.extras := by
    show Merge.overlay (withMetadata _ _) _ = _
    rw [withMetadata_eq_overlay, Merge.overlay_eq_append hfront, Merge.overlay_eq_append]
    rw [← List.append_assoc] at hall
    rw [Table.keys_append]
    exact (List.nodup_append.mp hall).1
  rw [putChildren_eq, hmembers, Merge.overlay_eq_append]
  rw [Table.keys_append, Table.keys_append, keys_map_toValue, List.append_assoc]
  exact hall

end Node

/-! ### Reading a group back -/

section

variable {stated : Option String} {metadata extras entries : Table String Value} {path : String}
  {parentPath inherited : Option String}

theorem ne_typeKey {key : String} (h : metadataKey? key = none) : key ≠ typeKey := by
  rintro rfl
  exact absurd h (by decide)

theorem get?_typeKey_eq_none {members : Table String Value}
    (h : ∀ m ∈ members, metadataKey? m.1 = none) : members.get? typeKey = none := by
  refine Table.get?_eq_none_iff.mpr fun hm => ?_
  obtain ⟨m, hm, he⟩ := List.mem_map.mp hm
  exact ne_typeKey (h m hm) he

theorem key_of_mem_typeMember {m : String × Value} (h : m ∈ typeMember stated) : m.1 = typeKey :=
  mem_keys_typeMember (List.mem_map.mpr ⟨m, h, rfl⟩)

theorem metadataKey?_of_mem_front {m : String × Value}
    (h : m ∈ typeMember stated ++ dollared metadata) : (metadataKey? m.1).isSome = true := by
  rcases List.mem_append.mp h with hm | hm
  · rw [key_of_mem_typeMember hm]
    rfl
  · obtain ⟨p, -, rfl⟩ := List.mem_map.mp hm
    rw [metadataKey?_eq_some.mpr rfl]
    rfl

theorem Label.ownType_build_parts (htidy : TidyMetadata metadata)
    (hextras : ∀ m ∈ extras, metadataKey? m.1 = none)
    (hentries : ∀ m ∈ entries, metadataKey? m.1 = none) :
    (Label.build path parentPath
      (typeMember stated ++ dollared metadata ++ extras ++ entries)).ownType = stated := by
  show (Table.get? _ typeKey).bind Value.text? = stated
  rw [Table.get?_append, Table.get?_append, Table.get?_append, get?_typeKey_dollared htidy,
    get?_typeKey_eq_none hextras, get?_typeKey_eq_none hentries, Option.or_none, Option.or_none,
    Option.or_none, get?_typeKey_typeMember]

theorem Label.metadata_build_parts (htidy : TidyMetadata metadata)
    (hextras : ∀ m ∈ extras, metadataKey? m.1 = none)
    (hentries : ∀ m ∈ entries, metadataKey? m.1 = none) :
    (Label.build path parentPath
      (typeMember stated ++ dollared metadata ++ extras ++ entries)).metadata = metadata := by
  have hbare : ∀ {members : Table String Value}, (∀ m ∈ members, metadataKey? m.1 = none) →
      (members.filterMap fun m =>
        if m.1 = typeKey then none else (metadataKey? m.1).map (·, m.2)) = [] := by
    intro members h
    refine List.filterMap_eq_nil_iff.mpr fun m hm => ?_
    rw [if_neg (ne_typeKey (h m hm)), h m hm]
    rfl
  show List.filterMap (fun m : String × Value =>
    if m.1 = typeKey then none else (metadataKey? m.1).map (·, m.2)) _ = metadata
  rw [List.filterMap_append, List.filterMap_append, List.filterMap_append, hbare hextras,
    hbare hentries, List.append_nil, List.append_nil,
    List.filterMap_eq_nil_iff.mpr fun m hm => if_pos (key_of_mem_typeMember hm), List.nil_append]
  exact filterMap_dollared fun p hp =>
    if_neg fun he => htidy.typeless p hp (dollar_inj (he.trans typeKey_eq))

theorem Label.extras_build_parts
    (hextras : ∀ m ∈ extras, metadataKey? m.1 = none ∧ m.2.isObject = false)
    (hentries : ∀ m ∈ entries, m.2.isObject = true) :
    (Label.build path parentPath
      (typeMember stated ++ dollared metadata ++ extras ++ entries)).extras = extras := by
  let keep := fun m : String × Value => (metadataKey? m.1).isNone && !m.2.isObject
  have hfront : (typeMember stated ++ dollared metadata).filter keep = [] := by
    refine List.filter_eq_nil_iff.mpr fun m hm => ?_
    have hsome := metadataKey?_of_mem_front hm
    rw [← Option.not_isNone, Bool.not_eq_true'] at hsome
    show ¬((metadataKey? m.1).isNone && !m.2.isObject) = true
    rw [hsome, Bool.false_and]
    exact Bool.false_ne_true
  have hkept : extras.filter keep = extras := by
    refine List.filter_eq_self.mpr fun m hm => ?_
    show ((metadataKey? m.1).isNone && !m.2.isObject) = true
    rw [(hextras m hm).1, (hextras m hm).2]
    rfl
  have hback : entries.filter keep = [] := by
    refine List.filter_eq_nil_iff.mpr fun m hm => ?_
    show ¬((metadataKey? m.1).isNone && !m.2.isObject) = true
    rw [hentries m hm, Bool.not_true, Bool.and_false]
    exact Bool.false_ne_true
  show List.filter keep _ = extras
  rw [List.filter_append, List.filter_append, hfront, hkept, hback, List.nil_append,
    List.append_nil]

end

namespace Node

variable {label : Label} {children : List (String × Node)} {resolved : Bool}
  {path : String} {inherited : Option String}

theorem buildChildren_append (a b : List (String × Value)) :
    buildChildren path inherited (a ++ b) =
      buildChildren path inherited a ++ buildChildren path inherited b := by
  induction a with
  | nil => rfl
  | cons m a ih =>
    obtain ⟨key, v⟩ := m
    rw [List.cons_append, buildChildren, buildChildren, ih]
    split
    · rfl
    · split
      · rfl
      · rfl

theorem buildChildren_eq_nil {members : List (String × Value)}
    (h : ∀ m ∈ members, (metadataKey? m.1).isSome ∨ m.2.isObject = false) :
    buildChildren path inherited members = [] := by
  induction members with
  | nil => rfl
  | cons m members ih =>
    obtain ⟨key, v⟩ := m
    obtain ⟨hm, hrest⟩ := List.forall_mem_cons.mp h
    rw [buildChildren, ih hrest]
    rcases hm with hm | hm
    · rw [if_pos hm]
    · rw [build?_of_not_object hm]
      exact ite_self _

/-- A node that is written as before after it was read back. -/
def ReadsAgain (resolved : Bool) (n : Node) : Prop :=
  ∀ key path parentPath inherited, ∃ m,
    build? key path parentPath inherited (n.toValue resolved inherited) = some m ∧
      m.KeysDistinct ∧ m.toValue false inherited = n.toValue resolved inherited

theorem toValue_buildChildren (hnames : ∀ p ∈ children, metadataKey? p.1 = none)
    (hchildren : ∀ p ∈ children, p.2.ReadsAgain resolved) :
    (buildChildren path inherited
        (children.map fun p => (p.1, p.2.toValue resolved inherited))).map
          (fun p => (p.1, p.2.toValue false inherited)) =
      children.map fun p => (p.1, p.2.toValue resolved inherited) := by
  induction children with
  | nil => rfl
  | cons p children ih =>
    obtain ⟨hname, hnames⟩ := List.forall_mem_cons.mp hnames
    obtain ⟨hp, hchildren⟩ := List.forall_mem_cons.mp hchildren
    obtain ⟨m, hm, -, he⟩ := hp p.1 (childPath path p.1) path inherited
    rw [List.map_cons, buildChildren, hname, if_neg (by decide), hm, List.map_cons,
      ih hnames hchildren, he]

theorem isObject_toValue (n : Node) : (n.toValue resolved inherited).isObject = true := by
  cases n with
  | token t => rfl
  | group label children =>
    rw [toValue]
    rfl

/-- A group that is read back has distinct keys. -/
theorem keysDistinct_written (hplain : label.Plain) (hkeys : (Table.keys children).Nodup)
    (hchildren : ∀ p ∈ children, p.2.ReadsAgain resolved) (read : Label) :
    (Node.group read (buildChildren path inherited
      (putChildren resolved inherited label.members children))).KeysDistinct := by
  have hnodup : (putChildren resolved inherited label.members children).keys.Nodup :=
    nodup_keys_putChildren label
  refine keysDistinct_group (hnodup.sublist (keys_buildChildren_sublist _ _ _)) fun p hp => ?_
  have hname := metadataKey?_of_mem_buildChildren hp
  obtain ⟨v, hv, hb⟩ := mem_of_mem_buildChildren hp
  have hget := Table.get?_of_mem hnodup hv
  rw [get?_putChildren hkeys] at hget
  cases hc : Table.get? children p.1 with
  | none =>
    rw [hc] at hget
    rw [build?_of_not_object (Label.not_object_of_get?_members hplain hname hget)] at hb
    cases hb
  | some c =>
    rw [hc] at hget
    obtain ⟨m, hm, hdistinct, -⟩ := hchildren _ (Table.mem_of_get? hc) p.1 (childPath path p.1) path
      inherited
    rw [← Option.some.inj hget, hm] at hb
    rw [← Option.some.inj hb]
    exact hdistinct

section

variable (hplain : label.Plain) (hnames : ∀ p ∈ children, metadataKey? p.1 = none)
  (htidy : TidyMetadata label.metadata)
  (hkeys : (Table.keys label.extras ++ Table.keys children).Nodup)

include hplain hnames htidy hkeys

/-- What a written group says of itself when it is read back. -/
theorem labelBuild_written (path : String) (parentPath : Option String) :
    Label.build path parentPath (putChildren resolved inherited label.members children) =
      ⟨groupName path, path, ownTypeText label.ownType, label.metadata, label.extras,
        parentPath⟩ := by
  have hextras : ∀ m ∈ label.extras, metadataKey? m.1 = none := fun m hm => (hplain m hm).1
  have hentries : ∀ m ∈ children.map fun p => (p.1, p.2.toValue resolved inherited),
      metadataKey? m.1 = none ∧ m.2.isObject = true := by
    intro m hm
    obtain ⟨p, hp, rfl⟩ := List.mem_map.mp hm
    exact ⟨hnames p hp, isObject_toValue p.2⟩
  have hbare := fun m hm => (hentries m hm).1
  rw [putChildren_eq_append hplain hnames htidy hkeys]
  show Label.mk _ _ (Label.build path parentPath _).ownType
    (Label.build path parentPath _).metadata (Label.build path parentPath _).extras _ = _
  rw [Label.ownType_build_parts htidy hextras hbare, Label.metadata_build_parts htidy hextras hbare,
    Label.extras_build_parts hplain fun m hm => (hentries m hm).2]

theorem buildChildren_written (path : String) (below : Option String) :
    buildChildren path below (putChildren resolved inherited label.members children) =
      buildChildren path below (children.map fun p => (p.1, p.2.toValue resolved inherited)) := by
  rw [putChildren_eq_append hplain hnames htidy hkeys, buildChildren_append, buildChildren_append,
    buildChildren_eq_nil fun m hm => Or.inl (metadataKey?_of_mem_front hm),
    buildChildren_eq_nil fun m hm => Or.inr (hplain m hm).2]
  rfl

/-- **A group that is read back is written as before** if its children are. -/
theorem read_written (hchildren : ∀ p ∈ children, p.2.ReadsAgain resolved)
    (parentPath : Option String) :
    let written :=
      putChildren resolved (effectiveType label.ownType inherited) label.members children
    let read := Label.build path parentPath written
    let group := Node.group read (buildChildren path (effectiveType read.ownType inherited) written)
    group.KeysDistinct ∧ group.toValue false inherited = .object written := by
  intro written read group
  have hread : read = ⟨groupName path, path, ownTypeText label.ownType, label.metadata,
      label.extras, parentPath⟩ := labelBuild_written hplain hnames htidy hkeys path parentPath
  have hmembers : read.members = label.members := by
    unfold Label.members
    rw [hread, ownTypeText_twice]
  have htype : effectiveType read.ownType inherited = effectiveType label.ownType inherited := by
    rw [hread, effectiveType_ownTypeText]
  refine ⟨?_, ?_⟩
  · show (Node.group read (buildChildren path (effectiveType read.ownType inherited)
      written)).KeysDistinct
    rw [htype]
    exact keysDistinct_written hplain (List.nodup_append.mp hkeys).2.1 hchildren read
  · show (Node.group read _).toValue false inherited = _
    rw [toValue, htype, putChildren_eq, hmembers,
      buildChildren_written hplain hnames htidy hkeys, toValue_buildChildren hnames hchildren,
      ← putChildren_eq]

end

/-- **A tidy node is written as before** after it was read back. -/
theorem Writable.readsAgain {n : Node} (h : n.Writable) (ht : n.Tidy) (resolved : Bool) :
    n.ReadsAgain resolved := by
  induction n using inductionOn with
  | token t =>
    intro key path parentPath inherited
    obtain ⟨u, hu, he⟩ := Token.toValue_written (ht.token [] t rfl) (h.token [] t rfl) resolved key
      path parentPath inherited
    exact ⟨.token u, hu, keysDistinct_token u, he⟩
  | group label children ih =>
    intro key path parentPath inherited
    obtain ⟨hplain, hmetadata, hnames⟩ := h.group [] label children rfl
    obtain ⟨htidy, hkeys⟩ := ht.group [] label children rfl
    have hbelow := fun p hp => ih p hp (h.child ht.keys hp) (ht.child hp)
    rw [toValue, build?]
    dsimp only
    rw [Table.has, get?_valueKey_putChildren hplain hmetadata hnames ht.keys, if_neg (by decide)]
    obtain ⟨hdistinct, hagain⟩ := read_written hplain hnames htidy hkeys hbelow (some parentPath)
    exact ⟨_, rfl, hdistinct, hagain⟩

end Node

namespace Group

/-- **A tree that is read back has distinct keys and is written as before**, with the members in
the same order. -/
theorem build_written {g : Group} (h : g.Writable) (ht : g.toNode.Tidy) (resolved : Bool) :
    (build (g.toDocument resolved)).KeysDistinct ∧
      (build (g.toDocument resolved)).toDocument false = g.toDocument resolved := by
  obtain ⟨label, children⟩ := g
  obtain ⟨htidy, hkeys⟩ := ht.group [] label children rfl
  have hbelow := fun p hp => (h.below p hp).readsAgain (ht.child hp) resolved
  rw [toDocument, toNode, Node.toValue]
  exact Node.read_written h.plain h.keys htidy hkeys hbelow none

end Group

/-! ### Resolved and raw values -/

theorem Node.toValue_congr {n : Node} (hkeys : n.KeysDistinct) {resolved other : Bool}
    (h : ∀ place t, n.tokenAt? place = some t → t.writtenValue resolved = t.writtenValue other)
    (inherited : Option String) : n.toValue resolved inherited = n.toValue other inherited := by
  induction n using inductionOn generalizing inherited with
  | token t =>
    rw [toValue, toValue, toValue_eq, toValue_eq, h [] t rfl]
  | group label children ih =>
    rw [toValue, toValue, putChildren_eq, putChildren_eq, List.map_congr_left fun p hp => ?_]
    rw [ih p hp (hkeys.child hp) fun place t ht => h (p.1 :: place) t ?_]
    rw [tokenAt?_group_cons, Table.get?_of_mem hkeys.here hp]
    exact ht

end DesignTokens
