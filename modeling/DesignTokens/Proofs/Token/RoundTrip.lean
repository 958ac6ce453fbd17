import DesignTokens.Proofs.Token.Rewriting

/-!
# From a document to its tree and back

Building takes a document apart, and writing puts it together again.  `Value.Regular` says of a
document that a tree has a field for everything in it: the members of a token have a dollar sign,
and a type is a text that is not empty.  Such a document comes back with its members in another
order and without the types that a token has from its group anyway (`Value.Restated`); and what
comes back gives the same tree again (`Group.build_toDocument`).
-/

namespace DesignTokens

/-- If a type is stated at all, it is a text that is not empty. -/
def StatesType (members : Table String Value) : Prop :=
  ∀ v, members.get? typeKey = some v → ∃ type, type ≠ "" ∧ v = .text type

/-- Whether a member states the type that is inherited anyway. -/
def restatesType (inherited : Option String) (m : String × Value) : Bool :=
  m.1 = typeKey && m.2.text?.isSome && m.2.text? = inherited

namespace Value

/-- An entry of a document of which a tree keeps everything. -/
inductive Regular : Value → Prop
  | plain {v : Value} : v.isObject = false → Regular v
  | token {members : List (String × Value)} : Table.has members valueKey = true →
      StatesType members → (∀ m ∈ members, (metadataKey? m.1).isSome = true) →
      Regular (.object members)
  | group {members : List (String × Value)} : Table.has members valueKey = false →
      StatesType members → (∀ m ∈ members, metadataKey? m.1 = none → Regular m.2) →
      Regular (.object members)

/-- A document of which a tree keeps everything.  It is a group even if it has a value. -/
structure RegularDocument (members : Table String Value) : Prop where
  statesType : StatesType members
  entries : ∀ m ∈ members, metadataKey? m.1 = none → Regular m.2

mutual

/-- An entry with the members of its groups and tokens in another order, and without the types of
tokens that restate the inherited one. -/
inductive Restated : (isDocument : Bool) → (inherited : Option String) → Value → Value → Prop
  | plain {isDocument : Bool} {inherited : Option String} {v : Value} : v.isObject = false →
      Restated isDocument inherited v v
  | token {inherited : Option String} {members others : List (String × Value)} :
      Table.has members valueKey = true →
      (members.filter fun m => !restatesType inherited m).Perm others →
      Restated false inherited (.object members) (.object others)
  | group {isDocument : Bool} {inherited : Option String}
      {members changed others : List (String × Value)} :
      isDocument = true ∨ Table.has members valueKey = false →
      RestatedMembers (effectiveType ((Table.get? members typeKey).bind text?) inherited)
        members changed →
      changed.Perm others → Restated isDocument inherited (.object members) (.object others)

/-- The members of a group with their entries restated.  What the group says of itself stays. -/
inductive RestatedMembers : (inherited : Option String) → List (String × Value) →
    List (String × Value) → Prop
  | nil {inherited : Option String} : RestatedMembers inherited [] []
  | own {inherited : Option String} {m : String × Value} {members changed : List (String × Value)} :
      (metadataKey? m.1).isSome = true → RestatedMembers inherited members changed →
      RestatedMembers inherited (m :: members) (m :: changed)
  | entry {inherited : Option String} {key : String} {v w : Value}
      {members changed : List (String × Value)} :
      metadataKey? key = none → Restated false inherited v w →
      RestatedMembers inherited members changed →
      RestatedMembers inherited ((key, v) :: members) ((key, w) :: changed)

end

end Value

/-! ### Parts of a table -/

namespace Table

variable {κ α : Type}

/-- The members that stand under a key. -/
theorem filter_key [DecidableEq κ] {t : Table κ α} (h : t.keys.Nodup) (key : κ) :
    (t.filter fun m => m.1 = key) = ((t.get? key).map (key, ·)).toList := by
  induction t with
  | nil => rfl
  | cons m rest ih =>
    obtain ⟨k, v⟩ := m
    obtain ⟨hk, hrest⟩ := List.nodup_cons.mp h
    have ih := ih hrest
    rw [List.filter_cons, get?]
    by_cases he : k = key
    · have hnone : get? rest key = none := get?_eq_none_iff.mpr (he ▸ hk)
      rw [if_pos (decide_eq_true he), if_pos he, ih, hnone, he]
      rfl
    · rw [if_neg (by simpa using he), if_neg he, ih]

theorem perm_filter_append {t : List α} (p : α → Bool) {front back : List α}
    (hfront : t.filter p = front) (hback : (t.filter fun a => !p a).Perm back) :
    t.Perm (front ++ back) := by
  have hparts : (t.filter p ++ t.filter fun a => !p a).Perm t := List.filter_append_perm p t
  rw [hfront] at hparts
  exact hparts.symm.trans (hback.append_left front)

end Table

/-- The members that metadata comes from. -/
theorem dollared_filterMap (skip : String → Prop) [DecidablePred skip]
    (members : Table String Value) :
    dollared (members.filterMap fun m =>
        if skip m.1 then none else (metadataKey? m.1).map (·, m.2)) =
      members.filter fun m => !decide (skip m.1) && (metadataKey? m.1).isSome := by
  induction members with
  | nil => rfl
  | cons m members ih =>
    obtain ⟨key, v⟩ := m
    rw [List.filterMap_cons, List.filter_cons]
    by_cases hskip : skip key
    · rw [if_pos hskip, if_neg (by simp [hskip]), ih]
    · rw [if_neg hskip]
      cases hname : metadataKey? key with
      | none =>
        rw [Option.map_none, if_neg (by simp), ih]
      | some name =>
        rw [Option.map_some, if_pos (by simp [hskip]), metadataKey?_eq_some.mp hname, ← ih]
        rfl

/-! ### Tokens -/

/-- The type of a token comes back from what it states. -/
theorem statedType_or_inherited {own : Option String} (h : own ≠ some "")
    (inherited : Option String) :
    (statedType (own.or inherited) inherited).or inherited = own.or inherited := by
  cases own with
  | none => rw [Option.none_or, statedType_self, Option.none_or]
  | some type =>
    rw [Option.some_or]
    unfold statedType
    rw [ownTypeText_of_ne h]
    by_cases he : some type = inherited
    · rw [if_pos he, he, Option.none_or]
    · rw [if_neg he, Option.some_or]

theorem Token.build_congr {members others : Table String Value} {name path : String}
    {parentPath inherited : Option String}
    (hvalue : others.get? valueKey = members.get? valueKey)
    (htype : ((others.get? typeKey).bind Value.text?).or inherited =
      ((members.get? typeKey).bind Value.text?).or inherited)
    (hmetadata : metadataOf others = metadataOf members) :
    Token.build name path others parentPath inherited =
      Token.build name path members parentPath inherited := by
  unfold Token.build
  rw [hvalue, htype, hmetadata]

namespace StatesType

variable {members : Table String Value}

theorem ownType_ne (h : StatesType members) :
    (members.get? typeKey).bind Value.text? ≠ some "" := by
  intro he
  obtain ⟨v, hv, htext⟩ := Option.bind_eq_some_iff.mp he
  obtain ⟨type, hne, rfl⟩ := h v hv
  exact hne (Option.some.inj htext)

theorem filter_typeKey (h : StatesType members) (hkeys : members.keys.Nodup) :
    (members.filter fun m => m.1 = typeKey) =
      typeMember ((members.get? typeKey).bind Value.text?) := by
  rw [Table.filter_key hkeys]
  cases hv : members.get? typeKey with
  | none => rfl
  | some v =>
    obtain ⟨type, -, rfl⟩ := h v hv
    rfl

/-- What is left of them in a token with an inherited type. -/
theorem filter_restatesType (h : StatesType members) (inherited : Option String) :
    (typeMember ((members.get? typeKey).bind Value.text?)).filter
        (fun m => !restatesType inherited m) =
      typeMember (statedType (((members.get? typeKey).bind Value.text?).or inherited)
        inherited) := by
  have hne := h.ownType_ne
  cases hown : (members.get? typeKey).bind Value.text? with
  | none => rw [Option.none_or, statedType_self]; rfl
  | some type =>
    rw [hown] at hne
    unfold statedType typeMember
    rw [Option.some_or, ownTypeText_of_ne hne]
    by_cases he : some type = inherited
    · rw [if_pos he]
      subst he
      simp [restatesType, Value.text?]
    · rw [if_neg he]
      simp [restatesType, Value.text?, he]

end StatesType

namespace Token

variable {members : Table String Value}

theorem get?_valueKey_of_has (hvalue : members.has valueKey = true) (name path : String)
    (parentPath inherited : Option String) :
    members.get? valueKey = some (Token.build name path members parentPath inherited).value := by
  obtain ⟨v, hv⟩ := Option.isSome_iff_exists.mp hvalue
  show _ = some ((members.get? valueKey).getD .null)
  rw [hv]
  rfl

theorem toValue_build (hkeys : members.keys.Nodup) (name path : String)
    (parentPath inherited : Option String) :
    let t := Token.build name path members parentPath inherited
    t.toValue false inherited = .object (((valueKey, t.value) ::
      typeMember (statedType t.type inherited)) ++ dollared t.metadata) := by
  intro t
  have htidy : TidyMetadata t.metadata := tidy_metadataOf hkeys
  rw [toValue_eq, withMetadata_token htidy (valueless_build _ _ _ _ _)]
  rfl

variable (hkeys : members.keys.Nodup) (hvalue : members.has valueKey = true)
  (htypes : StatesType members)

include hkeys hvalue htypes

/-- A token is written with its members, the type apart that it has from its group. -/
theorem perm_written (hdollar : ∀ m ∈ members, (metadataKey? m.1).isSome = true)
    (name path : String) (parentPath inherited : Option String) :
    let t := Token.build name path members parentPath inherited
    (members.filter fun m => !restatesType inherited m).Perm
      (((valueKey, t.value) :: typeMember (statedType t.type inherited)) ++
        dollared t.metadata) := by
  intro t
  have hget := get?_valueKey_of_has hvalue name path parentPath inherited
  have hfirst : (members.filter fun m => !restatesType inherited m).filter
      (fun m => m.1 = valueKey) = [(valueKey, t.value)] := by
    rw [List.filter_filter, List.filter_congr (q := fun m => decide (m.1 = valueKey)),
      Table.filter_key hkeys, hget]
    · rfl
    · intro m _
      by_cases hm : m.1 = valueKey
      · simp [restatesType, hm, valueKey_ne_typeKey]
      · simp [hm]
  -- The value first, then the type, then all the rest.
  have hfront : (valueKey, t.value) :: typeMember (statedType t.type inherited) ++
      dollared t.metadata = [(valueKey, t.value)] ++
        (typeMember (statedType t.type inherited) ++ dollared t.metadata) := rfl
  rw [hfront]
  refine Table.perm_filter_append _ hfirst
    (Table.perm_filter_append (fun m => m.1 = typeKey) ?_ (.of_eq ?_))
  · show _ = typeMember (statedType (((members.get? typeKey).bind Value.text?).or inherited)
      inherited)
    rw [← htypes.filter_restatesType, ← htypes.filter_typeKey hkeys, List.filter_filter,
      List.filter_filter, List.filter_filter]
    refine List.filter_congr fun m _ => ?_
    by_cases hm : m.1 = typeKey
    · simp [hm, valueKey_ne_typeKey.symm]
    · simp [hm]
  · show _ = dollared (members.filterMap fun m =>
      if m.1 = valueKey ∨ m.1 = typeKey then none else (metadataKey? m.1).map (·, m.2))
    rw [dollared_filterMap fun key => key = valueKey ∨ key = typeKey, List.filter_filter,
      List.filter_filter]
    refine List.filter_congr fun m hm => ?_
    rw [hdollar m hm]
    by_cases htype : m.1 = typeKey
    · simp [htype]
    · simp [restatesType, htype]

/-- A token that is read back is the same token. -/
theorem build?_written (key path parentPath : String) (inherited : Option String) :
    let t := Token.build key path members (some parentPath) inherited
    Node.build? key path parentPath inherited (t.toValue false inherited) = some (.token t) := by
  intro t
  have htidy : TidyMetadata t.metadata := tidy_metadataOf hkeys
  have hvalueless : Valueless t.metadata := valueless_build _ _ _ _ _
  have hget := get?_valueKey_of_has hvalue key path (some parentPath) inherited
  rw [toValue_build hkeys, Node.build?]
  dsimp only
  rw [if_pos (by rfl)]
  refine congrArg (fun u => some (Node.token u)) (build_congr ?_ ?_ ?_)
  · exact hget.symm
  · rw [Table.get?_append, get?_typeKey_dollared htidy, Option.or_none, Table.get?,
      if_neg valueKey_ne_typeKey, get?_typeKey_typeMember]
    exact statedType_or_inherited htypes.ownType_ne inherited
  · exact metadataOf_written htidy hvalueless _ _

end Token

/-! ### Groups -/

theorem Node.exists_build? {v : Value} (h : v.isObject = true) (key path parentPath : String)
    (inherited : Option String) : ∃ n, build? key path parentPath inherited v = some n := by
  cases v with
  | object members =>
    rw [build?]
    dsimp only
    split
    · exact ⟨_, rfl⟩
    · exact ⟨_, rfl⟩
  | _ => cases h

/-- A member of a group as it is written: what is built is written, and the rest stays. -/
def restatedMember (path : String) (below : Option String) (m : String × Value) :
    String × Value :=
  if (metadataKey? m.1).isSome = true then m
  else
    (m.1, ((Node.build? m.1 (childPath path m.1) path below m.2).map
      (Node.toValue false below)).getD m.2)

section

variable {members : Table String Value} {path : String} {below : Option String}

theorem restatedMember_of_dollar {m : String × Value} (h : (metadataKey? m.1).isSome = true) :
    restatedMember path below m = m := if_pos h

theorem restatedMember_of_plain {m : String × Value} (h : m.2.isObject = false) :
    restatedMember path below m = m := by
  unfold restatedMember
  rw [Node.build?_of_not_object h]
  exact ite_self _

theorem Label.ownType_build (path : String) (parentPath : Option String) :
    (Label.build path parentPath members).ownType =
      (members.get? typeKey).bind Value.text? := rfl

/-- The members of a group are its type, its metadata, its extras and its entries. -/
theorem Label.perm_parts (hkeys : members.keys.Nodup) (htypes : StatesType members)
    (path : String) (parentPath : Option String) :
    members.Perm (typeMember ((members.get? typeKey).bind Value.text?) ++
      (dollared (Label.build path parentPath members).metadata ++
        ((Label.build path parentPath members).extras ++
          members.filter fun m => (metadataKey? m.1).isNone && m.2.isObject))) := by
  refine Table.perm_filter_append (fun m => m.1 = typeKey) (htypes.filter_typeKey hkeys)
    (Table.perm_filter_append (fun m => (metadataKey? m.1).isSome) ?_
      (Table.perm_filter_append (fun m => !m.2.isObject) ?_ (.of_eq ?_)))
  · show _ = dollared (members.filterMap fun m =>
      if m.1 = typeKey then none else (metadataKey? m.1).map (·, m.2))
    rw [dollared_filterMap fun key => key = typeKey, List.filter_filter]
    exact List.filter_congr fun m _ => Bool.and_comm _ _
  · show _ = members.filter fun m => (metadataKey? m.1).isNone && !m.2.isObject
    rw [List.filter_filter, List.filter_filter]
    refine List.filter_congr fun m _ => ?_
    cases hname : metadataKey? m.1 with
    | some name => simp
    | none => simp [ne_typeKey hname]
  · rw [List.filter_filter, List.filter_filter]
    refine List.filter_congr fun m _ => ?_
    cases hname : metadataKey? m.1 with
    | some name => simp
    | none => simp [ne_typeKey hname]

/-- The entries of a group are what its children are written as. -/
theorem map_restatedMember_entries (members : Table String Value) :
    (members.filter fun m => (metadataKey? m.1).isNone && m.2.isObject).map
        (restatedMember path below) =
      (Node.buildChildren path below members).map fun p => (p.1, p.2.toValue false below) := by
  induction members with
  | nil => rfl
  | cons m members ih =>
    obtain ⟨key, v⟩ := m
    rw [List.filter_cons, Node.buildChildren]
    cases hname : metadataKey? key with
    | some name =>
      rw [if_neg (by simp), if_pos (by rfl)]
      exact ih
    | none =>
      rw [Option.isSome_none, if_neg Bool.false_ne_true]
      cases hobject : v.isObject with
      | false =>
        rw [if_neg (by simp), Node.build?_of_not_object hobject]
        exact ih
      | true =>
        obtain ⟨n, hn⟩ := Node.exists_build? hobject key (childPath path key) path below
        have hhere : restatedMember path below (key, v) = (key, n.toValue false below) := by
          unfold restatedMember
          rw [hname, if_neg (by decide), hn]
          rfl
        rw [if_pos (by rfl), List.map_cons, ih, hn, List.map_cons, hhere]

/-- A group is written with its members, its entries restated. -/
theorem perm_putChildren (hkeys : members.keys.Nodup) (htypes : StatesType members)
    (path : String) (parentPath below : Option String) :
    (members.map (restatedMember path below)).Perm
      (Node.putChildren false below (Label.build path parentPath members).members
        (Node.buildChildren path below members)) := by
  have hplain := Label.plain_build path parentPath members
  -- Only the entries are written as anything else.
  have hown : ∀ m ∈ typeMember ((members.get? typeKey).bind Value.text?) ++
      dollared (Label.build path parentPath members).metadata ++
        (Label.build path parentPath members).extras, restatedMember path below m = m := by
    intro m hm
    rcases List.mem_append.mp hm with hm | hm
    · exact restatedMember_of_dollar (metadataKey?_of_mem_front hm)
    · exact restatedMember_of_plain (hplain m hm).2
  have hparts := (Label.perm_parts hkeys htypes path parentPath).map (restatedMember path below)
  rw [← List.append_assoc, ← List.append_assoc, List.map_append,
    (List.map_congr_left hown).trans (List.map_id' _),
    map_restatedMember_entries] at hparts
  rw [Node.putChildren_eq_append hplain (fun p hp => Node.metadataKey?_of_mem_buildChildren hp)
    (Label.tidy_metadata_build path parentPath hkeys)
    (Label.nodup_keys_build path parentPath below hkeys), Label.ownType_build,
    ownTypeText_of_ne htypes.ownType_ne]
  exact hparts

end

/-- A value of which the node is written as the value restated, and built again of that. -/
def Value.ComesBack (v : Value) : Prop :=
  ∀ key path parentPath inherited n, Node.build? key path parentPath inherited v = some n →
    Restated false inherited v (n.toValue false inherited) ∧
      Node.build? key path parentPath inherited (n.toValue false inherited) = some n

section

variable {members : Table String Value}
  (hentries : ∀ m ∈ members, metadataKey? m.1 = none → m.2.ComesBack)

include hentries

theorem restatedMembers_map (path : String) (below : Option String) :
    Value.RestatedMembers below members (members.map (restatedMember path below)) := by
  induction members with
  | nil => exact .nil
  | cons m members ih =>
    obtain ⟨key, v⟩ := m
    obtain ⟨hm, hrest⟩ := List.forall_mem_cons.mp hentries
    rw [List.map_cons]
    cases hname : metadataKey? key with
    | some name =>
      have hdollar : (metadataKey? key).isSome = true := by rw [hname]; rfl
      rw [restatedMember_of_dollar hdollar]
      exact .own hdollar (ih hrest)
    | none =>
      cases hobject : v.isObject with
      | false =>
        rw [restatedMember_of_plain hobject]
        exact .entry hname (.plain hobject) (ih hrest)
      | true =>
        obtain ⟨n, hn⟩ := Node.exists_build? hobject key (childPath path key) path below
        have hhere : restatedMember path below (key, v) = (key, n.toValue false below) := by
          unfold restatedMember
          rw [hname, if_neg (by decide), hn]
          rfl
        rw [hhere]
        exact .entry hname (hm hname _ _ _ _ _ hn).1 (ih hrest)

/-- The children of a group are built of what they are written as. -/
theorem buildChildren_map_toValue (path : String) (below : Option String) :
    Node.buildChildren path below ((Node.buildChildren path below members).map
        fun p => (p.1, p.2.toValue false below)) = Node.buildChildren path below members := by
  induction members with
  | nil => rfl
  | cons m members ih =>
    obtain ⟨key, v⟩ := m
    obtain ⟨hm, hrest⟩ := List.forall_mem_cons.mp hentries
    have ih := ih hrest
    rw [Node.buildChildren]
    cases hname : metadataKey? key with
    | some name => exact ih
    | none =>
      rw [Option.isSome_none, if_neg Bool.false_ne_true]
      cases hn : Node.build? key (childPath path key) path below v with
      | none => exact ih
      | some n =>
        rw [List.map_cons, Node.buildChildren, hname, Option.isSome_none,
          if_neg Bool.false_ne_true, ih, (hm hname _ _ _ _ _ hn).2]

variable (hkeys : members.keys.Nodup) (htypes : StatesType members)

include hkeys htypes

/-- A written group says of itself what it said before, and has the same children. -/
theorem build_putChildren (path : String) (parentPath inherited : Option String) :
    let label := Label.build path parentPath members
    let below := effectiveType label.ownType inherited
    let children := Node.buildChildren path below members
    let written := Node.putChildren false below label.members children
    Label.build path parentPath written = label ∧
      Node.buildChildren path below written = children := by
  intro label below children written
  have hplain := Label.plain_build path parentPath members
  have hnames : ∀ p ∈ children, metadataKey? p.1 = none :=
    fun p hp => Node.metadataKey?_of_mem_buildChildren hp
  have htidy : TidyMetadata label.metadata := Label.tidy_metadata_build path parentPath hkeys
  have hnodup : (Table.keys label.extras ++ Table.keys children).Nodup :=
    Label.nodup_keys_build path parentPath below hkeys
  refine ⟨?_, ?_⟩
  · have hown : ownTypeText label.ownType = label.ownType := ownTypeText_of_ne htypes.ownType_ne
    rw [Node.labelBuild_written hplain hnames htidy hnodup, hown]
    rfl
  · rw [Node.buildChildren_written hplain hnames htidy hnodup]
    exact buildChildren_map_toValue hentries path below

end

/-- **A regular entry comes back**: its node is written as the entry restated, and what is written
has the same node. -/
theorem Value.Regular.comesBack {v : Value} (h : v.Regular) (hdistinct : v.KeysDistinct) :
    v.ComesBack := by
  induction v using Value.inductionOn with
  | object members ih =>
    obtain ⟨hkeys, hbelow⟩ := Value.everyObject_object.mp hdistinct
    intro key path parentPath inherited n hn
    rw [Node.build?] at hn
    dsimp only at hn
    cases h with
    | plain hobject => cases hobject
    | token hvalue htypes hdollar =>
      rw [if_pos hvalue] at hn
      cases Option.some.inj hn
      refine ⟨?_, Token.build?_written hkeys hvalue htypes key path parentPath inherited⟩
      rw [Node.toValue, Token.toValue_build hkeys]
      exact .token hvalue (Token.perm_written hkeys hvalue htypes hdollar key path _ inherited)
    | group hvalue htypes hregular =>
      have hentries : ∀ m ∈ members, metadataKey? m.1 = none → m.2.ComesBack :=
        fun m hm hname => ih m hm (hregular m hm hname) (hbelow m hm)
      obtain ⟨hlabel, hchildren⟩ :=
        build_putChildren hentries hkeys htypes path (some parentPath) inherited
      rw [if_neg (by rw [hvalue]; decide)] at hn
      cases Option.some.inj hn
      rw [Node.toValue]
      refine ⟨.group (Or.inr hvalue) (restatedMembers_map hentries path _)
        (perm_putChildren hkeys htypes path _ _), ?_⟩
      have hnodup := Label.nodup_keys_build path (some parentPath)
        (effectiveType (Label.build path (some parentPath) members).ownType inherited) hkeys
      rw [Node.build?]
      dsimp only
      rw [Table.has, Node.get?_valueKey_putChildren (Label.plain_build _ _ _)
        (Label.valueless_build _ _ hvalue) (fun p hp => Node.metadataKey?_of_mem_buildChildren hp)
        (List.nodup_append.mp hnodup).2.1, if_neg (by decide), hlabel, hchildren]
  | _ =>
    intro key path parentPath inherited n hn
    cases hn

theorem Group.build_object (members : List (String × Value)) :
    build (.object members) = ⟨Label.build "" none members, Node.buildChildren ""
      (effectiveType (Label.build "" none members).ownType none) members⟩ := rfl

/-- **A regular document comes back from its tree**, restated, and then gives the same tree. -/
theorem Group.build_toDocument {members : List (String × Value)}
    (hdistinct : (Value.object members).KeysDistinct) (h : Value.RegularDocument members) :
    Value.Restated true none (.object members)
        ((build (.object members)).toDocument false) ∧
      build ((build (.object members)).toDocument false) = build (.object members) := by
  obtain ⟨hkeys, hbelow⟩ := Value.everyObject_object.mp hdistinct
  have hentries : ∀ m ∈ members, metadataKey? m.1 = none → m.2.ComesBack :=
    fun m hm hname => (h.entries m hm hname).comesBack (hbelow m hm)
  obtain ⟨hlabel, hchildren⟩ := build_putChildren hentries hkeys h.statesType "" none none
  have hwritten : (build (.object members)).toDocument false =
      .object (Node.putChildren false
        (effectiveType (Label.build "" none members).ownType none)
        (Label.build "" none members).members
        (Node.buildChildren "" (effectiveType (Label.build "" none members).ownType none)
          members)) := by
    rw [toDocument, toNode, Node.toValue]
    rfl
  rw [hwritten]
  refine ⟨.group (Or.inl rfl) (restatedMembers_map hentries "" _)
    (perm_putChildren hkeys h.statesType "" _ _), ?_⟩
  rw [build_object, build_object, hlabel, hchildren]

/-- A group with a type that one of its tokens restates and another one does not. -/
def restatedType : List (String × Value) :=
  [("ink", .object [(typeKey, .text "color"), ("$description", .text "text"),
      (valueKey, .text "\x7bbase\x7d")]),
    ("note", .int 1), (typeKey, .text "color"),
    ("gap", .object [(valueKey, .text "2px"), (typeKey, .text "dimension")])]

theorem regular_restatedType : Value.RegularDocument restatedType where
  statesType v hv := ⟨"color", by decide, (Option.some.inj hv).symm⟩
  entries := by
    have htype : ∀ {members : Table String Value} {type : String},
        members.get? typeKey = some (.text type) → type ≠ "" → StatesType members :=
      fun hget hne v hv => ⟨_, hne, Option.some.inj (hv.symm.trans hget)⟩
    intro m hm hname
    simp only [restatedType, List.mem_cons, List.not_mem_nil, or_false] at hm
    rcases hm with rfl | rfl | rfl | rfl
    · exact .token (by decide) (htype rfl (by decide)) (by decide)
    · exact .plain rfl
    · exact .plain rfl
    · exact .token (by decide) (htype rfl (by decide)) (by decide)

theorem Group.build_toDocument_restatedType :
    (Value.object restatedType).KeysDistinct ∧ Value.RegularDocument restatedType ∧
      Value.Restated true none (.object restatedType)
        ((build (.object restatedType)).toDocument false) ∧
      build ((build (.object restatedType)).toDocument false) = build (.object restatedType) := by
  have hkeys : (Value.object restatedType).KeysDistinct := by decide +kernel
  exact ⟨hkeys, regular_restatedType, build_toDocument hkeys regular_restatedType⟩

/-- The type of the group comes first, and the first token has it from there. -/
example : (Group.build (.object restatedType)).toDocument false =
    .object [(typeKey, .text "color"), ("note", .int 1),
      ("ink", .object [(valueKey, .text "\x7bbase\x7d"), ("$description", .text "text")]),
      ("gap", .object [(valueKey, .text "2px"), (typeKey, .text "dimension")])] := rfl

end DesignTokens
