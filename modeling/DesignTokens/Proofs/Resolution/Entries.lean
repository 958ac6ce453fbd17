import Mathlib.Data.List.Infix
import DesignTokens.Proofs.Merge.Entries
import DesignTokens.Proofs.Resolution.Totality
import DesignTokens.Proofs.Token.RoundTrip

/-!
# The entries of a document that come back

A tree is built of a document, its tokens may be changed, and it is written as a document
again.  Whatever a place of the first document leads to, stands there in the new one
(`Group.kept_of_outline`): a token is a token again, a group is a group, and what is no
object is the same.  So nothing is lost where the references of a document are replaced
(`Group.resolveDocument_keeps`).

Places below a token are left out.  A token has no members but those that begin with a
dollar sign, so an entry that is written in it is dropped (`Group.not_kept_in_token`).
The document itself is a group even if it has a value.
-/

namespace DesignTokens

theorem metadataKey?_eq_none_iff {key : String} :
    metadataKey? key = none ↔ Conflict.isOwnKey key = false := by
  unfold metadataKey? Conflict.isOwnKey
  cases key.toList with
  | nil => simp
  | cons c rest =>
    by_cases hc : c = '$'
    · simp [hc]
    · simp [hc]

namespace Value

/-- What a place leads to, through any objects. -/
def memberAt? : Value → Place → Option Value
  | v, [] => some v
  | v, key :: place =>
    if Conflict.isOwnKey key then none else (v.member? key).bind fun w => w.memberAt? place

/-- Something that stands in a document is kept: it is a token or a group as before, and if it
is no object it is the same. -/
structure KeptAs (v w : Value) : Prop where
  token : w.isToken = v.isToken
  group : w.isGroup = v.isGroup
  plain : v.isObject = false → w = v

variable {v w x : Value} {key : String} {place : Place}

theorem KeptAs.refl (v : Value) : v.KeptAs v where
  token := rfl
  group := rfl
  plain _ := rfl

theorem KeptAs.of_token (hw : w.isToken = true) (hv : v.isToken = true) : v.KeptAs w := by
  obtain ⟨members, rfl, hvalue⟩ := eq_object_of_isToken hv
  obtain ⟨others, rfl, hvalue'⟩ := eq_object_of_isToken hw
  exact ⟨hw.trans hv.symm, by simp [hvalue, hvalue'], nofun⟩

theorem KeptAs.of_group (hw : w.isGroup = true) (hv : v.isGroup = true) : v.KeptAs w := by
  obtain ⟨members, rfl, hvalue⟩ := eq_object_of_isGroup hv
  obtain ⟨others, rfl, hvalue'⟩ := eq_object_of_isGroup hw
  exact ⟨by simp [hvalue, hvalue'], hw.trans hv.symm, nofun⟩

theorem entryUnder?_of_isGroup (hv : v.isGroup = true) (hkey : Conflict.isOwnKey key = false) :
    v.entryUnder? key = v.member? key := by
  rw [entryUnder?, hv, hkey]
  rfl

theorem memberAt?_cons_eq_some :
    v.memberAt? (key :: place) = some x ↔
      Conflict.isOwnKey key = false ∧ ∃ w, v.member? key = some w ∧ w.memberAt? place = some x := by
  rw [memberAt?]
  by_cases hkey : Conflict.isOwnKey key = true
  · simp [hkey]
  · simp [hkey, Option.bind_eq_some_iff]

theorem memberAt?_of_entryAt? (h : v.entryAt? place = some x) : v.memberAt? place = some x := by
  induction place generalizing v with
  | nil => exact h
  | cons key place ih =>
    obtain ⟨w, hw, hx⟩ := entryAt?_cons_eq_some.mp h
    obtain ⟨members, rfl, -, hkey, hget⟩ := entryUnder?_eq_some hw
    exact memberAt?_cons_eq_some.mpr ⟨hkey, w, hget, ih hx⟩

/-- What a way through no tokens leads to is an entry. -/
theorem entryAt?_of_memberAt? (h : v.memberAt? place = some x)
    (hopen : ∀ front u, front <+: place → front ≠ place → v.memberAt? front = some u →
      u.isToken = false) : v.entryAt? place = some x := by
  induction place generalizing v with
  | nil => exact h
  | cons key place ih =>
    obtain ⟨hkey, w, hw, hx⟩ := memberAt?_cons_eq_some.mp h
    have htoken := hopen [] v (List.nil_prefix) (by simp) rfl
    cases v with
    | object members =>
      refine entryAt?_cons_eq_some.mpr ⟨w, (entryUnder?_group htoken hkey).trans hw, ih hx ?_⟩
      intro front u hfront hne hu
      refine hopen (key :: front) u ?_ (by simpa using hne) ?_
      · exact List.cons_prefix_cons.mpr ⟨rfl, hfront⟩
      · exact memberAt?_cons_eq_some.mpr ⟨hkey, w, hw, hu⟩
    | _ => cases hw

end Value

/-! ### Written nodes -/

namespace Token

theorem isToken_toValue (t : Token) (resolved : Bool) (inherited : Option String) :
    (t.toValue resolved inherited).isToken = true := by
  unfold toValue
  dsimp only
  rw [withMetadata_eq]
  exact Table.has_foldl_put.mpr (Or.inr rfl)

end Token

namespace Label

/-- An entry of a group that is no object is found among the members of the group. -/
theorem get?_members_build {members : Table String Value} (hkeys : members.keys.Nodup)
    {key : String} {v : Value} (hkey : metadataKey? key = none) (hv : members.get? key = some v)
    (hplain : v.isObject = false) (path : String) (parentPath : Option String) :
    (build path parentPath members).members.get? key = some v := by
  have hextras : ((build path parentPath members).extras.keys).Nodup :=
    hkeys.sublist (List.filter_sublist.map Prod.fst)
  have hget : (build path parentPath members).extras.get? key = some v := by
    refine Table.get?_of_mem hextras (List.mem_filter.mpr ⟨Table.mem_of_get? hv, ?_⟩)
    simp [hkey, hplain]
  unfold Label.members
  rw [Table.get?_foldl_put hextras, hget]
  rfl

end Label

namespace Node

variable {key path parentPath : String} {parent below inherited : Option String}
  {members : Table String Value} {others : List (String × Node)} {resolved : Bool} {v w x : Value}
  {n d : Node} {place : Place}

theorem nodup_keys_of_built (hkeys : members.keys.Nodup)
    (hothers : outlineChildren others = outlineChildren (buildChildren path below members)) :
    (Table.keys others).Nodup := by
  rw [← keys_outlineChildren, hothers, keys_outlineChildren]
  exact hkeys.sublist (keys_buildChildren_sublist _ _ _)

/-- Under a key of a group its entry is written: the node that was built of it, or what is no
object. -/
theorem member?_written (hkeys : members.keys.Nodup)
    (hothers : outlineChildren others = outlineChildren (buildChildren path below members))
    (hkey : metadataKey? key = none) (hv : members.get? key = some v) (parent : Option String)
    (resolved : Bool) (inherited : Option String) :
    let written := (group (Label.build path parent members) others).toValue resolved inherited
    (v.isObject = false ∧ written.member? key = some v) ∨
      ∃ (n d : Node) (inherited : Option String),
        build? key (childPath path key) path below v = some n ∧ d.outline = n.outline ∧
          written.member? key = some (d.toValue resolved inherited) := by
  have hnodup := nodup_keys_of_built hkeys hothers
  have hchild : Table.get? (buildChildren path below members) key =
      build? key (childPath path key) path below v := by
    rw [get?_buildChildren hkeys hkey, hv]
    rfl
  have hother := congrArg (fun c => Table.get? c key) hothers
  simp only [get?_outlineChildren, hchild] at hother
  have hget : Table.get? (putChildren resolved
      (effectiveType (Label.build path parent members).ownType inherited)
        (Label.build path parent members).members others) key = _ := get?_putChildren hnodup _
  rw [toValue]
  cases hobject : v.isObject with
  | false =>
    refine Or.inl ⟨rfl, ?_⟩
    rw [build?_of_not_object hobject, Option.map_none, Option.map_eq_none_iff] at hother
    rw [hother] at hget
    exact hget.trans (Label.get?_members_build hkeys hkey hv hobject path parent)
  | true =>
    obtain ⟨n, hn⟩ := exists_build? hobject key (childPath path key) path below
    rw [hn, Option.map_some] at hother
    obtain ⟨d, hd, he⟩ := Option.map_eq_some_iff.mp hother
    rw [hd] at hget
    exact Or.inr ⟨n, d, _, hn, he, hget⟩

theorem isGroup_written (hvalue : members.has valueKey = false) (hkeys : members.keys.Nodup)
    (hothers : outlineChildren others = outlineChildren (buildChildren path below members)) :
    ((group (Label.build path parent members) others).toValue resolved inherited).isGroup =
      true := by
  have hnames : ∀ p ∈ others, metadataKey? p.1 = none :=
    keys_of_outline hothers fun p hp => metadataKey?_of_mem_buildChildren hp
  rw [toValue, Value.isGroup_object, Table.has, get?_valueKey_putChildren (Label.plain_build _ _ _)
    (Label.valueless_build _ _ hvalue) hnames (nodup_keys_of_built hkeys hothers)]
  rfl

/-- A node that has the outline of the one built of an object: a token if the object has a value,
else a group with its entries. -/
theorem cases_of_outline (hn : build? key path parentPath inherited (.object members) = some n)
    (hd : d.outline = n.outline) :
    (members.has valueKey = true ∧ ∃ t, d = .token t) ∨
      members.has valueKey = false ∧ ∃ below others,
        d = .group (Label.build path (some parentPath) members) others ∧
          outlineChildren others = outlineChildren (buildChildren path below members) := by
  rw [build?] at hn
  dsimp only at hn
  split at hn
  · rename_i hvalue
    rw [← Option.some.inj hn] at hd
    cases d with
    | token t => exact Or.inl ⟨hvalue, t, rfl⟩
    | group label children => cases hd
  · rename_i hvalue
    rw [← Option.some.inj hn] at hd
    obtain ⟨others, rfl, hothers⟩ := exists_group_of_outline hd
    exact Or.inr ⟨by simpa using hvalue, _, others, rfl, hothers⟩

/-- An entry below a group is kept if it is kept in the nodes of the group. -/
theorem exists_kept_member (hkeys : members.keys.Nodup)
    (hothers : outlineChildren others = outlineChildren (buildChildren path below members))
    (hkey : metadataKey? key = none) (hv : members.get? key = some v)
    (hx : v.entryAt? place = some x)
    (hnodes : ∀ (n d : Node) (inherited : Option String),
      build? key (childPath path key) path below v = some n → d.outline = n.outline →
        ∃ y, (d.toValue resolved inherited).entryAt? place = some y ∧ x.KeptAs y) :
    ∃ w y, ((group (Label.build path parent members) others).toValue resolved inherited).member?
      key = some w ∧ w.entryAt? place = some y ∧ x.KeptAs y := by
  rcases member?_written hkeys hothers hkey hv parent resolved inherited with
    ⟨hplain, hget⟩ | ⟨n, d, stated, hn, hd, hget⟩
  · cases place with
    | nil =>
      obtain rfl : v = x := Option.some.inj hx
      exact ⟨v, v, hget, rfl, .refl v⟩
    | cons next place => cases hplain.symm.trans (Value.isObject_of_entryAt?_cons hx)
  · obtain ⟨y, hy, hkept⟩ := hnodes n d stated hn hd
    exact ⟨_, y, hget, hy, hkept⟩

/-- The entries of an object stand in the node that is built of it, also if its tokens change. -/
theorem exists_kept (hv : v.KeysDistinct) (hn : build? key path parentPath below v = some n)
    (hd : d.outline = n.outline) (hx : v.entryAt? place = some x) :
    ∃ y, (d.toValue resolved inherited).entryAt? place = some y ∧ x.KeptAs y := by
  induction place generalizing key path parentPath below v n d inherited with
  | nil =>
    obtain rfl : v = x := Option.some.inj hx
    obtain ⟨members, rfl, -⟩ := build?_eq_some hn
    refine ⟨_, rfl, ?_⟩
    rcases cases_of_outline hn hd with ⟨hvalue, t, rfl⟩ | ⟨hvalue, below, others, rfl, hothers⟩
    · exact .of_token (t.isToken_toValue resolved inherited) hvalue
    · exact .of_group (isGroup_written hvalue hv.nodup hothers) (by simp [hvalue])
  | cons next place ih =>
    obtain ⟨u, hu, hrest⟩ := Value.entryAt?_cons_eq_some.mp hx
    obtain ⟨members, rfl, hvalue, hown, hget⟩ := Value.entryUnder?_eq_some hu
    rcases cases_of_outline hn hd with ⟨htoken, -⟩ | ⟨-, below, others, rfl, hothers⟩
    · cases hvalue.symm.trans htoken
    · obtain ⟨w, y, hw, hy, hkept⟩ := exists_kept_member hv.nodup hothers
        (metadataKey?_eq_none_iff.mpr hown) hget hrest
        fun n d inherited hn hd => ih (hv.member hget) hn hd hrest
      refine ⟨y, Value.entryAt?_cons_eq_some.mpr ⟨w, ?_, hy⟩, hkept⟩
      rw [Value.entryUnder?_of_isGroup (isGroup_written hvalue hv.nodup hothers) hown]
      exact hw

end Node

/-! ### Documents -/

/-- No token stands on the way to a place.  The document itself counts as a group. -/
def Value.LeadsThroughGroups (v : Value) (place : Place) : Prop :=
  ∀ front u, front ≠ [] → front <+: place → front ≠ place → v.memberAt? front = some u →
    u.isToken = false

theorem Value.leadsThroughGroups_iff {v : Value} {place : Place} :
    v.LeadsThroughGroups place ↔ ∀ front ∈ place.inits, front ≠ [] → front ≠ place →
      ∀ u ∈ v.memberAt? front, u.isToken = false :=
  ⟨fun h front hfront hne hnot u hu => h front u hne ((List.mem_inits _ _).mp hfront) hnot hu,
    fun h front u hne hfront hnot hu => h front ((List.mem_inits _ _).mpr hfront) hne hnot u hu⟩

instance (v : Value) (place : Place) : Decidable (v.LeadsThroughGroups place) :=
  decidable_of_iff _ Value.leadsThroughGroups_iff.symm

theorem Value.LeadsThroughGroups.exists_member {v x : Value} {key : String} {place : Place}
    (hway : v.LeadsThroughGroups (key :: place)) (hx : v.memberAt? (key :: place) = some x) :
    ∃ w, Conflict.isOwnKey key = false ∧ v.member? key = some w ∧ w.entryAt? place = some x := by
  obtain ⟨hown, w, hw, hrest⟩ := memberAt?_cons_eq_some.mp hx
  refine ⟨w, hown, hw, entryAt?_of_memberAt? hrest fun front u hfront hnot hu => ?_⟩
  refine hway (key :: front) u (List.cons_ne_nil _ _) ?_ (by simpa using hnot) ?_
  · exact List.cons_prefix_cons.mpr ⟨rfl, hfront⟩
  · exact memberAt?_cons_eq_some.mpr ⟨hown, w, hw, hu⟩

namespace Group

variable {document x : Value} {place : Place} {tree : Group}

/-- What stands in a document stands in every document that is written of a tree with the outline
of its own tree. -/
theorem kept_of_outline (hkeys : document.KeysDistinct)
    (houtline : tree.outline = (build document).outline) (hne : place ≠ [])
    (hx : document.memberAt? place = some x) (hway : document.LeadsThroughGroups place)
    (resolved : Bool) :
    ∃ y, (tree.toDocument resolved).memberAt? place = some y ∧ x.KeptAs y := by
  cases place with
  | nil => exact absurd rfl hne
  | cons key place =>
    obtain ⟨v, hown, hv, hentry⟩ := hway.exists_member hx
    cases document with
    | object members =>
      obtain ⟨label, others⟩ := tree
      obtain ⟨rfl, hothers⟩ := Node.group.inj houtline
      obtain ⟨w, y, hw, hy, hkept⟩ := Node.exists_kept_member hkeys.nodup hothers
        (metadataKey?_eq_none_iff.mpr hown) hv hentry
        fun n d inherited hn hd => Node.exists_kept (hkeys.member hv) hn hd hentry
      exact ⟨y, Value.memberAt?_cons_eq_some.mpr ⟨hown, w, hw, Value.memberAt?_of_entryAt? hy⟩,
        hkept⟩
    | _ => cases hv

/-- What is given back is written of a tree with the outline of the document's own one. -/
theorem exists_tree_written {document out : Value} {maxDepth : Int} {problems : List Problem}
    (h : resolveDocument document maxDepth = .ok (out, problems)) :
    ∃ tree : Group, tree.outline = (build document).outline ∧ out = tree.toDocument true := by
  obtain ⟨hproblems, hout⟩ := resolveDocument_eq_ok h
  obtain ⟨tree, htree, houtline⟩ :=
    exists_tree_assembled (tree?_single_self (build document)) maxDepth
  rcases hrun : (Project.single (build document)).assembleFile "" maxDepth with
    ⟨assembled, e | found⟩
  · rw [Resolver.run_eq_error (r := Resolver.start maxDepth) hrun] at hproblems
    cases hproblems
  · rw [hrun] at htree
    rw [tree?_run_ok hrun, htree] at hout
    exact ⟨(tree.finalPass maxDepth).tree, (tree.outline_finalPass maxDepth).trans houtline, hout⟩

/-- **No entry of a document is dropped**: what a place leads to without going through a token
stands there in the document that is written of its tree, and in the one in which its references
are replaced. -/
theorem resolveDocument_keeps (hkeys : document.KeysDistinct) (hne : place ≠ [])
    (hx : document.memberAt? place = some x) (hway : document.LeadsThroughGroups place) :
    (∀ resolved, ∃ y, ((build document).toDocument resolved).memberAt? place = some y ∧
      x.KeptAs y) ∧
      (∀ maxDepth out problems, resolveDocument document maxDepth = .ok (out, problems) →
        ∃ y, out.memberAt? place = some y ∧ x.KeptAs y) ∧
        (∀ maxDepth, Legible document maxDepth → ∃ out problems,
          resolveDocument document maxDepth = .ok (out, problems)) := by
  refine ⟨kept_of_outline hkeys rfl hne hx hway, ?_, ?_⟩
  · intro maxDepth out problems h
    obtain ⟨tree, houtline, rfl⟩ := exists_tree_written h
    exact kept_of_outline hkeys houtline hne hx hway true
  · intro maxDepth hlegible
    obtain ⟨_, _, _, -, -, -, -, h⟩ := exists_run hkeys hlegible
    exact ⟨_, _, h⟩

/-- A document with a value of its own, in which a group has a note. -/
def notedPalette : Value :=
  .object [(valueKey, .int 1),
    ("colors", .object [(typeKey, .text "color"), ("note", .text "draft"),
      ("base", .object [(valueKey, .text "\x7bink\x7d")])]),
    ("ink", .object [(valueKey, .text "#111")])]

theorem resolveDocument_keeps_notedPalette :
    notedPalette.KeysDistinct ∧ notedPalette.memberAt? ["colors", "note"] = some (.text "draft") ∧
      notedPalette.LeadsThroughGroups ["colors", "note"] ∧
        (∀ resolved, ((build notedPalette).toDocument resolved).memberAt? ["colors", "note"] =
          some (.text "draft")) ∧
          ∃ out problems, resolveDocument notedPalette 10 = .ok (out, problems) ∧
            out.memberAt? ["colors", "note"] = some (.text "draft") := by
  have hkeys : notedPalette.KeysDistinct := by decide +kernel
  have hx : notedPalette.memberAt? ["colors", "note"] = some (.text "draft") := by rfl
  have hway : notedPalette.LeadsThroughGroups ["colors", "note"] := by
    intro front u hne hfront hnot hu
    have hmem := (List.mem_inits front _).mpr hfront
    simp only [List.inits, List.map_cons, List.map_nil, List.mem_cons, List.not_mem_nil,
      or_false] at hmem
    rcases hmem with rfl | rfl | rfl
    · exact absurd rfl hne
    · cases hu
      decide +kernel
    · exact absurd rfl hnot
  obtain ⟨hwritten, hresolved, hsome⟩ := resolveDocument_keeps hkeys (by simp) hx hway
  refine ⟨hkeys, hx, hway, fun resolved => ?_, ?_⟩
  · obtain ⟨y, hy, hkept⟩ := hwritten resolved
    rw [hy, hkept.plain rfl]
  · obtain ⟨out, problems, h⟩ := hsome 10 ⟨by decide +kernel, by decide +kernel, by decide +kernel⟩
    obtain ⟨y, hy, hkept⟩ := hresolved 10 out problems h
    exact ⟨out, problems, h, by rw [hy, hkept.plain rfl]⟩

/-- A document in which an entry is written in a token. -/
def filledToken : Value :=
  .object [("t", .object [(valueKey, .int 1), ("inner", .object [(valueKey, .int 2)])])]

/-- The entry in the token is dropped. -/
theorem not_kept_in_token :
    filledToken.KeysDistinct ∧
      filledToken.memberAt? ["t", "inner"] = some (.object [(valueKey, .int 2)]) ∧
        (∀ resolved, ((build filledToken).toDocument resolved).memberAt? ["t", "inner"] = none) ∧
          ∃ out, resolveDocument filledToken 10 = .ok (out, []) ∧
            out.memberAt? ["t", "inner"] = none := by
  have hkeys : filledToken.KeysDistinct := by decide +kernel
  refine ⟨hkeys, by rfl, ?_, .object [("t", .object [(valueKey, .int 1)])], by rfl, by rfl⟩
  intro resolved
  cases resolved
  · rfl
  · rfl

end Group

end DesignTokens
