import DesignTokens.Proofs.Token.Prepared

/-!
# Built trees are ready for resolution

Building goes down a document and a place at the same time: what stands at a place
of the tree is built of a value, with the path of the place (`Node.exists_builtOf`),
and a token is built of an object (`Node.tokenAt?_of_build?`).  The keys of a group
come from the object that it was built of, so they are distinct if those are.
`prepared_build` puts this together.
-/

namespace DesignTokens

/-! ### Tokens -/

theorem Token.scanned_build (name path : String) (members : Table String Value)
    (parentPath inherited : Option String) :
    (Token.build name path members parentPath inherited).Scanned where
  aliases := fun _ ha => ha
  pointers := rfl
  malformed := fun _ hs => hs
  hasSegments := fun _ ha => Value.hasSegments_of_aliasOf_mem (Value.mem_aliases_iff.mp ha)
  free := fun hresolved => by
    have hvalue : (Token.build name path members parentPath inherited).resolvedValue =
        (Token.build name path members parentPath inherited).value := if_pos hresolved
    simp only [build, Bool.and_eq_true, List.isEmpty_iff, and_assoc] at hresolved
    obtain ⟨haliases, hpointers, hmalformed⟩ := hresolved
    rw [hvalue]
    exact Value.occurrences_eq_nil_of_scan haliases hpointers hmalformed

theorem Token.tracked_build (name path : String) (members : Table String Value)
    (parentPath inherited : Option String)
    (h : (Token.build name path members parentPath inherited).value.RefsAreTexts) :
    (Token.build name path members parentPath inherited).Tracked := by
  have hscanned := Token.scanned_build name path members parentPath inherited
  refine ⟨h, hscanned.aliases, hscanned.pointers, hscanned.malformed, hscanned.hasSegments, ?_,
    fun hresolved => if_pos hresolved⟩
  simp only [build, Bool.and_eq_true, List.isEmpty_iff, and_assoc]

/-! ### Nodes -/

namespace Node

theorem mem_of_mem_buildChildren {path : String} {inherited : Option String}
    {members : List (String × Value)} {p : String × Node}
    (h : p ∈ buildChildren path inherited members) :
    ∃ v, (p.1, v) ∈ members ∧ build? p.1 (childPath path p.1) path inherited v = some p.2 := by
  induction members with
  | nil => exact absurd h List.not_mem_nil
  | cons m members ih =>
    obtain ⟨key, v⟩ := m
    have hrest : p ∈ buildChildren path inherited members → ∃ w, (p.1, w) ∈ (key, v) :: members ∧
        build? p.1 (childPath path p.1) path inherited w = some p.2 := fun h => by
      obtain ⟨w, hw, hb⟩ := ih h
      exact ⟨w, List.mem_cons_of_mem _ hw, hb⟩
    rw [buildChildren] at h
    split at h
    · exact hrest h
    · split at h
      · rename_i n hn
        rcases List.mem_cons.mp h with rfl | h
        · exact ⟨v, List.mem_cons_self, hn⟩
        · exact hrest h
      · exact hrest h

theorem keys_buildChildren_sublist (path : String) (inherited : Option String)
    (members : List (String × Value)) :
    (Table.keys (buildChildren path inherited members)).Sublist (members.map Prod.fst) := by
  induction members with
  | nil => exact List.Sublist.refl _
  | cons m members ih =>
    obtain ⟨key, v⟩ := m
    rw [buildChildren]
    split
    · exact ih.cons key
    · split
      · exact ih.cons_cons key
      · exact ih.cons key

/-- An object becomes a token or a group, and nothing else becomes a node. -/
theorem build?_eq_some {key path parentPath : String} {inherited : Option String} {v : Value}
    {n : Node} (h : build? key path parentPath inherited v = some n) :
    ∃ members, v = .object members ∧
      ((∃ t, n = .token t ∧ t = Token.build key path members (some parentPath) inherited) ∨
        ∃ label below, n = .group label (buildChildren path below members)) := by
  cases v with
  | object members =>
    refine ⟨members, rfl, ?_⟩
    rw [build?] at h
    dsimp only at h
    split at h
    · exact Or.inl ⟨_, (Option.some.inj h).symm, rfl⟩
    · exact Or.inr ⟨_, _, (Option.some.inj h).symm⟩
  | _ => cases h

/-- A node is built of a value, with its path and the path of its parent. -/
def BuiltOf (v : Value) (path parentPath : String) (n : Node) : Prop :=
  ∃ key inherited, build? key path parentPath inherited v = some n

theorem BuiltOf.paths {v : Value} {path parentPath : String} {n : Node}
    (h : n.BuiltOf v path parentPath) : n.path = path ∧ n.parentPath = some parentPath := by
  obtain ⟨key, inherited, h⟩ := h
  cases v with
  | object members =>
    rw [build?] at h
    dsimp only at h
    split at h
    · obtain rfl := Option.some.inj h
      exact ⟨rfl, rfl⟩
    · obtain rfl := Option.some.inj h
      exact ⟨rfl, rfl⟩
  | _ => cases h

theorem BuiltOf.eq_token {v : Value} {path parentPath : String} {t : Token}
    (h : (Node.token t).BuiltOf v path parentPath) :
    ∃ name members parent inherited, t = Token.build name path members parent inherited := by
  obtain ⟨key, inherited, h⟩ := h
  obtain ⟨members, -, ⟨u, he, hu⟩ | ⟨label, below, he⟩⟩ := build?_eq_some h
  · exact ⟨key, members, some parentPath, inherited, (Node.token.inj he).trans hu⟩
  · cases he

/-- What stands below a group has the path of its place behind the path of the group, and knows the
path of the place without the last key. -/
theorem exists_builtOf {place : Place} {path : String} {below : Option String}
    {members : List (String × Value)} {label : Label} {m : Node} (hne : place ≠ [])
    (h : (group label (buildChildren path below members)).at? place = some m) :
    ∃ v, m.BuiltOf v (place.foldl childPath path) (place.dropLast.foldl childPath path) := by
  induction place generalizing path below members label with
  | nil => exact absurd rfl hne
  | cons key rest ih =>
    obtain ⟨c, hc, hat⟩ := at?_group_cons_eq_some.mp h
    obtain ⟨v, -, hb⟩ := mem_of_mem_buildChildren (Table.mem_of_get? hc)
    dsimp only at hb
    cases rest with
    | nil =>
      obtain rfl := Option.some.inj hat
      exact ⟨v, key, below, hb⟩
    | cons next rest =>
      obtain ⟨inner, -, ⟨t, rfl, -⟩ | ⟨label', below', rfl⟩⟩ := build?_eq_some hb
      · cases hat
      · exact ih (List.cons_ne_nil _ _) hat

/-- A token below a group is built of an object and has the path of its place. -/
theorem eq_build_of_tokenAt? {place : Place} {path : String} {below : Option String}
    {members : List (String × Value)} {label : Label} {t : Token}
    (ht : (group label (buildChildren path below members)).tokenAt? place = some t) :
    ∃ name members parent inherited,
      t = Token.build name (place.foldl childPath path) members parent inherited := by
  obtain ⟨m, hat, hm⟩ := Option.bind_eq_some_iff.mp ht
  cases m with
  | group label children => cases hm
  | token u =>
    obtain rfl := Option.some.inj hm
    have hne : place ≠ [] := by
      rintro rfl
      cases hat
    obtain ⟨v, hv⟩ := exists_builtOf hne hat
    exact hv.eq_token

theorem tokenAt?_of_build? {place : Place} {key path parentPath : String}
    {inherited : Option String} {v : Value} {n : Node} {t : Token}
    (hn : build? key path parentPath inherited v = some n) (ht : n.tokenAt? place = some t) :
    ∃ name members parent inherited,
      t = Token.build name (place.foldl childPath path) members parent inherited := by
  obtain ⟨members, -, ⟨u, rfl, hu⟩ | ⟨label, below, rfl⟩⟩ := build?_eq_some hn
  · cases place with
    | nil => exact ⟨key, members, _, _, (Option.some.inj ht).symm.trans hu⟩
    | cons next place => cases ht
  · exact eq_build_of_tokenAt? ht

theorem keysDistinct_of_build? {key path parentPath : String} {inherited : Option String}
    {v : Value} {n : Node} (hv : v.KeysDistinct)
    (hn : build? key path parentPath inherited v = some n) : n.KeysDistinct := by
  induction v using Value.inductionOn generalizing key path parentPath inherited n with
  | object members ih =>
    obtain ⟨members', he, ⟨t, rfl, -⟩ | ⟨label, below, rfl⟩⟩ := build?_eq_some hn
    · exact keysDistinct_token t
    · cases he
      obtain ⟨hkeys, hbelow⟩ := Value.everyObject_object.mp hv
      refine keysDistinct_group (hkeys.sublist (keys_buildChildren_sublist _ _ _)) ?_
      intro p hp
      obtain ⟨w, hw, hb⟩ := mem_of_mem_buildChildren hp
      exact ih _ hw (hbelow _ hw) hb
  | _ => cases hn

end Node

/-! ### Trees -/

namespace Group

theorem tokenAt?_build {document : Value} {place : Place} {t : Token}
    (h : (build document).tokenAt? place = some t) :
    ∃ name members parent inherited,
      t = Token.build name (pathAt place) members parent inherited :=
  Node.eq_build_of_tokenAt? h

theorem keysDistinct_buildAt {document : Value} (h : document.KeysDistinct) (path : String)
    (parentPath inherited : Option String) :
    (buildAt path parentPath inherited document).KeysDistinct := by
  cases document with
  | object members =>
    obtain ⟨hkeys, hbelow⟩ := Value.everyObject_object.mp h
    refine Node.keysDistinct_group
      (hkeys.sublist (Node.keys_buildChildren_sublist _ _ _)) ?_
    intro p hp
    obtain ⟨v, hv, hb⟩ := Node.mem_of_mem_buildChildren hp
    exact Node.keysDistinct_of_build? (hbelow _ hv) hb
  | _ => exact Node.keysDistinct_group List.nodup_nil fun _ hp => absurd hp List.not_mem_nil

theorem keysDistinct_build {document : Value} (h : document.KeysDistinct) :
    (build document).KeysDistinct := keysDistinct_buildAt h "" none none

theorem placed_build {document : Value} (hkeys : document.KeysDistinct)
    (hdistinct : ∀ place other t u, (build document).tokenAt? place = some t →
      (build document).tokenAt? other = some u → t.path = u.path → place = other) :
    (build document).Placed where
  label_path := rfl
  keysDistinct := keysDistinct_build hkeys
  path_eq := fun place t ht => by
    obtain ⟨name, members, parent, inherited, rfl⟩ := tokenAt?_build ht
    rfl
  distinct := hdistinct

/-- A document with distinct keys, in which tokens at different places have different paths
and no `$ref` member is anything but a text, gives a tree that is ready for resolution. -/
theorem prepared_of_places {document : Value} (hkeys : document.KeysDistinct)
    (hdistinct : ∀ place other t u, (build document).tokenAt? place = some t →
      (build document).tokenAt? other = some u → t.path = u.path → place = other)
    (htexts : ∀ place t, (build document).tokenAt? place = some t → t.value.RefsAreTexts) :
    (build document).Prepared := by
  have hplaced := placed_build hkeys hdistinct
  refine ⟨hplaced.label_path, hplaced.keysDistinct, hplaced.path_eq, hplaced.distinct, ?_⟩
  intro place t ht
  have hm := htexts place t ht
  obtain ⟨name, members, parent, inherited, rfl⟩ := tokenAt?_build ht
  exact Token.tracked_build _ _ _ _ _ hm

theorem prepared_build {document : Value} (hkeys : document.KeysDistinct)
    (hpaths : ((build document).tokens.map Token.path).Nodup)
    (htexts : ∀ t ∈ (build document).tokens, t.value.RefsAreTexts) :
    (build document).Prepared :=
  prepared_of_places hkeys (place_eq_of_nodup (keysDistinct_build hkeys) hpaths) fun place t ht =>
    htexts t ((mem_tokens_iff (keysDistinct_build hkeys)).mpr ⟨place, ht⟩)

end Group

end DesignTokens
