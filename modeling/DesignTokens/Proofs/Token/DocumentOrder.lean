import DesignTokens.Proofs.Resolution.Entries

/-!
# The nodes of a tree in the order of its document

A document has a node at every place where an object is reached through groups (`Value.NodeAt`), and
these are the places of the nodes of its tree (`Group.exists_at?_buildAt_iff`).  They are listed in
the order of the document (`Value.Precedes`): each group stands before what is in it, and the
members of a group have their order from the document (`Group.pairwise_placedNodes_buildAt`).
-/

namespace DesignTokens

namespace Value

variable {document v w x : Value} {members : Table String Value} {key : String} {place : Place}

/-- An object stands at a place below a document, and no token on the way to it. -/
structure NodeAt (document : Value) (place : Place) : Prop where
  ne_nil : place ≠ []
  object : ∃ members : Table String Value, document.memberAt? place = some (.object members)
  way : document.LeadsThroughGroups place

/-- One place of a document comes before another: what is inside an entry comes behind the entry,
and the entries of an object come in its order. -/
inductive Precedes : Value → Place → Place → Prop
  | inside {v : Value} {key : String} {place : Place} : Precedes v [] (key :: place)
  | beside {members : Table String Value} {key other : String} {place place' : Place} :
      [key, other].Sublist members.keys →
        Precedes (.object members) (key :: place) (other :: place')
  | within {members : Table String Value} {key : String} {w : Value} {place place' : Place} :
      members.get? key = some w → Precedes w place place' →
        Precedes (.object members) (key :: place) (key :: place')

theorem Precedes.ne {place other : Place} (h : v.Precedes place other) (hkeys : v.KeysDistinct) :
    place ≠ other := by
  induction h with
  | inside => exact (List.cons_ne_nil _ _).symm
  | beside hsub =>
    rintro he
    obtain ⟨rfl, -⟩ := List.cons.inj he
    have htwice := hkeys.nodup.sublist hsub
    simp at htwice
  | within hw _ ih => exact fun he => ih (hkeys.member hw) (List.cons.inj he).2

/-! ### Places of nodes -/

/-- An object is an entry at a place. -/
def HasObjectAt (v : Value) (place : Place) : Prop :=
  ∃ members : Table String Value, v.entryAt? place = some (.object members)

theorem HasObjectAt.cons {w : Value} (h : w.HasObjectAt place)
    (hopen : members.has valueKey = false) (hown : Conflict.isOwnKey key = false)
    (hw : members.get? key = some w) : (Value.object members).HasObjectAt (key :: place) := by
  obtain ⟨inner, hx⟩ := h
  exact ⟨inner, entryAt?_cons_eq_some.mpr ⟨w, (entryUnder?_group hopen hown).trans hw, hx⟩⟩

theorem isObject_of_entryAt? (hx : v.entryAt? place = some x) (hobject : x.isObject = true) :
    v.isObject = true := by
  cases place with
  | nil => exact Option.some.inj hx ▸ hobject
  | cons key place => exact isObject_of_entryAt?_cons hx

/-- Nothing on the way to an entry is a token. -/
theorem isToken_of_prefix {front : Place} (hx : w.entryAt? place = some x)
    (hfront : front <+: place) (hne : front ≠ place)
    (hv : w.memberAt? front = some v) : v.isToken = false := by
  obtain ⟨rest, rfl⟩ := hfront
  cases rest with
  | nil => exact absurd (List.append_nil front).symm hne
  | cons key rest =>
    rw [entryAt?_append] at hx
    obtain ⟨u, hu, hrest⟩ := Option.bind_eq_some_iff.mp hx
    obtain ⟨y, hy, -⟩ := entryAt?_cons_eq_some.mp hrest
    obtain ⟨members, rfl, hopen, -, -⟩ := entryUnder?_eq_some hy
    rw [memberAt?_of_entryAt? hu] at hv
    obtain rfl := Option.some.inj hv
    exact hopen

/-- There is a node where an object is an entry of a member. -/
theorem HasObjectAt.nodeAt (h : w.HasObjectAt place) (hown : Conflict.isOwnKey key = false)
    (hw : document.member? key = some w) : document.NodeAt (key :: place) := by
  obtain ⟨inner, hentry⟩ := h
  refine ⟨List.cons_ne_nil _ _,
    ⟨inner, memberAt?_cons_eq_some.mpr ⟨hown, w, hw, memberAt?_of_entryAt? hentry⟩⟩, ?_⟩
  intro front u hne hfront hnot hu
  cases front with
  | nil => exact absurd rfl hne
  | cons first front =>
    obtain ⟨rfl, hrest⟩ := List.cons_prefix_cons.mp hfront
    obtain ⟨-, w', hw', hu⟩ := memberAt?_cons_eq_some.mp hu
    obtain rfl := Option.some.inj (hw'.symm.trans hw)
    exact isToken_of_prefix hentry hrest (fun he => hnot (congrArg _ he)) hu

end Value

namespace Node

variable {members : Table String Value} {key path : String} {below : Option String} {place : Place}
  {n m : Node} {label : Label}

/-- The node of a member of a group. -/
theorem get?_children_eq_some (hkeys : members.keys.Nodup) {c : Node} :
    Table.get? (buildChildren path below members) key = some c ↔
      Conflict.isOwnKey key = false ∧ ∃ w, members.get? key = some w ∧
        build? key (childPath path key) path below w = some c := by
  rw [← metadataKey?_eq_none_iff]
  cases hown : metadataKey? key with
  | none =>
    rw [get?_buildChildren hkeys hown, Option.bind_eq_some_iff]
    exact (and_iff_right rfl).symm
  | some name =>
    rw [get?_buildChildren_of_some hown]
    exact iff_of_false nofun fun h => by cases h.1

theorem at?_children_eq_some (hkeys : members.keys.Nodup) :
    (group label (buildChildren path below members)).at? (key :: place) = some m ↔
      ∃ w c, Conflict.isOwnKey key = false ∧ members.get? key = some w ∧
        build? key (childPath path key) path below w = some c ∧ c.at? place = some m := by
  simp only [at?_group_cons_eq_some, get?_children_eq_some hkeys]
  tauto

/-- Where a node stands in the node of a value, the value has an object. -/
theorem hasObjectAt_of_at? {parentPath : String} {w : Value} {c : Node} (hw : w.KeysDistinct)
    (hc : build? key path parentPath below w = some c) (hm : c.at? place = some m) :
    w.HasObjectAt place := by
  induction place generalizing key path parentPath below w c with
  | nil =>
    obtain ⟨members, rfl, -⟩ := build?_eq_some hc
    exact ⟨members, rfl⟩
  | cons next place ih =>
    obtain ⟨members, rfl, -⟩ := build?_eq_some hc
    rw [build?] at hc
    dsimp only at hc
    split at hc
    · obtain rfl := Option.some.inj hc
      cases hm
    · rename_i hvalue
      obtain rfl := Option.some.inj hc
      obtain ⟨u, d, hown, hu, hd, hat⟩ := (at?_children_eq_some hw.nodup).mp hm
      exact (ih (hw.member hu) hd hat).cons (Bool.eq_false_iff.mpr hvalue) hown hu

/-- An object that is an entry of a value has its node in the node of the value. -/
theorem exists_at?_of_entryAt? {parentPath : String} {w x : Value} {c : Node}
    (hw : w.KeysDistinct) (hc : build? key path parentPath below w = some c)
    (hx : w.entryAt? place = some x) (hobject : x.isObject = true) :
    ∃ m path' parent', c.at? place = some m ∧ m.BuiltOf x path' parent' := by
  induction place generalizing key path parentPath below w c with
  | nil => exact ⟨c, path, parentPath, rfl, key, below, Option.some.inj hx ▸ hc⟩
  | cons next place ih =>
    obtain ⟨u, hu, hrest⟩ := Value.entryAt?_cons_eq_some.mp hx
    obtain ⟨members, rfl, hopen, hown, hget⟩ := Value.entryUnder?_eq_some hu
    rw [build?, if_neg (by simp [hopen])] at hc
    obtain rfl := Option.some.inj hc
    obtain ⟨d, hd⟩ := exists_build? (Value.isObject_of_entryAt? hrest hobject) next
      (childPath path next) path (effectiveType (Label.build path (some parentPath) members).ownType
        below)
    obtain ⟨m, path', parent', hat, hbuilt⟩ := ih (hw.member hget) hd hrest
    exact ⟨m, path', parent', (at?_children_eq_some hw.nodup).mpr ⟨u, d, hown, hget, hd, hat⟩,
      hbuilt⟩

/-! ### The order of the nodes -/

/-- Two places below a place, one before the other in a value. -/
def Follows (v : Value) (here : Place) (p q : Place × Node) : Prop :=
  ∃ front back, p.1 = here ++ front ∧ q.1 = here ++ back ∧ v.Precedes front back

theorem Follows.within {w : Value} {here : Place} {p q : Place × Node}
    (hw : members.get? key = some w) (h : Follows w (here ++ [key]) p q) :
    Follows (.object members) here p q := by
  obtain ⟨front, back, hp, hq, hbefore⟩ := h
  rw [List.append_assoc] at hp hq
  exact ⟨key :: front, key :: back, hp, hq, .within hw hbefore⟩

theorem exists_of_mem_under {here : Place} {q : Place × Node} (h : q ∈ n.under here) :
    ∃ key rest, q.1 = here ++ key :: rest := by
  induction n using inductionOn generalizing here with
  | token t =>
    rw [under] at h
    exact absurd h List.not_mem_nil
  | group label children ih =>
    rw [under, mem_underChildren_iff] at h
    obtain ⟨p, hp, rfl | h⟩ := h
    · exact ⟨p.1, [], rfl⟩
    · obtain ⟨key, rest, he⟩ := ih p hp h
      exact ⟨p.1, key :: rest, by rw [he, List.append_assoc]; rfl⟩

theorem exists_of_mem_underChildren {here : Place} {rest : List (String × Value)}
    {q : Place × Node} (h : q ∈ underChildren here (buildChildren path below rest)) :
    ∃ key ∈ rest.map Prod.fst, ∃ place, q.1 = here ++ key :: place := by
  obtain ⟨p, hp, hq⟩ := mem_underChildren_iff.mp h
  obtain ⟨v, hv, -⟩ := mem_of_mem_buildChildren hp
  refine ⟨p.1, List.mem_map.mpr ⟨_, hv, rfl⟩, ?_⟩
  rcases hq with rfl | hq
  · exact ⟨[], rfl⟩
  · obtain ⟨key, place, he⟩ := exists_of_mem_under hq
    exact ⟨key :: place, by rw [he, List.append_assoc]; rfl⟩

/-- The nodes of the members of a group have the order of the members, if the nodes in each of them
have the order of the member. -/
theorem pairwise_underChildren {here : Place} (hkeys : members.keys.Nodup)
    (hbuilt : ∀ key w c, members.get? key = some w →
      build? key (childPath path key) path below w = some c →
        (c.under (here ++ [key])).Pairwise (Follows w (here ++ [key])))
    {rest : List (String × Value)} (hrest : rest.Sublist members) :
    (underChildren here (buildChildren path below rest)).Pairwise
      (Follows (.object members) here) := by
  induction rest with
  | nil => exact List.Pairwise.nil
  | cons m rest ih =>
    obtain ⟨key, w⟩ := m
    have hw : members.get? key = some w := Table.get?_of_mem hkeys (hrest.subset List.mem_cons_self)
    have hlater := ih ((List.sublist_cons_self _ _).trans hrest)
    rw [buildChildren]
    split
    · exact hlater
    · split
      · rename_i c hc
        have hbeside : ∀ p q : Place × Node, (∃ place, p.1 = here ++ key :: place) →
            q ∈ underChildren here (buildChildren path below rest) →
              Follows (.object members) here p q := by
          rintro p q ⟨place, hp⟩ hq
          obtain ⟨other, hother, place', hq⟩ := exists_of_mem_underChildren hq
          have hsub : [key, other].Sublist members.keys :=
            ((List.singleton_sublist.mpr hother).cons_cons key).trans (hrest.map Prod.fst)
          exact ⟨_, _, hp, hq, .beside hsub⟩
        rw [underChildren]
        refine List.pairwise_cons.mpr ⟨fun q hq => ?_, List.pairwise_append.mpr
          ⟨(hbuilt key w c hw hc).imp (Follows.within hw), hlater, fun p hp q hq => ?_⟩⟩
        · rcases List.mem_append.mp hq with hq | hq
          · obtain ⟨next, place, he⟩ := exists_of_mem_under hq
            exact Follows.within hw ⟨[], next :: place, (List.append_nil _).symm, he, .inside⟩
          · exact hbeside _ _ ⟨[], rfl⟩ hq
        · obtain ⟨next, place, he⟩ := exists_of_mem_under hp
          exact hbeside _ _ ⟨next :: place, by rw [he, List.append_assoc]; rfl⟩ hq
      · exact hlater

/-- The nodes in the node of a value have the order of the value. -/
theorem pairwise_under {parentPath : String} {v : Value} {here : Place} (hv : v.KeysDistinct)
    (hn : build? key path parentPath below v = some n) :
    (n.under here).Pairwise (Follows v here) := by
  induction v using Value.inductionOn generalizing key path parentPath below n here with
  | object members ih =>
    obtain ⟨_, he, ⟨t, rfl, -⟩ | ⟨label, below', rfl⟩⟩ := build?_eq_some hn
    · rw [under]
      exact List.Pairwise.nil
    · obtain rfl := Value.object.inj he
      rw [under]
      refine pairwise_underChildren hv.nodup (fun key w c hw hc => ?_) (List.Sublist.refl _)
      exact ih (key, w) (Table.mem_of_get? hw) (hv.member hw) hc
  | _ => cases hn

end Node

namespace Group

variable {document x : Value} {place : Place}

/-- An object that is reached through groups has its node in the tree. -/
theorem exists_at?_of_memberAt? (hkeys : document.KeysDistinct) (path : String)
    (parentPath inherited : Option String) (hne : place ≠ [])
    (hx : document.memberAt? place = some x) (hobject : x.isObject = true)
    (hway : document.LeadsThroughGroups place) :
    ∃ m path' parent', (buildAt path parentPath inherited document).at? place = some m ∧
      m.BuiltOf x path' parent' := by
  cases place with
  | nil => exact absurd rfl hne
  | cons key place =>
    obtain ⟨w, hown, hw, hentry⟩ := hway.exists_member hx
    cases document with
    | object members =>
      obtain ⟨c, hc⟩ := Node.exists_build? (Value.isObject_of_entryAt? hentry hobject) key
        (childPath path key) path
        (effectiveType (Label.build path parentPath members).ownType inherited)
      obtain ⟨m, path', parent', hat, hbuilt⟩ :=
        Node.exists_at?_of_entryAt? (hkeys.member hw) hc hentry hobject
      exact ⟨m, path', parent',
        (Node.at?_children_eq_some hkeys.nodup).mpr ⟨w, c, hown, hw, hc, hat⟩, hbuilt⟩
    | _ => cases hw

/-- A tree has its nodes where its document has them. -/
theorem exists_at?_buildAt_iff (hkeys : document.KeysDistinct) (path : String)
    (parentPath inherited : Option String) :
    (place ≠ [] ∧ ∃ n, (buildAt path parentPath inherited document).at? place = some n) ↔
      document.NodeAt place := by
  constructor
  · rintro ⟨hne, n, hn⟩
    obtain ⟨key, rest, rfl⟩ := List.exists_cons_of_ne_nil hne
    cases document with
    | object members =>
      obtain ⟨w, c, hown, hw, hc, hat⟩ := (Node.at?_children_eq_some hkeys.nodup).mp hn
      exact (Node.hasObjectAt_of_at? (hkeys.member hw) hc hat).nodeAt hown hw
    | _ => cases hn
  · rintro ⟨hne, ⟨members, hx⟩, hway⟩
    obtain ⟨m, -, -, hat, -⟩ :=
      exists_at?_of_memberAt? hkeys path parentPath inherited hne hx rfl hway
    exact ⟨hne, m, hat⟩

/-- The nodes of a tree are listed in the order of its document. -/
theorem pairwise_placedNodes_buildAt (hkeys : document.KeysDistinct) (path : String)
    (parentPath inherited : Option String) :
    ((buildAt path parentPath inherited document).placedNodes.map Prod.fst).Pairwise
      document.Precedes := by
  have hfollows : (buildAt path parentPath inherited document).placedNodes.Pairwise
      (Node.Follows document []) := by
    cases document with
    | object members =>
      refine Node.pairwise_underChildren hkeys.nodup (fun key w c hw hc => ?_) (List.Sublist.refl _)
      exact Node.pairwise_under (hkeys.member hw) hc
    | _ => exact List.Pairwise.nil
  refine List.pairwise_map.mpr (hfollows.imp ?_)
  rintro p q ⟨front, back, hp, hq, hbefore⟩
  rw [hp, hq]
  exact hbefore

end Group

end DesignTokens
