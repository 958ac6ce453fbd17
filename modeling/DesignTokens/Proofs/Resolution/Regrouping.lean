import DesignTokens.Proofs.Resolution.Agreement
import DesignTokens.Proofs.Reference.Rearrangement
import DesignTokens.Proofs.Token.Writing

/-!
# Documents whose groups are in another order

`Value.Regrouped` relates two documents that differ in the order of the members of their groups, at
any depth; a token stays as it is.  Their trees have the same tokens at the same places
(`Regrouped.tokenAt?_build`).  If no key is empty or holds a dot, every token is found by its own
path (`Group.found_build`), and so resolution leaves the same tokens resolved with the same values
and reports the same problems (`Group.resolve_regrouped`).
-/

namespace DesignTokens

namespace Value

mutual

/-- A document, or what is inside one, with the members of its groups in another order, here and in
its groups.  A document is a group even if it has a value. -/
inductive Regrouped : (isDocument : Bool) → Value → Value → Prop
  | same {isDocument : Bool} (v : Value) : Regrouped isDocument v v
  | group {isDocument : Bool} {members changed others : List (String × Value)} :
      isDocument = true ∨ Table.has members valueKey = false →
      List.Forall₂ RegroupedMember members changed → changed.Perm others →
      Regrouped isDocument (.object members) (.object others)

/-- A member of a group whose groups are in another order. -/
inductive RegroupedMember : String × Value → String × Value → Prop
  | mk {key : String} {v w : Value} : Regrouped false v w → RegroupedMember (key, v) (key, w)

end

namespace Regrouped

variable {isDocument : Bool} {v w : Value} {members changed others : List (String × Value)}

theorem entries (h : List.Forall₂ RegroupedMember members changed) :
    List.Forall₂ (fun m n => m.1 = n.1 ∧ Regrouped false m.2 n.2) members changed := by
  refine h.imp fun m n hmn => ?_
  cases hmn with
  | mk hvw => exact ⟨rfl, hvw⟩

theorem nodup_others (hentries : List.Forall₂ RegroupedMember members changed)
    (hperm : changed.Perm others) (hkeys : (Table.keys members).Nodup) :
    (Table.keys others).Nodup := by
  have hsame := Table.keys_of_forall₂ (R := fun _ v w => Regrouped false v w) (entries hentries)
  rw [← hsame] at hkeys
  exact (hperm.map Prod.fst).nodup_iff.mp hkeys

/-- A group has regrouped members, key by key. -/
theorem rel_get? (hentries : List.Forall₂ RegroupedMember members changed)
    (hperm : changed.Perm others) (hkeys : (Table.keys members).Nodup) (key : String) :
    Option.Rel (Regrouped false) (Table.get? members key) (Table.get? others key) := by
  obtain ⟨hsome, hnone⟩ :=
    Table.get?_of_forall₂ (R := fun _ v w => Regrouped false v w) (entries hentries) key
  rw [← Table.get?_perm (nodup_others hentries (.refl changed) hkeys) hperm key]
  cases hget : Table.get? members key with
  | none =>
    rw [hnone hget]
    exact .none
  | some v =>
    obtain ⟨w, hw, hget'⟩ := hsome v hget
    rw [hget']
    exact .some hw

theorem text?_eq (h : v.Regrouped isDocument w) : v.text? = w.text? := by
  cases h with
  | same => rfl
  | group => rfl

theorem ownType_eq (h : ∀ key, Option.Rel (Regrouped false) (Table.get? members key)
    (Table.get? others key)) (path : String) (parent : Option String) :
    (Label.build path parent members).ownType = (Label.build path parent others).ownType :=
  bind_eq_of_rel (h typeKey) fun _ _ _ hvw => hvw.text?_eq

/-- Keys stay distinct at any depth. -/
theorem keysDistinct (h : v.Regrouped isDocument w) (hkeys : v.KeysDistinct) : w.KeysDistinct := by
  induction v using inductionOn generalizing isDocument w with
  | object members ih =>
    cases h with
    | same => exact hkeys
    | group _ hentries hperm =>
      obtain ⟨hnodup, hbelow⟩ := everyObject_object.mp hkeys
      refine everyObject_object.mpr ⟨nodup_others hentries hperm hnodup, fun n hn => ?_⟩
      obtain ⟨m, hm, hmn⟩ := exists_mem_of_forall₂ hentries (hperm.mem_iff.mpr hn)
      cases hmn with
      | mk hvw => exact ih _ hm hvw (hbelow _ hm)
  | _ =>
    cases h
    exact hkeys

/-! ### The trees -/

/-- The children of groups that are built of regrouped members have the same tokens. -/
theorem tokenAt?_children {place : Place}
    (ih : ∀ {v w : Value}, v.Regrouped false w → v.KeysDistinct → ∀ key path parent inherited,
      ((Node.build? key path parent inherited v).bind fun n => n.tokenAt? place) =
        (Node.build? key path parent inherited w).bind fun n => n.tokenAt? place)
    (hentries : List.Forall₂ RegroupedMember members changed) (hperm : changed.Perm others)
    (hkeys : (Value.object members).KeysDistinct) (key path : String) (inherited : Option String) :
    ((Table.get? (Node.buildChildren path inherited members) key).bind fun n => n.tokenAt? place) =
      (Table.get? (Node.buildChildren path inherited others) key).bind
        fun n => n.tokenAt? place := by
  obtain ⟨hnodup, hbelow⟩ := everyObject_object.mp hkeys
  cases hkey : metadataKey? key with
  | some name => rw [Node.get?_buildChildren_of_some hkey, Node.get?_buildChildren_of_some hkey]
  | none =>
    rw [Node.get?_buildChildren hnodup hkey,
      Node.get?_buildChildren (nodup_others hentries hperm hnodup) hkey, Option.bind_assoc,
      Option.bind_assoc]
    exact bind_eq_of_rel (rel_get? hentries hperm hnodup key) fun v w hget hvw =>
      ih hvw (hbelow _ (Table.mem_of_get? hget)) _ _ _ _

/-- What is built of regrouped values has the same tokens. -/
theorem tokenAt?_build? (place : Place) {v w : Value} (h : v.Regrouped false w)
    (hkeys : v.KeysDistinct) (key path parent : String) (inherited : Option String) :
    ((Node.build? key path parent inherited v).bind fun n => n.tokenAt? place) =
      (Node.build? key path parent inherited w).bind fun n => n.tokenAt? place := by
  cases h with
  | same => rfl
  | @group _ members changed others hgroup hentries hperm =>
    have hrel := rel_get? hentries hperm (everyObject_object.mp hkeys).1
    have hvalue : Table.has members valueKey = false := by simpa using hgroup
    have hvalue' : Table.has others valueKey = false :=
      (rel_isSome (hrel valueKey)).symm.trans hvalue
    rw [Node.build?, Node.build?]
    dsimp only
    rw [hvalue, hvalue', if_neg Bool.false_ne_true, if_neg Bool.false_ne_true, ownType_eq hrel,
      Option.bind_some, Option.bind_some]
    cases place with
    | nil => rfl
    | cons next place =>
      rw [Node.tokenAt?_group_cons, Node.tokenAt?_group_cons]
      exact tokenAt?_children (tokenAt?_build? place) hentries hperm hkeys _ _ _
termination_by place.length

/-- **Regrouped documents are built into trees with the same tokens at the same places.** -/
theorem tokenAt?_build {document other : Value} (h : document.Regrouped true other)
    (hkeys : document.KeysDistinct) (place : Place) :
    (Group.build document).tokenAt? place = (Group.build other).tokenAt? place := by
  cases h with
  | same => rfl
  | @group _ members changed others _ hentries hperm =>
    cases place with
    | nil => rfl
    | cons key place =>
      have hrel := rel_get? hentries hperm (everyObject_object.mp hkeys).1
      show (Node.group (Group.build (.object members)).label (Node.buildChildren ""
          (effectiveType (Label.build "" none members).ownType none) members)).tokenAt?
            (key :: place) =
        (Node.group (Group.build (.object others)).label (Node.buildChildren ""
          (effectiveType (Label.build "" none others).ownType none) others)).tokenAt?
            (key :: place)
      rw [Node.tokenAt?_group_cons, Node.tokenAt?_group_cons, ownType_eq hrel]
      exact tokenAt?_children (tokenAt?_build? place) hentries hperm hkeys _ _ _

end Regrouped

end Value

namespace Group

variable {document other : Value}

/-- Where no key is empty or holds a dot, every token is found by its own path. -/
theorem found_build (hkeys : document.KeysDistinct)
    (hnames : ∀ p ∈ (build document).placedNodes, ∀ key ∈ p.1, key ≠ "" ∧ '.' ∉ key.toList) :
    (build document).Found := by
  intro place t ht
  have hplaced := (mem_placedTokens_iff (keysDistinct_build hkeys)).mpr ht
  obtain ⟨p, hp, he⟩ := List.mem_filterMap.mp hplaced
  obtain ⟨u, -, he⟩ := Option.map_eq_some_iff.mp he
  have hplace : p.1 = place := congrArg Prod.fst he
  obtain ⟨name, members, parent, inherited, rfl⟩ := tokenAt?_build ht
  cases place with
  | nil => cases ht
  | cons key place => exact placeOf_pathAt (g := build document) rfl (hplace ▸ hnames p hp)

/-- A tree in which every token is found by its own path is ready for resolution, if it holds no
`$ref` member. -/
theorem Found.prepared_build (hkeys : document.KeysDistinct) (hfound : (build document).Found)
    (hrefs : ∀ place t, (build document).tokenAt? place = some t → t.value.NoRefs) :
    (build document).Prepared := by
  refine prepared_of_places hkeys (fun place other t u ht hu hpath => ?_) fun place t ht =>
    (hrefs place t ht).refsAreTexts
  rw [← hfound place t ht, ← hfound other u hu, hpath]

/-- The trees of regrouped documents are resolved alike. -/
theorem agree_build (hkeys : document.KeysDistinct)
    (hnames : ∀ p ∈ (build document).placedNodes, ∀ key ∈ p.1, key ≠ "" ∧ '.' ∉ key.toList)
    (hrefs : ∀ t ∈ (build document).tokens, t.value.NoRefs) (h : document.Regrouped true other) :
    (build document).Agree (build other) := by
  have hsame := fun place => (h.tokenAt?_build hkeys place).symm
  have hfound := found_build hkeys hnames
  have hfound' : (build other).Found := fun place t ht => hfound place t (hsame place ▸ ht)
  have hfree : ∀ place t, (build document).tokenAt? place = some t → t.value.NoRefs :=
    fun place t ht => hrefs t ((mem_tokens_iff (keysDistinct_build hkeys)).mpr ⟨place, ht⟩)
  exact ⟨hfound.prepared_build hkeys hfree,
    hfound'.prepared_build (h.keysDistinct hkeys) fun place t ht =>
      hfree place t (hsame place ▸ ht), hfound, hsame⟩

/-- **Resolution does not depend on the order of the members of groups**: it comes to its end for
both documents or for neither.  If it does, the same tokens are resolved with the same values, and
the same problems are reported, though in another order.  It does if the limit and all integers in
values have numerals. -/
theorem resolve_regrouped (document other : Value) (maxDepth : Int)
    (hkeys : document.KeysDistinct)
    (hnames : ∀ p ∈ (build document).placedNodes, ∀ key ∈ p.1, key ≠ "" ∧ '.' ∉ key.toList)
    (hrefs : ∀ t ∈ (build document).tokens, t.value.NoRefs) (h : document.Regrouped true other) :
    (∀ problems, ((Resolver.start maxDepth).resolve (build document)).2.2 = .ok problems →
      ∃ problems', ((Resolver.start maxDepth).resolve (build other)).2.2 = .ok problems' ∧
        (∀ place, ((Resolver.start maxDepth).resolve (build other)).1.tokenAt? place =
          ((Resolver.start maxDepth).resolve (build document)).1.tokenAt? place) ∧
        (problems'.map fun e => (e.path, e.kind, e.reference)).Perm
          (problems.map fun e => (e.path, e.kind, e.reference))) ∧
      (((Resolver.start maxDepth).resolve (build other)).2.2.toOption.isSome =
        ((Resolver.start maxDepth).resolve (build document)).2.2.toOption.isSome) ∧
      (isWritable maxDepth = true → (∀ t ∈ (build document).tokens, t.value.HasNumerals) →
        ∃ problems, ((Resolver.start maxDepth).resolve (build document)).2.2 = .ok problems) := by
  have hagree := agree_build hkeys hnames hrefs h
  rw [resolve_eq, resolve_eq]
  refine ⟨fun problems houtcome => ?_, ?_, fun hlimit hnumerals =>
    ⟨_, exists_resolve hkeys hlimit hnumerals⟩⟩
  · obtain ⟨hgoing, rfl⟩ := Pass.outcome_eq_ok.mp houtcome
    refine ⟨_, Pass.outcome_eq_ok.mpr ⟨(hagree.going_iff maxDepth).mpr hgoing, rfl⟩, ?_⟩
    exact ⟨hagree.tokenAt?_final hgoing, hagree.problems_perm hgoing⟩
  · rw [Bool.eq_iff_iff, Pass.isSome_outcome, Pass.isSome_outcome]
    exact hagree.going_iff maxDepth

/-- Two aliases of one another, and a group with an alias of nothing. -/
def crossed : Value :=
  .object
    [("up", .object [(valueKey, .text "\x7bdown\x7d")]),
      ("down", .object [(valueKey, .text "\x7bup\x7d")]),
      ("ink", .object
        [("base", .object [(valueKey, .text "#123")]),
          ("lost", .object [(valueKey, .text "\x7bpaper\x7d")]),
          ("text", .object [(valueKey, .text "\x7bink.base\x7d")])])]

/-- The same with the members of both groups in reverse order. -/
def crossedBack : Value :=
  .object
    [("ink", .object
        [("text", .object [(valueKey, .text "\x7bink.base\x7d")]),
          ("lost", .object [(valueKey, .text "\x7bpaper\x7d")]),
          ("base", .object [(valueKey, .text "#123")])]),
      ("down", .object [(valueKey, .text "\x7bup\x7d")]),
      ("up", .object [(valueKey, .text "\x7bdown\x7d")])]

theorem crossed_regrouped : crossed.Regrouped true crossedBack := by
  have hink : Value.Regrouped false
      (.object
        [("base", .object [(valueKey, .text "#123")]),
          ("lost", .object [(valueKey, .text "\x7bpaper\x7d")]),
          ("text", .object [(valueKey, .text "\x7bink.base\x7d")])])
      (.object
        [("text", .object [(valueKey, .text "\x7bink.base\x7d")]),
          ("lost", .object [(valueKey, .text "\x7bpaper\x7d")]),
          ("base", .object [(valueKey, .text "#123")])]) :=
    .group (Or.inr (by decide))
      (.cons (.mk (.same _)) (.cons (.mk (.same _)) (.cons (.mk (.same _)) .nil)))
      (List.reverse_perm _).symm
  exact .group (Or.inl rfl)
    (.cons (.mk (.same _)) (.cons (.mk (.same _)) (.cons (.mk hink) .nil)))
    (List.reverse_perm _).symm

theorem resolve_regrouped_crossed :
    crossed.KeysDistinct ∧
      (∀ p ∈ (build crossed).placedNodes, ∀ key ∈ p.1, key ≠ "" ∧ '.' ∉ key.toList) ∧
      (∀ t ∈ (build crossed).tokens, t.value.NoRefs) ∧ crossed.Regrouped true crossedBack ∧
      isWritable 10 = true ∧ (∀ t ∈ (build crossed).tokens, t.value.HasNumerals) ∧
      ∃ problems problems',
        ((Resolver.start 10).resolve (build crossed)).2.2 = .ok problems ∧
          ((Resolver.start 10).resolve (build crossedBack)).2.2 = .ok problems' ∧
          (∀ place, ((Resolver.start 10).resolve (build crossedBack)).1.tokenAt? place =
            ((Resolver.start 10).resolve (build crossed)).1.tokenAt? place) ∧
          (problems'.map fun e => (e.path, e.kind, e.reference)).Perm
            (problems.map fun e => (e.path, e.kind, e.reference)) := by
  have hkeys : crossed.KeysDistinct := by decide +kernel
  have hnames : ∀ p ∈ (build crossed).placedNodes, ∀ key ∈ p.1, key ≠ "" ∧ '.' ∉ key.toList := by
    decide +kernel
  have hrefs : ∀ t ∈ (build crossed).tokens, t.value.NoRefs := by decide +kernel
  have hlimit : isWritable 10 = true := by decide +kernel
  have hnumerals : ∀ t ∈ (build crossed).tokens, t.value.HasNumerals := by decide +kernel
  obtain ⟨hsame, -, hreturns⟩ :=
    resolve_regrouped crossed crossedBack 10 hkeys hnames hrefs crossed_regrouped
  obtain ⟨problems, hproblems⟩ := hreturns hlimit hnumerals
  obtain ⟨problems', hproblems', hresult⟩ := hsame problems hproblems
  exact ⟨hkeys, hnames, hrefs, crossed_regrouped, hlimit, hnumerals, problems, problems',
    hproblems, hproblems', hresult⟩

/-- The members of the cycle are named in the order of the document. -/
example :
    ((Resolver.start 10).resolve (build crossed)).2.2.toOption.map
        (List.map fun e => (e.path, e.kind)) =
          some [("up", .circular), ("down", .circular), ("ink.lost", .missing)] ∧
      ((Resolver.start 10).resolve (build crossedBack)).2.2.toOption.map
        (List.map fun e => (e.path, e.kind)) =
          some [("down", .circular), ("up", .circular), ("ink.lost", .missing)] := by
  decide +kernel

end Group

end DesignTokens
