import DesignTokens.Proofs.Table
import DesignTokens.Token.Tree

/-!
# Places in a token tree

A tree has distinct keys if every group in it has (`Node.KeysDistinct`).  Then what
stands below a node is what is found at its places (`Node.mem_under_iff`), and the
tokens of a tree are the tokens at its places (`Group.mem_placedTokens_iff`).

Changing the token at a place changes what is found there and nowhere else
(`Group.tokenAt?_modifyToken`); the keys stay as they are
(`Group.KeysDistinct.modifyToken`).
-/

namespace DesignTokens

namespace Node

@[elab_as_elim]
theorem inductionOn {motive : Node → Prop} (token : ∀ t, motive (.token t))
    (group : ∀ label children, (∀ p ∈ children, motive p.2) → motive (.group label children)) :
    ∀ n, motive n := by
  refine @Node.rec motive (fun children => ∀ p ∈ children, motive p.2) (fun p => motive p.2)
    token group ?_ ?_ fun _ _ h => h
  · exact fun _ h => absurd h List.not_mem_nil
  · intro first children hfirst hchildren p hp
    rcases List.mem_cons.mp hp with rfl | hp
    · exact hfirst
    · exact hchildren p hp

/-- In every group of a tree each key stands once. -/
def KeysDistinct (n : Node) : Prop :=
  ∀ place label children, n.at? place = some (.group label children) →
    (Table.keys children).Nodup

/-! ### Going down -/

theorem at?_group_cons {label : Label} {children : List (String × Node)} {key : String}
    {place : Place} :
    (Node.group label children).at? (key :: place) =
      (Table.get? children key).bind fun c => c.at? place := rfl

theorem at?_group_cons_eq_some {label : Label} {children : List (String × Node)} {key : String}
    {place : Place} {m : Node} :
    (Node.group label children).at? (key :: place) = some m ↔
      ∃ c, Table.get? children key = some c ∧ c.at? place = some m := Option.bind_eq_some_iff

namespace KeysDistinct

variable {label : Label} {children : List (String × Node)}

theorem here (h : (Node.group label children).KeysDistinct) : (Table.keys children).Nodup :=
  h [] label children rfl

theorem child (h : (Node.group label children).KeysDistinct) {p : String × Node}
    (hp : p ∈ children) : p.2.KeysDistinct := by
  intro place below grandchildren hat
  refine h (p.1 :: place) below grandchildren ?_
  exact at?_group_cons_eq_some.mpr ⟨p.2, Table.get?_of_mem h.here hp, hat⟩

end KeysDistinct

theorem keysDistinct_group {label : Label} {children : List (String × Node)}
    (hkeys : (Table.keys children).Nodup) (hchildren : ∀ p ∈ children, p.2.KeysDistinct) :
    (Node.group label children).KeysDistinct := by
  intro place below grandchildren hat
  cases place with
  | nil =>
    cases Option.some.inj hat
    exact hkeys
  | cons key place =>
    obtain ⟨c, hc, hat⟩ := at?_group_cons_eq_some.mp hat
    exact hchildren _ (Table.mem_of_get? hc) place below grandchildren hat

theorem keysDistinct_token (t : Token) : (Node.token t).KeysDistinct := by
  intro place label children hat
  cases place with
  | nil => cases Option.some.inj hat
  | cons key place => cases hat

/-! ### What stands below a node -/

theorem mem_underChildren_iff {here : Place} {children : List (String × Node)}
    {q : Place × Node} :
    q ∈ underChildren here children ↔
      ∃ p ∈ children, q = (here ++ [p.1], p.2) ∨ q ∈ p.2.under (here ++ [p.1]) := by
  induction children with
  | nil => simp [underChildren]
  | cons p children ih =>
    obtain ⟨key, n⟩ := p
    rw [underChildren, List.cons_append, List.mem_cons, List.mem_append, ih, ← or_assoc]
    simp only [List.mem_cons, exists_eq_or_imp]

/-- What is found at a place below a node stands there. -/
theorem mem_under_of_at? {n m : Node} {here : Place} {key : String} {rest : Place}
    (hat : n.at? (key :: rest) = some m) : (here ++ key :: rest, m) ∈ n.under here := by
  induction rest generalizing n here key with
  | nil =>
    cases n with
    | token t => cases hat
    | group label children =>
      obtain ⟨c, hc, hat⟩ := at?_group_cons_eq_some.mp hat
      obtain rfl := Option.some.inj hat
      rw [under, mem_underChildren_iff]
      exact ⟨(key, c), Table.mem_of_get? hc, Or.inl rfl⟩
  | cons next rest ih =>
    cases n with
    | token t => cases hat
    | group label children =>
      obtain ⟨c, hc, hat⟩ := at?_group_cons_eq_some.mp hat
      rw [under, mem_underChildren_iff, List.append_cons]
      exact ⟨(key, c), Table.mem_of_get? hc, Or.inr (ih hat)⟩

/-- Below a node stands what is found at the places below it. -/
theorem mem_under_iff {n : Node} (h : n.KeysDistinct) {here place : Place} {m : Node} :
    (place, m) ∈ n.under here ↔
      ∃ key rest, place = here ++ key :: rest ∧ n.at? (key :: rest) = some m := by
  constructor
  · intro hm
    induction n using inductionOn generalizing here with
    | token t =>
      rw [under] at hm
      exact absurd hm List.not_mem_nil
    | group label children ih =>
      rw [under, mem_underChildren_iff] at hm
      obtain ⟨p, hp, hm | hm⟩ := hm
      · cases hm
        exact ⟨p.1, [], rfl, at?_group_cons_eq_some.mpr ⟨p.2, Table.get?_of_mem h.here hp, rfl⟩⟩
      · obtain ⟨key, rest, rfl, hat⟩ := ih p hp (h.child hp) hm
        refine ⟨p.1, key :: rest, by simp, at?_group_cons_eq_some.mpr ⟨p.2, ?_, hat⟩⟩
        exact Table.get?_of_mem h.here hp
  · rintro ⟨key, rest, rfl, hat⟩
    exact mem_under_of_at? hat

/-! ### Changing a token -/

def tokenAt? (n : Node) (place : Place) : Option Token := (n.at? place).bind token?

theorem tokenAt?_group_cons {label : Label} {children : List (String × Node)} {key : String}
    {place : Place} :
    (Node.group label children).tokenAt? (key :: place) =
      (Table.get? children key).bind fun c => c.tokenAt? place := by
  unfold tokenAt?
  rw [at?_group_cons, Option.bind_assoc]

theorem tokenAt?_modifyToken (f : Token → Token) (n : Node) (place other : Place) :
    (n.modifyToken f place).tokenAt? other =
      if other = place then (n.tokenAt? other).map f else n.tokenAt? other := by
  induction place generalizing n other with
  | nil =>
    cases n with
    | token t =>
      cases other with
      | nil => rfl
      | cons key other => rfl
    | group label children =>
      cases other with
      | nil => rfl
      | cons key other => rfl
  | cons key place ih =>
    cases n with
    | token t =>
      cases other with
      | nil => rfl
      | cons next other =>
        show none = if _ then none else none
        rw [ite_self]
    | group label children =>
      cases other with
      | nil => rfl
      | cons next other =>
        rw [modifyToken, tokenAt?_group_cons, tokenAt?_group_cons, Table.get?_modify]
        cases hc : Table.get? children next with
        | none =>
          show (if _ then none else none : Option Node).bind _ = if _ then none else none
          rw [ite_self, ite_self]
          rfl
        | some c =>
          by_cases hk : next = key
          · rw [if_pos hk]
            show (modifyToken f c place).tokenAt? other = _
            rw [ih c other, hk]
            simp
          · have hne : next :: other ≠ key :: place := fun e => hk (List.cons.inj e).1
            rw [if_neg hk, if_neg hne]

theorem KeysDistinct.modifyToken {n : Node} (h : n.KeysDistinct) (f : Token → Token)
    (place : Place) : (n.modifyToken f place).KeysDistinct := by
  induction place generalizing n with
  | nil =>
    cases n with
    | token t => exact keysDistinct_token (f t)
    | group label children => exact h
  | cons key place ih =>
    cases n with
    | token t => exact h
    | group label children =>
      have hkeys : Table.keys (Table.modify children key fun c => c.modifyToken f place) =
          Table.keys children := Table.keys_modify _
      rw [Node.modifyToken]
      refine keysDistinct_group (hkeys ▸ h.here) ?_
      intro p hp
      have hget := Table.get?_of_mem (hkeys ▸ h.here) hp
      rw [Table.get?_modify] at hget
      split at hget
      · obtain ⟨c, hc, he⟩ := Option.map_eq_some_iff.mp hget
        rw [← he]
        exact ih (h.child (Table.mem_of_get? hc))
      · exact h.child (Table.mem_of_get? hget)

end Node

namespace Group

variable {g : Group}

/-- In every group of a tree each key stands once. -/
def KeysDistinct (g : Group) : Prop := g.toNode.KeysDistinct

theorem toNode_modifyToken (g : Group) (place : Place) (f : Token → Token) :
    (g.modifyToken place f).toNode = g.toNode.modifyToken f place := by
  obtain ⟨label, children⟩ := g
  cases place <;> rfl

theorem label_modifyToken (g : Group) (place : Place) (f : Token → Token) :
    (g.modifyToken place f).label = g.label := by
  obtain ⟨label, children⟩ := g
  cases place <;> rfl

theorem KeysDistinct.modifyToken (h : g.KeysDistinct) (place : Place) (f : Token → Token) :
    (g.modifyToken place f).KeysDistinct := by
  unfold KeysDistinct
  rw [toNode_modifyToken]
  exact Node.KeysDistinct.modifyToken h f place

theorem tokenAt?_modifyToken (g : Group) (place other : Place) (f : Token → Token) :
    (g.modifyToken place f).tokenAt? other =
      if other = place then (g.tokenAt? other).map f else g.tokenAt? other := by
  show (g.modifyToken place f).toNode.tokenAt? other = _
  rw [toNode_modifyToken]
  exact Node.tokenAt?_modifyToken f g.toNode place other

/-- The nodes of a tree are what is found at the places below its root. -/
theorem mem_placedNodes_iff (h : g.KeysDistinct) {place : Place} {n : Node} :
    (place, n) ∈ g.placedNodes ↔ place ≠ [] ∧ g.at? place = some n := by
  unfold placedNodes
  rw [Node.mem_under_iff h]
  constructor
  · rintro ⟨key, rest, rfl, hat⟩
    exact ⟨List.cons_ne_nil key rest, hat⟩
  · rintro ⟨hne, hat⟩
    obtain ⟨key, rest, rfl⟩ := List.exists_cons_of_ne_nil hne
    exact ⟨key, rest, rfl, hat⟩

theorem mem_placedTokens_of_tokenAt? {place : Place} {t : Token}
    (h : g.tokenAt? place = some t) : (place, t) ∈ g.placedTokens := by
  obtain ⟨n, hat, ht⟩ := Option.bind_eq_some_iff.mp h
  unfold placedTokens placedNodes
  refine List.mem_filterMap.mpr ⟨(place, n), ?_, by rw [ht]; rfl⟩
  cases place with
  | nil =>
    cases Option.some.inj hat
    cases ht
  | cons key rest => exact Node.mem_under_of_at? hat

/-- The tokens of a tree are the tokens at its places. -/
theorem mem_placedTokens_iff (h : g.KeysDistinct) {place : Place} {t : Token} :
    (place, t) ∈ g.placedTokens ↔ g.tokenAt? place = some t := by
  constructor
  · intro hm
    obtain ⟨⟨q, n⟩, hq, he⟩ := List.mem_filterMap.mp hm
    obtain ⟨t', ht', he⟩ := Option.map_eq_some_iff.mp he
    cases he
    exact Option.bind_eq_some_iff.mpr ⟨n, ((mem_placedNodes_iff h).mp hq).2, ht'⟩
  · exact mem_placedTokens_of_tokenAt?

theorem mem_tokens_iff (h : g.KeysDistinct) {t : Token} :
    t ∈ g.tokens ↔ ∃ place, g.tokenAt? place = some t := by
  unfold tokens
  rw [List.mem_map]
  constructor
  · rintro ⟨⟨place, t'⟩, hm, rfl⟩
    exact ⟨place, (mem_placedTokens_iff h).mp hm⟩
  · rintro ⟨place, ht⟩
    exact ⟨(place, t), (mem_placedTokens_iff h).mpr ht, rfl⟩

theorem place_eq_of_nodup (h : g.KeysDistinct) (hpaths : (g.tokens.map Token.path).Nodup)
    (place other : Place) (t u : Token) (ht : g.tokenAt? place = some t)
    (hu : g.tokenAt? other = some u) (hp : t.path = u.path) : place = other := by
  rw [tokens, List.map_map] at hpaths
  have hpair := List.inj_on_of_nodup_map hpaths ((mem_placedTokens_iff h).mpr ht)
    ((mem_placedTokens_iff h).mpr hu) hp
  exact congrArg Prod.fst hpair

end Group

end DesignTokens
