import DesignTokens.Proofs.Token.Places

/-!
# Outlines of trees

The outline of a tree is what assembly and resolution leave as it is: the keys, the
labels of the groups, and of each token its name, path, type and metadata.  A token
may be replaced by one with the same outline (`Node.outline_modifyToken`), and then
the same labels and keys stand at the same places (`Node.at?_outline`).
-/

namespace DesignTokens

/-- A token without its value, its references and its result. -/
def Token.outline (t : Token) : Token :=
  { t with
    value := .null
    references := []
    pointers := []
    malformed := []
    resolved := false
    resolvedValue := .null }

theorem Token.metadata_eq_of_outline {t u : Token} (h : t.outline = u.outline) :
    t.metadata = u.metadata :=
  show t.outline.metadata = u.outline.metadata from congrArg Token.metadata h

theorem Token.path_eq_of_outline {t u : Token} (h : t.outline = u.outline) : t.path = u.path :=
  show t.outline.path = u.outline.path from congrArg Token.path h

namespace Node

mutual

/-- The outline of a node. -/
def outline : Node → Node
  | .token t => .token t.outline
  | .group label children => .group label (outlineChildren children)

def outlineChildren : List (String × Node) → List (String × Node)
  | [] => []
  | (key, n) :: children => (key, n.outline) :: outlineChildren children

end

variable {n m : Node} {label : Label} {children : List (String × Node)} {key : String}
  {place : Place} {t : Token}

theorem get?_outlineChildren (children : List (String × Node)) (key : String) :
    Table.get? (outlineChildren children) key = (Table.get? children key).map outline := by
  induction children with
  | nil => rfl
  | cons p children ih =>
    obtain ⟨k, n⟩ := p
    rw [outlineChildren, Table.get?, Table.get?, ih]
    split
    · rfl
    · rfl

theorem keys_outlineChildren (children : List (String × Node)) :
    Table.keys (outlineChildren children) = Table.keys children := by
  induction children with
  | nil => rfl
  | cons p children ih => exact congrArg (List.cons p.1) ih

/-- The outline of what stands at a place stands there in the outline. -/
theorem at?_outline (n : Node) (place : Place) :
    n.outline.at? place = (n.at? place).map outline := by
  induction place generalizing n with
  | nil => rfl
  | cons key place ih =>
    cases n with
    | token t => rfl
    | group label children =>
      rw [outline, at?_group_cons, at?_group_cons, get?_outlineChildren]
      cases Table.get? children key with
      | none => rfl
      | some c => exact ih c

theorem token?_outline (n : Node) : n.outline.token? = n.token?.map Token.outline := by
  cases n <;> rfl

theorem tokenAt?_outline (n : Node) (place : Place) :
    n.outline.tokenAt? place = (n.tokenAt? place).map Token.outline := by
  unfold tokenAt?
  rw [at?_outline]
  cases n.at? place with
  | none => rfl
  | some c => exact token?_outline c

theorem under_outline (n : Node) (here : Place) :
    n.outline.under here = (n.under here).map fun p => (p.1, p.2.outline) := by
  induction n using inductionOn generalizing here with
  | token t => rfl
  | group label children ih =>
    show underChildren here (outlineChildren children) = (underChildren here children).map _
    induction children with
    | nil => rfl
    | cons p children ihChildren =>
      obtain ⟨key, n⟩ := p
      obtain ⟨hn, hchildren⟩ := List.forall_mem_cons.mp ih
      rw [outlineChildren, underChildren, underChildren, ihChildren hchildren, hn,
        List.cons_append, List.cons_append, List.map_cons, List.map_append]

theorem outlineChildren_modify {f : Node → Node}
    (hf : ∀ c, Table.get? children key = some c → (f c).outline = c.outline) :
    outlineChildren (Table.modify children key f) = outlineChildren children := by
  induction children with
  | nil => rfl
  | cons p children ih =>
    obtain ⟨k, c⟩ := p
    rw [Table.modify]
    by_cases hk : k = key
    · rw [if_pos hk, outlineChildren, outlineChildren, hf c (if_pos hk)]
    · rw [if_neg hk, outlineChildren, outlineChildren, ih]
      exact fun d hd => hf d ((if_neg hk).trans hd)

/-- A token may be replaced by one with the same outline. -/
theorem outline_modifyToken {f : Token → Token}
    (hf : ∀ t, n.tokenAt? place = some t → (f t).outline = t.outline) :
    (n.modifyToken f place).outline = n.outline := by
  induction place generalizing n with
  | nil =>
    cases n with
    | token t => exact congrArg Node.token (hf t rfl)
    | group label children => rfl
  | cons key place ih =>
    cases n with
    | token t => rfl
    | group label children =>
      rw [modifyToken, outline, outline, outlineChildren_modify]
      intro c hc
      refine ih fun t ht => hf t ?_
      rw [tokenAt?_group_cons, hc]
      exact ht

/-! ### Nodes with the same outline -/

theorem exists_at?_of_outline (h : n.outline = m.outline) {c : Node} (hc : n.at? place = some c) :
    ∃ d, m.at? place = some d ∧ c.outline = d.outline := by
  have hat := congrArg (fun k => k.at? place) h
  simp only [at?_outline, hc, Option.map_some] at hat
  obtain ⟨d, hd, he⟩ := Option.map_eq_some_iff.mp hat.symm
  exact ⟨d, hd, he.symm⟩

theorem exists_tokenAt?_of_outline (h : n.outline = m.outline) (ht : n.tokenAt? place = some t) :
    ∃ u, m.tokenAt? place = some u ∧ t.outline = u.outline := by
  have hat := congrArg (fun k => k.tokenAt? place) h
  simp only [tokenAt?_outline, ht, Option.map_some] at hat
  obtain ⟨u, hu, he⟩ := Option.map_eq_some_iff.mp hat.symm
  exact ⟨u, hu, he.symm⟩

theorem exists_group_of_outline (h : m.outline = (Node.group label children).outline) :
    ∃ others, m = .group label others ∧ outlineChildren others = outlineChildren children := by
  cases m with
  | token t => cases h
  | group label' others =>
    obtain ⟨rfl, hchildren⟩ := Node.group.inj h
    exact ⟨others, rfl, hchildren⟩

theorem exists_child_of_outline {others : List (String × Node)}
    (h : outlineChildren children = outlineChildren others) {c : Node}
    (hc : Table.get? children key = some c) :
    ∃ d, Table.get? others key = some d ∧ c.outline = d.outline := by
  have hget := congrArg (fun k => Table.get? k key) h
  simp only [get?_outlineChildren, hc, Option.map_some] at hget
  obtain ⟨d, hd, he⟩ := Option.map_eq_some_iff.mp hget.symm
  exact ⟨d, hd, he.symm⟩

theorem KeysDistinct.of_outline (h : m.KeysDistinct) (he : n.outline = m.outline) :
    n.KeysDistinct := by
  intro place label children hat
  obtain ⟨d, hd, hsame⟩ := exists_at?_of_outline he hat
  obtain ⟨others, rfl, hchildren⟩ := exists_group_of_outline hsame.symm
  rw [← keys_outlineChildren, ← hchildren, keys_outlineChildren]
  exact h place label others hd

end Node

namespace Group

/-- The outline of a tree. -/
def outline (g : Group) : Node := g.toNode.outline

variable {g h : Group} {place : Place}

theorem outline_modifyToken {f : Token → Token}
    (hf : ∀ t, g.tokenAt? place = some t → (f t).outline = t.outline) :
    (g.modifyToken place f).outline = g.outline := by
  unfold outline
  rw [toNode_modifyToken]
  exact Node.outline_modifyToken hf

theorem exists_tokenAt?_of_outline (hg : g.outline = h.outline) {t : Token}
    (ht : g.tokenAt? place = some t) : ∃ u, h.tokenAt? place = some u ∧ t.outline = u.outline :=
  Node.exists_tokenAt?_of_outline hg ht

/-- The outline of a tree has its tokens where the tree has them, in the same order. -/
theorem places_of_outline (hg : g.outline = h.outline) :
    g.placedTokens.map Prod.fst = h.placedTokens.map Prod.fst := by
  have hplaces : ∀ g : Group, g.placedTokens.map Prod.fst =
      (g.outline.under []).filterMap fun p => p.2.token?.map fun _ => p.1 := by
    intro g
    unfold placedTokens placedNodes outline
    rw [Node.under_outline, List.map_filterMap, List.filterMap_map]
    refine List.filterMap_congr fun p _ => ?_
    rw [Function.comp_apply, Node.token?_outline]
    cases p.2.token? with
    | none => rfl
    | some t => rfl
  rw [hplaces, hplaces, hg]

theorem exists_findToken?_of_outline (hg : g.outline = h.outline) {path : String} {t : Token}
    (ht : g.findToken? path = some t) :
    ∃ u, h.findToken? path = some u ∧ t.outline = u.outline := by
  obtain ⟨label, children⟩ := g
  obtain ⟨others, hsame, -⟩ := Node.exists_group_of_outline hg.symm
  obtain ⟨rfl, rfl⟩ := Node.group.inj hsame
  exact exists_tokenAt?_of_outline hg ht

end Group

end DesignTokens
