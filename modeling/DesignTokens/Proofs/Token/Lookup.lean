import DesignTokens.Proofs.Token.DocumentOrder
import DesignTokens.Proofs.Token.Tour

/-!
# Nodes are found by their paths

The path of a node is the path of the root with the keys that lead to the node behind it
(`Node.exists_builtOf`).  Where no key is empty or holds a dot, the keys are read off it again,
whatever the path of the root is (`Group.placeOf_foldl`).  So every node is found by its own path,
and its parent by the path that it keeps of it (`Group.nodes_located`).
-/

namespace DesignTokens

namespace Node

variable {m : Node}

theorem at?_append (n : Node) (front rest : Place) :
    n.at? (front ++ rest) = (n.at? front).bind fun m => m.at? rest := by
  induction front generalizing n with
  | nil => rfl
  | cons key front ih =>
    rw [List.cons_append, at?, at?, Option.bind_assoc]
    exact congrArg _ (funext fun m => ih m)

theorem exists_holder {n : Node} {front : Place} {key : String}
    (h : n.at? (front ++ [key]) = some m) :
    ∃ holder : Group, n.at? front = some holder.toNode ∧ holder.children.get? key = some m := by
  rw [at?_append] at h
  obtain ⟨c, hc, hm⟩ := Option.bind_eq_some_iff.mp h
  cases c with
  | token t => cases hm
  | group label children =>
    obtain ⟨d, hd, hm⟩ := at?_group_cons_eq_some.mp hm
    exact ⟨⟨label, children⟩, hc, hd.trans hm⟩

end Node

namespace Group

variable {g : Group} {document : Value} {place : Place} {n : Node}

/-- Keys that are not empty and hold no dot are read off a path, whatever the path of the root. -/
theorem placeOf_foldl (hkeys : ∀ key ∈ place, key ≠ "" ∧ '.' ∉ key.toList) :
    g.placeOf (place.foldl childPath g.label.path) = place := by
  cases place with
  | nil => exact if_pos (Or.inr rfl)
  | cons key place =>
    by_cases hroot : g.label.path = ""
    · rw [hroot]
      exact placeOf_pathAt hroot hkeys
    · have htext := foldl_childPath hroot (key :: place)
      have hlonger : ((key :: place).foldl childPath g.label.path).toList =
          (g.label.path.toList ++ ['.']) ++ Text.joinOn '.' ((key :: place).map String.toList) := by
        rw [htext, Text.joinOn_cons_of_ne_nil (by simp), List.append_assoc]
        rfl
      have hne : (key :: place).foldl childPath g.label.path ≠ "" := by
        intro he
        rw [he] at hlonger
        simp at hlonger
      have hnot : (key :: place).foldl childPath g.label.path ≠ g.label.path := by
        intro he
        have hlength := congrArg List.length hlonger
        rw [he, List.length_append, List.length_append, List.length_singleton] at hlength
        omega
      have hdots : ∀ part ∈ (key :: place).map String.toList, '.' ∉ part := by
        intro part hpart
        obtain ⟨k, hk, rfl⟩ := List.mem_map.mp hpart
        exact (hkeys k hk).2
      unfold placeOf
      rw [if_neg (not_or.mpr ⟨hne, hnot⟩)]
      dsimp only
      rw [if_neg hroot, Text.afterFront?_eq_some_iff.mpr hlonger, Option.getD_some,
        Text.splitOn_joinOn '.' (by simp) hdots, List.map_map]
      exact (List.map_congr_left fun k _ => String.ofList_toList).trans (List.map_id _)

/-- A node is found by its path at its place, and the path that it keeps of its parent leads to the
group that holds it. -/
structure Locates (g : Group) (place : Place) (n : Node) : Prop where
  place_eq : g.placeOf n.path = place
  find : g.find? n.path = some n
  parent : ∃ front key holder, place = front ++ [key] ∧ g.at? front = some holder.toNode ∧
    holder.children.get? key = some n ∧ g.parentOf? n = some holder

theorem locates_buildAt {path : String} {parentPath inherited : Option String}
    (hkeys : ∀ key ∈ place, key ≠ "" ∧ '.' ∉ key.toList) (hne : place ≠ [])
    (h : (buildAt path parentPath inherited document).at? place = some n) :
    (buildAt path parentPath inherited document).Locates place n := by
  obtain ⟨v, hbuilt⟩ := Node.exists_builtOf hne h
  obtain ⟨hpath, hparent⟩ := hbuilt.paths
  generalize hg : buildAt path parentPath inherited document = g at h ⊢
  have hlabel : g.label.path = path := hg ▸ rfl
  have hplace : g.placeOf n.path = place := by
    rw [hpath, ← hlabel]
    exact placeOf_foldl hkeys
  refine ⟨hplace, (congrArg g.at? hplace).trans h, ?_⟩
  obtain ⟨front, key, rfl⟩ : ∃ front key, place = front ++ [key] :=
    ⟨_, _, (List.dropLast_concat_getLast hne).symm⟩
  obtain ⟨holder, hholder, hchild⟩ := Node.exists_holder h
  refine ⟨front, key, holder, rfl, hholder, hchild, ?_⟩
  have hfront : g.placeOf (front.foldl childPath path) = front := by
    rw [← hlabel]
    exact placeOf_foldl fun k hk => hkeys k (List.mem_append_left _ hk)
  unfold parentOf? find?
  rw [hparent, List.dropLast_concat, Option.bind_some, hfront]
  exact congrArg (Option.bind · Node.group?) hholder

/-- **Every node is listed once, and found by its path**.  A tour of the tree of a document, with
whatever path for its root, ends and has passed the listed nodes.  They stand at the places where
the document has objects that are reached through groups, in the order of the document.  If no key
on the way to them is empty or holds a dot, no two of them have one path, each is found by its path
at its place, and its parent is the group that holds it. -/
theorem nodes_located (document : Value) (path : String) (parentPath inherited : Option String)
    (hkeys : document.KeysDistinct)
    (hnames : ∀ place, document.NodeAt place → ∀ key ∈ place, key ≠ "" ∧ '.' ∉ key.toList) :
    let tree := buildAt path parentPath inherited document
    (∃ turns, Tour.turn^[turns] (Tour.start tree) = ⟨[], tree.nodes⟩) ∧
      (∀ place n, (place, n) ∈ tree.placedNodes ↔ place ≠ [] ∧ tree.at? place = some n) ∧
      (∀ place, place ∈ tree.placedNodes.map Prod.fst ↔ document.NodeAt place) ∧
      (tree.placedNodes.map Prod.fst).Pairwise document.Precedes ∧
      (tree.nodes.map Node.path).Nodup ∧
      ∀ place n, (place, n) ∈ tree.placedNodes → tree.Locates place n := by
  intro tree
  have hlisted : ∀ place n, (place, n) ∈ tree.placedNodes ↔
      place ≠ [] ∧ tree.at? place = some n := fun place n =>
    mem_placedNodes_iff (keysDistinct_buildAt hkeys path parentPath inherited)
  have hplaces : ∀ place, place ∈ tree.placedNodes.map Prod.fst ↔ document.NodeAt place := by
    intro place
    rw [← exists_at?_buildAt_iff hkeys path parentPath inherited]
    simp only [List.mem_map, Prod.exists, exists_and_right, exists_eq_right, hlisted,
      exists_and_left]
    exact Iff.rfl
  have hlocates : ∀ place n, (place, n) ∈ tree.placedNodes → tree.Locates place n := by
    intro place n hmem
    obtain ⟨hne, hat⟩ := (hlisted place n).mp hmem
    exact locates_buildAt
      (hnames place ((hplaces place).mp (List.mem_map.mpr ⟨_, hmem, rfl⟩))) hne hat
  have horder := pairwise_placedNodes_buildAt hkeys path parentPath inherited
  refine ⟨Tour.exists_turns_start tree, hlisted, hplaces, horder, ?_, hlocates⟩
  -- The places are distinct, and each is read off the path of its node.
  have hnodup : (tree.placedNodes.map Prod.fst).Nodup := horder.imp fun h => h.ne hkeys
  have hread : (tree.nodes.map Node.path).map tree.placeOf = tree.placedNodes.map Prod.fst := by
    unfold nodes
    rw [List.map_map, List.map_map]
    exact List.map_congr_left fun p hp => (hlocates p.1 p.2 hp).place_eq
  exact List.Nodup.of_map _ (hread ▸ hnodup)

def nestedPalette : Value :=
  .object [("color", .object [(typeKey, .text "color"),
      ("base", .object [("red", .object [(valueKey, .text "#f00")]), ("color", .object [])]),
      ("note", .text "plain"), ("ink", .object [(valueKey, .text "\x7bcolor.base.red\x7d")])]),
    ("gap", .object [(valueKey, .int 4)])]

theorem nodes_located_nestedPalette :
    nestedPalette.KeysDistinct ∧
      (∀ place, nestedPalette.NodeAt place → ∀ key ∈ place, key ≠ "" ∧ '.' ∉ key.toList) ∧
      let tree := buildAt "color.v1" none none nestedPalette
      (∃ turns, Tour.turn^[turns] (Tour.start tree) = ⟨[], tree.nodes⟩) ∧
        (tree.nodes.map Node.path).Nodup ∧
        nestedPalette.NodeAt ["color", "base", "red"] ∧
        ∃ n, (["color", "base", "red"], n) ∈ tree.placedNodes ∧
          tree.Locates ["color", "base", "red"] n := by
  have hkeys : nestedPalette.KeysDistinct := by decide +kernel
  have hplain : ∀ p ∈ (build nestedPalette).placedNodes,
      ∀ key ∈ p.1, key ≠ "" ∧ '.' ∉ key.toList := by decide +kernel
  have hnames : ∀ place, nestedPalette.NodeAt place →
      ∀ key ∈ place, key ≠ "" ∧ '.' ∉ key.toList := by
    intro place hplace
    obtain ⟨hne, n, hat⟩ := (exists_at?_buildAt_iff hkeys "" none none).mpr hplace
    exact hplain _ ((mem_placedNodes_iff (keysDistinct_build hkeys)).mpr ⟨hne, hat⟩)
  have hred : nestedPalette.NodeAt ["color", "base", "red"] :=
    ⟨by simp, ⟨_, rfl⟩, by decide +kernel⟩
  obtain ⟨htour, -, hplaces, -, hpaths, hlocates⟩ :=
    nodes_located nestedPalette "color.v1" none none hkeys hnames
  obtain ⟨⟨place, n⟩, hmem, rfl⟩ := List.mem_map.mp ((hplaces _).mpr hred)
  exact ⟨hkeys, hnames, htour, hpaths, hred, n, hmem, hlocates _ n hmem⟩

end Group

end DesignTokens
