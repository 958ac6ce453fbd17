import DesignTokens.Proofs.Resolution.Finish
import DesignTokens.Proofs.Token.Rewriting

/-!
# Resolving a document twice

A document that is given back without a problem holds no reference that a scan would find, so its
tokens are `Token.Plain`.  A run over plain tokens does nothing (`Group.resolveDocument_plain`), and
the document is written as before, member after member (`Group.resolveDocument_twice`).
-/

namespace DesignTokens

/-- A token that refers to nothing and stands for its own value. -/
structure Token.Plain (t : Token) : Prop where
  references : t.references = []
  pointers : t.pointers = []
  resolved : t.resolved = true
  resolvedValue : t.resolvedValue = t.value

theorem Token.plain_build {name path : String} {members : Table String Value}
    {parentPath inherited : Option String}
    (h : (Token.build name path members parentPath inherited).value.occurrences = []) :
    (Token.build name path members parentPath inherited).Plain := by
  have hscan : Scan.of ((members.get? valueKey).getD .null) = ⟨[], [], []⟩ := Value.scan_eq_empty h
  unfold Token.build
  dsimp only
  rw [hscan]
  exact ⟨rfl, rfl, rfl, rfl⟩

/-! ### Runs over plain tokens -/

namespace Assembly

theorem run_assemblePlaces_plain {s : Assembly} {file : String} {places : List Place}
    (h : ∀ place t, s.tokenAt? file place = some t → t.pointers = []) :
    (assemblePlaces file places).run.run s = (.ok (), s) := by
  induction places with
  | nil => rfl
  | cons place places ih =>
    rw [assemblePlaces, run_get_bind]
    cases ht : s.tokenAt? file place with
    | none => exact ih
    | some t =>
      dsimp only
      rw [h place t ht]
      exact ih

end Assembly

theorem Project.assembleFile_plain {g : Group} {file : String} {p : Project}
    (htree : p.tree? file = some g)
    (h : ∀ place t, g.tokenAt? place = some t → t.pointers = []) (maxDepth : Int) :
    p.assembleFile file maxDepth = (p, .ok []) := by
  have hrun : (Assembly.assembleFile file).run.run (Assembly.start p maxDepth) =
      (.ok (), Assembly.start p maxDepth) := by
    rw [Assembly.run_assembleFile_some htree]
    refine Assembly.run_assemblePlaces_plain fun place t ht => h place t ?_
    obtain ⟨tree, hfound, hat⟩ := Option.bind_eq_some_iff.mp ht
    rw [← Option.some.inj (hfound.symm.trans htree)]
    exact hat
  unfold Project.assembleFile
  rw [hrun]
  rfl

namespace Pass

variable {g : Group} {p : Pass}

/-- A pass that has changed neither the tree nor the problems. -/
structure Idle (g : Group) (p : Pass) : Prop where
  tree : p.tree = g
  problems : p.problems = []
  going : p.halted = none

theorem Idle.resolveToken (hg : ∀ place t, g.tokenAt? place = some t → t.Plain) (h : p.Idle g)
    (place : Place) : (p.resolveToken place).Idle g := by
  unfold Pass.resolveToken
  split
  · rename_i t _ ht
    have hplain := hg place t (h.tree ▸ ht)
    rw [hplain.resolved, hplain.references]
    exact ⟨h.tree, h.problems, h.going⟩
  · exact h

end Pass

namespace Group

variable {g : Group} {limit : Int}

theorem aliasCycles_plain (hkeys : g.KeysDistinct)
    (hg : ∀ place t, g.tokenAt? place = some t → t.Plain) : g.aliasCycles.cycles = [] := by
  have hnone : g.tokens.filter (fun t => !t.references.isEmpty) = [] := by
    refine List.filter_eq_nil_iff.mpr fun t ht => ?_
    obtain ⟨place, hat⟩ := (mem_tokens_iff hkeys).mp ht
    rw [(hg place t hat).references]
    exact Bool.false_ne_true
  unfold aliasCycles aliasGraph
  dsimp only
  rw [hnone]
  rfl

theorem idle_finalPass (hkeys : g.KeysDistinct)
    (hg : ∀ place t, g.tokenAt? place = some t → t.Plain) (limit : Int) :
    (g.finalPass limit).Idle g := by
  refine finalPass_induction ⟨rfl, rfl, rfl⟩ (fun p cycle hcycle => ?_) fun p place h =>
    h.resolveToken hg place
  rw [aliasCycles_plain hkeys hg] at hcycle
  exact absurd hcycle List.not_mem_nil

/-- A document whose tokens refer to nothing is given back as its tree is written. -/
theorem resolveDocument_plain {document : Value} (hkeys : (build document).KeysDistinct)
    (hplain : ∀ place t, (build document).tokenAt? place = some t → t.Plain) (maxDepth : Int) :
    resolveDocument document maxDepth = .ok ((build document).toDocument true, []) := by
  have hassemble : (Project.single (build document)).assembleFile "" maxDepth =
      (Project.single (build document), .ok []) :=
    Project.assembleFile_plain rfl (fun place t ht => (hplain place t ht).pointers) maxDepth
  obtain ⟨htree, hproblems, hgoing⟩ := idle_finalPass hkeys hplain maxDepth
  unfold resolveDocument Resolver.run
  rw [show (Resolver.start maxDepth).maxDepth = maxDepth from rfl, hassemble]
  dsimp only
  rw [show (Project.single (build document)).tree? "" = some (build document) from rfl]
  dsimp only
  rw [resolve_eq, htree, Pass.outcome_eq_ok.mpr ⟨hgoing, hproblems⟩]
  rfl

/-! ### Twice -/

/-- What is given back without a problem is a tree with the outline of the document's, in which
every token is resolved to a value without references. -/
theorem exists_tree_of_no_problems {document out : Value} {maxDepth : Int}
    (hkeys : document.KeysDistinct) (hpaths : ((build document).tokens.map Token.path).Nodup)
    (h : resolveDocument document maxDepth = .ok (out, [])) :
    ∃ tree : Group, out = tree.toDocument true ∧ tree.outline = (build document).outline ∧
      tree.KeysDistinct ∧ ∀ place t, tree.tokenAt? place = some t →
        t.resolved = true ∧ t.resolvedValue.occurrences = [] := by
  have houtline := Assembly.outline_assembleFile (Project.single (build document)) "" maxDepth ""
  obtain ⟨tree, htree, hsame⟩ := Option.map_eq_some_iff.mp houtline
  have hscanned : ∀ place t, tree.tokenAt? place = some t → t.Scanned := by
    refine fun place t ht => Assembly.scanned_assembleFile ?_ "" maxDepth htree ht
    intro file found place t hfound ht
    rw [tree?_single hfound] at ht
    obtain ⟨name, members, parent, inherited, rfl⟩ := tokenAt?_build ht
    exact Token.scanned_build _ _ _ _ _
  have hplaced : tree.Placed :=
    (placed_build hkeys
      (place_eq_of_nodup (keysDistinct_build hkeys) hpaths)).of_outline hsame
  obtain ⟨hproblems, hout⟩ := resolveDocument_eq_ok h
  obtain ⟨hrun, hgoing, hnone⟩ := run_no_problems hproblems htree
  refine ⟨(tree.finalPass maxDepth).tree, ?_, (outline_finalPass tree maxDepth).trans hsame,
    (clear_finalPass hplaced hscanned maxDepth).placed.keysDistinct, fun place t ht =>
      resolved_of_clear hplaced hscanned hgoing hnone ht⟩
  rw [hout, hrun]
  rfl

/-- **A document that is given back without a problem is given back as it is when it is resolved
again**, with its members in the same order. -/
theorem resolveDocument_twice (document out : Value) (maxDepth again : Int)
    (hkeys : document.KeysDistinct) (hpaths : ((build document).tokens.map Token.path).Nodup)
    (h : resolveDocument document maxDepth = .ok (out, [])) :
    resolveDocument out again = .ok (out, []) := by
  obtain ⟨tree, rfl, houtline, hdistinct, hresolved⟩ := exists_tree_of_no_problems hkeys hpaths h
  have hwritable := (writable_build document).of_outline hdistinct houtline
  have htidy : tree.toNode.Tidy := (tidy_build hkeys).of_outline houtline
  obtain ⟨hbuilt, hwritten⟩ := build_written hwritable htidy true
  have hplain : ∀ place t, (build (tree.toDocument true)).tokenAt? place = some t → t.Plain := by
    intro place t ht
    have hvalue := tokenAt?_written hwritable hdistinct true place
    rw [ht] at hvalue
    obtain ⟨u, hu, he⟩ := Option.map_eq_some_iff.mp hvalue.symm
    obtain ⟨huresolved, hfree⟩ := hresolved place u hu
    have hnone : t.value.occurrences = [] := by
      rw [← he, Token.writtenValue, huresolved]
      exact hfree
    obtain ⟨name, members, parent, inherited, rfl⟩ := tokenAt?_build ht
    exact Token.plain_build hnone
  have hsame : (build (tree.toDocument true)).toDocument true = tree.toDocument true := by
    refine (Node.toValue_congr hbuilt (fun place t ht => ?_) none).trans hwritten
    obtain ⟨-, -, -, hvalue⟩ := hplain place t ht
    unfold Token.writtenValue
    rw [hvalue, ite_self, ite_self]
  rw [resolveDocument_plain hbuilt hplain, hsame]

/-- A group whose type comes late and is repeated by its tokens, with a note between them. -/
def lateType : Value :=
  .object
    [("ink", .object [("$description", .text "text"), (valueKey, .text "\x7bbase\x7d"),
        (typeKey, .text "color")]),
      ("note", .int 1), ("base", .object [(typeKey, .text ""), (valueKey, .text "#fff")]),
      (typeKey, .text "color")]

theorem resolveDocument_twice_lateType :
    lateType.KeysDistinct ∧ ((build lateType).tokens.map Token.path).Nodup ∧
      ∃ out, resolveDocument lateType 10 = .ok (out, []) ∧
        resolveDocument out 10 = .ok (out, []) := by
  have hkeys : lateType.KeysDistinct := by decide +kernel
  have hpaths : ((build lateType).tokens.map Token.path).Nodup := by decide +kernel
  obtain ⟨out, h⟩ := exists_of_no_problems (by decide +kernel : ((resolveDocument lateType
    10).toOption.map fun r => r.2.isEmpty) = some true)
  exact ⟨hkeys, hpaths, out, h, resolveDocument_twice lateType out 10 10 hkeys hpaths h⟩

/-- What the group says of itself comes first now, and its tokens inherit their types. -/
example : ((resolveDocument lateType 10).toOption.bind fun r => r.1.members?.map fun members =>
    (members.keys, ((members.get? "ink").bind Value.members?).map Table.keys)) =
      some (["$type", "note", "ink", "base"], some ["$value", "$description"]) := by decide +kernel

end Group

end DesignTokens
