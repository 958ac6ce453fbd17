import DesignTokens.Proofs.Assembly.Readiness
import DesignTokens.Proofs.Resolution.Outcome

/-!
# What resolved tokens stand for

`Group.Justifies` says that a tree bears out a resolved token: the aliases of its
value name resolved tokens, its resolved value is its value with these replaced, and
no reference is left in it.

After the assembly and the resolution of a document this holds of every token that is
resolved, also when the assembly or the resolution ends early.  What a run does in each case is
said once (`Resolver.run_eq`, `Resolver.run_eq_none`, `Resolver.run_eq_error`).
-/

namespace DesignTokens

/-! ### A run -/

namespace Resolver

variable {project assembled : Project} {file : String} {tree : Group} {problems : List Problem}
  {r : Resolver}

/-- What a run reports: the problems of the assembly, and those of the pass with other paths or
other references. -/
def runReport (r : Resolver) (tree : Group) (problems : List Problem) : List Problem :=
  problems ++ (r.pass tree).problems.filter fun e =>
    !(problems.map fun e => (e.path, e.reference)).contains (e.path, e.reference)

theorem run_eq (h : project.assembleFile file r.maxDepth = (assembled, .ok problems))
    (htree : assembled.tree? file = some tree) :
    r.run project file = (assembled.setTree file (r.pass tree).tree, (r.pass tree).resolver,
      (r.pass tree).outcome.map fun _ => runReport r tree problems) := by
  unfold run
  rw [h]
  dsimp only
  rw [htree]
  dsimp only
  rw [resolve_eq_pass]
  unfold Pass.outcome
  cases (r.pass tree).halted <;> rfl

theorem run_eq_ok (h : project.assembleFile file r.maxDepth = (assembled, .ok problems))
    (htree : assembled.tree? file = some tree) (hgoing : (r.pass tree).halted = none) :
    r.run project file = (assembled.setTree file (r.pass tree).tree, (r.pass tree).resolver,
      .ok (runReport r tree problems)) := by
  rw [run_eq h htree, Pass.outcome_eq_ok.mpr ⟨hgoing, rfl⟩]
  rfl

theorem going_of_run {found : List Problem}
    (h : project.assembleFile file r.maxDepth = (assembled, .ok problems))
    (htree : assembled.tree? file = some tree) (hrun : (r.run project file).2.2 = .ok found) :
    (r.pass tree).halted = none := by
  rw [run_eq h htree] at hrun
  unfold Pass.outcome at hrun
  cases hgoing : (r.pass tree).halted with
  | none => rfl
  | some fault =>
    rw [hgoing] at hrun
    cases hrun

theorem run_eq_none (h : project.assembleFile file r.maxDepth = (assembled, .ok problems))
    (htree : assembled.tree? file = none) : r.run project file = (assembled, r, .ok problems) := by
  unfold run
  rw [h]
  dsimp only
  rw [htree]

theorem run_eq_error {e : NumeralFault}
    (h : project.assembleFile file r.maxDepth = (assembled, .error e)) :
    r.run project file = (assembled, r, .error e) := by
  unfold run
  rw [h]

/-- Every path that the pass reports is among those that the run reports, with the same
reference. -/
theorem mem_runReport (problems : List Problem) {e : Problem} (h : e ∈ (r.pass tree).problems) :
    ∃ d ∈ runReport r tree problems, d.path = e.path ∧ d.reference = e.reference := by
  by_cases hreported : (problems.map fun e => (e.path, e.reference)).contains (e.path, e.reference)
  · obtain ⟨d, hd, hsame⟩ := List.mem_map.mp (List.contains_iff_mem.mp hreported)
    exact ⟨d, List.mem_append_left _ hd, Prod.mk.inj hsame⟩
  · refine ⟨e, List.mem_append_right _ (List.mem_filter.mpr ⟨h, ?_⟩), rfl, rfl⟩
    simpa using hreported

theorem path_mem_runReport (problems : List Problem) {path : String}
    (h : path ∈ (r.pass tree).problems.map Problem.path) :
    path ∈ (runReport r tree problems).map Problem.path := by
  obtain ⟨e, he, rfl⟩ := List.mem_map.mp h
  obtain ⟨d, hd, hpath, -⟩ := mem_runReport problems he
  exact List.mem_map.mpr ⟨d, hd, hpath⟩

end Resolver

namespace Group

/-- The resolved value for which an alias stands in a tree. -/
def Means (tree : Group) (a : String) (x : Value) : Prop :=
  ∃ target, tree.findToken? a = some target ∧ target.resolved = true ∧ x = target.resolvedValue

/-- A resolved token that its tree bears out. -/
structure Justifies (tree : Group) (t : Token) : Prop where
  targets : ∀ a ∈ (Scan.of t.value).aliases,
    ∃ x, tree.findToken? a = some x ∧ x.path = a ∧ x.resolved = true
  replaced : Value.Replaced tree.Means t.value t.resolvedValue
  free : Scan.of t.resolvedValue = ⟨[], [], []⟩

variable {g : Group} {limit : Int} {place : Place} {t u : Token}

/-- A token that was resolved from the start has nothing to bear out. -/
theorem justifies_of_prepared (hg : g.Prepared) (ht : g.tokenAt? place = some t)
    (hresolved : t.resolved = true) : g.Justifies t := by
  have htracked := hg.tracked place t ht
  obtain ⟨-, hpointers, hmalformed⟩ := htracked.resolved_iff.mp hresolved
  have honly := htracked.onlyAliases hpointers hmalformed
  have hnone := htracked.occurrences_eq_nil hresolved
  have hno : ∀ a, .aliasOf a ∉ t.value.occurrences := fun a ha => List.not_mem_nil (hnone ▸ ha)
  refine ⟨fun a ha => absurd (Value.mem_aliases_iff.mp ha) (hno a), ?_, ?_⟩
  · rw [htracked.resolvedValue hresolved]
    exact Value.replaced_of_substitute (f := fun _ => .ok .null) honly
      (fun a ha => absurd ha (hno a)) (Value.substitute_of_occurrences_eq_nil honly hnone)
  · rw [htracked.resolvedValue hresolved]
    exact Value.scan_eq_empty hnone

/-- After all turns the tree bears out every resolved token. -/
theorem justifies_finalPass (hg : g.Prepared) (ht : g.tokenAt? place = some t)
    (hu : (g.finalPass limit).tree.tokenAt? place = some u) (hresolved : u.resolved = true) :
    (g.finalPass limit).tree.Justifies u := by
  have htracked := hg.tracked place t ht
  have hsettles := settles_of_resolved hg ht hu hresolved
  have hvalue : u.value = t.value := (Token.eq_of_source (source_eq_of_final hg ht hu)).2.1
  have hfree := hsettles.occurrences hg ht
  cases hsettles with
  | intro target value hmalformed hpointers hfound hsettled _ _ hsub =>
    have htarget : ∀ r ∈ t.references, ∃ x, (g.finalPass limit).tree.findToken? r = some x ∧
        x.path = r ∧ x.resolved = true ∧ value r = x.resolvedValue := by
      intro r hr
      obtain ⟨y, x, hy, hx, hready⟩ := target_of_resolved hg ht hu hresolved hr
      obtain rfl := Option.some.inj (hy.symm.trans (hfound r hr))
      refine ⟨x, hx, ?_, hready, ?_⟩
      · rw [findToken?_finalPass hg] at hx
        rw [(Token.eq_of_source (source_eq_of_final hg hy hx)).1]
        exact hg.placed.path_of_findToken (htracked.hasSegments r hr) hy
      · rw [findToken?_finalPass hg] at hx
        exact (hsettled r hr).unique hg hy (settles_of_resolved hg hy hx hready)
    have honly := htracked.onlyAliases hpointers hmalformed
    refine ⟨?_, ?_, Value.scan_eq_empty hfree⟩
    · intro a ha
      rw [hvalue] at ha
      obtain ⟨x, hx, hpath, hready, -⟩ := htarget a (htracked.aliases a ha)
      exact ⟨x, hx, hpath, hready⟩
    · rw [hvalue]
      refine Value.replaced_of_substitute honly ?_ hsub
      intro a ha v hv
      obtain ⟨x, hx, -, hready, hsame⟩ := htarget a (htracked.mem_references ha)
      exact ⟨x, hx, hready, (Except.ok.inj hv).symm.trans hsame⟩

theorem path_final (hg : g.Prepared) (limit : Int) (place : Place) :
    ((g.finalPass limit).tree.tokenAt? place).map Token.path =
      (g.tokenAt? place).map Token.path := by
  have hmap := congrArg (Option.map Token.path) (source_final hg limit place)
  rwa [Option.map_map, Option.map_map] at hmap

/-! ### One tree -/

theorem tree?_run_ok {project assembled : Project} {file : String} {problems : List Problem}
    (h : project.assembleFile file limit = (assembled, .ok problems)) :
    ((Resolver.start limit).run project file).1.tree? file =
      (assembled.tree? file).map fun tree => (tree.finalPass limit).tree := by
  cases htree : assembled.tree? file with
  | none =>
    rw [Resolver.run_eq_none (r := Resolver.start limit) h htree]
    exact htree
  | some tree =>
    rw [Resolver.run_eq (r := Resolver.start limit) h htree]
    dsimp only
    rw [Project.tree?_setTree, if_pos rfl, htree]
    rfl

theorem tree?_single_self (tree : Group) : (Project.single tree).tree? "" = some tree := rfl

theorem tree?_single {tree found : Group} {file : String}
    (h : (Project.single tree).tree? file = some found) : found = tree := by
  obtain ⟨f, hf, rfl⟩ := Option.map_eq_some_iff.mp h
  have hmem : (file, f) ∈ [("", (⟨"", tree, []⟩ : TokenFile))] := Table.mem_of_get? hf
  rw [List.mem_singleton] at hmem
  rw [(Prod.mk.inj hmem).2]

/-- **Every token that is resolved after a run is borne out by the tree.**  The tree
has its tokens where the document has them. -/
theorem run_justifies (document : Value) (maxDepth : Int) (hkeys : document.KeysDistinct)
    (hpaths : ((build document).tokens.map Token.path).Nodup)
    (htexts : ∀ t ∈ (build document).tokens, t.value.RefsAreTexts) :
    ∃ tree, ((Resolver.start maxDepth).run (Project.single (build document)) "").1.tree? "" =
        some tree ∧
      (∀ place, (tree.tokenAt? place).map Token.path =
        ((build document).tokenAt? place).map Token.path) ∧
      ∀ t ∈ tree.tokens, t.resolved = true → tree.Justifies t := by
  have hbuilt := prepared_build hkeys hpaths htexts
  have hfiles : ∀ file tree, (Project.single (build document)).tree? file = some tree →
      tree.Prepared := fun file tree htree => tree?_single htree ▸ hbuilt
  obtain ⟨hgrown, hsome⟩ := Assembly.ready_assembleFile hfiles "" maxDepth
  obtain ⟨tree, htree⟩ := Option.isSome_iff_exists.mp ((hsome "").trans rfl)
  obtain ⟨before, hbefore, hg⟩ := hgrown "" tree htree
  rw [tree?_single hbefore] at hg
  rcases h : (Project.single (build document)).assembleFile "" maxDepth with
    ⟨assembled, e | problems⟩
  · rw [h] at htree
    rw [Resolver.run_eq_error (r := Resolver.start maxDepth) h]
    refine ⟨tree, htree, hg.path_eq hbuilt, ?_⟩
    intro t ht hresolved
    obtain ⟨place, hat⟩ := (mem_tokens_iff hg.prepared.keysDistinct).mp ht
    exact justifies_of_prepared hg.prepared hat hresolved
  · rw [h] at htree
    rw [tree?_run_ok h, htree]
    refine ⟨(tree.finalPass maxDepth).tree, rfl, ?_, ?_⟩
    · intro place
      rw [path_final hg.prepared, hg.path_eq hbuilt]
    · intro u hu hresolved
      obtain ⟨place, t, ht, hat⟩ := exists_of_mem_final hg.prepared hu
      exact justifies_finalPass hg.prepared ht hat hresolved

/-- A document with an alias before a newline, one inside a longer text, and a pointer
whose target brings an alias along. -/
def pastedAlias : Value :=
  let token := fun v => Value.object [(valueKey, v)]
  .object
    [("base", token (.int 4)), ("size", token (.text "\x7bbase\x7d\n")),
      ("label", token (.list [.text "\x7bsize\x7dpx", .object [("$ref", .text "#/size")]]))]

theorem run_justifies_pastedAlias :
    pastedAlias.KeysDistinct ∧ ((build pastedAlias).tokens.map Token.path).Nodup ∧
      (∀ t ∈ (build pastedAlias).tokens, t.value.RefsAreTexts) ∧
      ∃ tree, ((Resolver.start 10).run (Project.single (build pastedAlias)) "").1.tree? "" =
          some tree ∧
        (∀ place, (tree.tokenAt? place).map Token.path =
          ((build pastedAlias).tokenAt? place).map Token.path) ∧
        ∀ t ∈ tree.tokens, t.resolved = true → tree.Justifies t :=
  ⟨by decide +kernel, by decide +kernel, by decide +kernel,
    run_justifies pastedAlias 10 (by decide +kernel) (by decide +kernel) (by decide +kernel)⟩

/-- All of its tokens are resolved. -/
example : (((Resolver.start 10).run (Project.single (build pastedAlias)) "").1.tree? "").map
    (fun tree => tree.tokens.map fun t => (t.path, t.resolved)) =
      some [("base", true), ("size", true), ("label", true)] := by decide +kernel

end Group

end DesignTokens
