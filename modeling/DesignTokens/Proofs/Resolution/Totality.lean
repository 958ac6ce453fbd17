import DesignTokens.Proofs.Assembly.Listing
import DesignTokens.Proofs.Assembly.Numerals
import DesignTokens.Proofs.Assembly.Readable
import DesignTokens.Proofs.Assembly.Untouched
import DesignTokens.Proofs.Reference.Validation
import DesignTokens.Proofs.Resolution.Blame
import DesignTokens.Proofs.Resolution.History

/-!
# Errors are collected

No reference ends the work of resolution, assembly or validation, unless a pointer has a segment
that consists of digits but writes no number (`Token.Readable`), or an integer of more digits than a
numeral may have comes in.  What is broken is reported instead:

* a run over a document names every reference that leads nowhere, and reports every token that it
  leaves unresolved (`Group.told_of_run`);
* an assembly lists every pointer that it leaves (`Project.assembleFile_listed`);
* validation names every reference that is broken as it stands (`Group.told_of_validate`).

In `superscript` a pointer that leads nowhere has such a segment: it is not reported, the work ends.
In `immense` an integer has to stand inside a text and has no numeral.
-/

namespace DesignTokens

/-- No pointer of a token has a segment that consists of digits but writes no number. -/
def Token.Readable (t : Token) : Prop :=
  ∀ ref ∈ t.pointers ++ t.value.outerPointers, Pointer.isReadable ref = true

instance (t : Token) : Decidable t.Readable := by
  unfold Token.Readable
  infer_instance

/-- A reference of a token of a file that leads nowhere: a text is malformed, no token has the path
of an alias, or a pointer stands for nothing. -/
inductive Project.Lost (p : Project) (file : String) (t : Token) : String → Prop
  | malformed {text : String} : text ∈ t.malformed → Lost p file t text
  | aliasOf {named : String} {tree : Group} : named ∈ t.references → p.tree? file = some tree →
      tree.findToken? named = none → Lost p file t (Alias.ofPath named)
  | pointer {ref : String} : ref ∈ t.value.outerPointers → (∀ w, ¬ p.Stands file ref w) →
      Lost p file t ref

namespace Group

variable {document : Value} {maxDepth : Int} {g tree : Group} {place : Place} {t u : Token}

/-! ### Resolution -/

theorem readable_single (hkeys : g.KeysDistinct) (hreadable : ∀ t ∈ g.tokens, t.Readable) :
    (Project.single g).Readable := by
  intro file place t ht ref href
  obtain ⟨tree, htree, hat⟩ := Option.bind_eq_some_iff.mp ht
  obtain rfl := tree?_single htree
  have hm := (mem_tokens_iff hkeys).mpr ⟨place, hat⟩
  exact hreadable t hm ref (List.mem_append_right _ href)

theorem sound_single (hg : g.Prepared) (hreadable : ∀ t ∈ g.tokens, t.Readable) :
    (Project.single g).Sound where
  prepared _ _ htree := tree?_single htree ▸ hg
  readable file place t ht ref href _ hq := Pointer.readable_of_isReadable
    (readable_single hg.keysDistinct hreadable file place t ht ref href) hq

theorem exists_tree_assembled {p : Project} {file : String} (h : p.tree? file = some g)
    (maxDepth : Int) :
    ∃ tree, (p.assembleFile file maxDepth).1.tree? file = some tree ∧ tree.outline = g.outline := by
  have houtline := Assembly.outline_assembleFile p file maxDepth file
  rw [h] at houtline
  exact Option.map_eq_some_iff.mp houtline

/-- What is asked of a document and a limit for the work to come to its end: the segments of the
pointers can be read, and all integers can be written. -/
structure Legible (document : Value) (maxDepth : Int) : Prop where
  readable : ∀ t ∈ (build document).tokens, t.Readable
  numerals : ∀ t ∈ (build document).tokens, t.value.HasNumerals
  limit : isWritable maxDepth = true

/-- **Resolution of a legible document comes to its end**, with the document after the pass over the
assembled tree. -/
theorem exists_run (hkeys : document.KeysDistinct) (h : Legible document maxDepth) :
    ∃ assembled problems tree,
      (Project.single (build document)).assembleFile "" maxDepth = (assembled, .ok problems) ∧
        assembled.tree? "" = some tree ∧ tree.outline = (build document).outline ∧
          (tree.finalPass maxDepth).halted = none ∧
            resolveDocument document maxDepth =
              .ok (toDocument true (tree.finalPass maxDepth).tree,
                Resolver.runReport (Resolver.start maxDepth) tree problems) := by
  obtain ⟨assembled, problems, hassembled⟩ :=
    Project.exists_assembleFile (readable_single (keysDistinct_build hkeys) h.readable) "" h.limit
  obtain ⟨tree, htree, houtline⟩ :=
    exists_tree_assembled (tree?_single_self (build document)) maxDepth
  have hstart : ∀ file place t, (Project.single (build document)).tokenAt? file place = some t →
      t.HasNumerals := by
    intro file place t ht
    obtain ⟨tree, htree, hat⟩ := Option.bind_eq_some_iff.mp ht
    rw [tree?_single htree] at hat
    exact hasNumerals_of_build hkeys h.numerals place t hat
  have hgoing : (tree.finalPass maxDepth).halted = none := by
    refine Resolver.going_pass (r := Resolver.start maxDepth) h.limit fun place t ht => ?_
    exact Assembly.hasNumerals_assembleFile hstart "" maxDepth
      (Option.bind_eq_some_iff.mpr ⟨tree, htree, ht⟩)
  rw [hassembled] at htree
  refine ⟨assembled, problems, tree, hassembled, htree, houtline, hgoing, ?_⟩
  unfold resolveDocument
  rw [Resolver.run_eq_ok (r := Resolver.start maxDepth) hassembled htree hgoing]
  dsimp only
  rw [Project.tree?_setTree, if_pos rfl, htree]
  rfl

/-- What the problems of a run tell of a token that it has made another: it is reported if it is
unresolved, and each reference that led nowhere or is broken now is named, or the token is on a
cycle of aliases and reported for the alias of its own path. -/
structure Told (p : Project) (tree : Group) (maxDepth : Int) (problems : List Problem)
    (t u : Token) : Prop where
  unresolved : u.resolved = false → ∃ e ∈ problems, e.path = t.path
  named : ∀ reference,
    p.Lost "" t reference ∨ (tree.finalPass maxDepth).tree.Breaks u reference →
      Names problems t.path reference ∨
        (tree.OnCycle t.path ∧ Names problems t.path (Alias.ofPath t.path))

section

variable {p q : Project} {file : String} {m : Token} {problems : List Problem} {reference : String}

/-- A reference that led nowhere before an assembly is broken in the end. -/
theorem breaks_of_lost (hg : tree.Prepared) (hbase : p.tree? file = some g)
    (houtline : tree.outline = g.outline) (ht : tree.tokenAt? place = some m)
    (hu : (tree.finalPass maxDepth).tree.tokenAt? place = some u)
    (hreferences : t.references ⊆ m.references) (hmalformed : t.malformed ⊆ m.malformed)
    (hleft : ∀ ref ∈ t.value.outerPointers, (∀ w, ¬ p.Stands file ref w) →
      ref ∈ m.value.outerPointers) (h : p.Lost file t reference) :
    (tree.finalPass maxDepth).tree.Breaks u reference := by
  have hsource := source_eq_of_final hg ht hu
  obtain ⟨-, -, hreferences', hmalformed'⟩ := Token.eq_of_source hsource
  have hpointers : u.pointers = m.pointers :=
    show u.source.pointers = m.source.pointers from congrArg Token.pointers hsource
  cases h with
  | malformed htext => exact .malformed (hmalformed' ▸ hmalformed htext)
  | pointer href hnowhere =>
    have htracked := hg.tracked place m ht
    refine .pointer ?_
    rw [hpointers, htracked.pointers]
    exact Value.mem_pointers_iff.mpr
      (Value.mem_occurrences_of_outer htracked.refsAreTexts (hleft _ href hnowhere))
  | aliasOf hnamed htree hnone =>
    obtain rfl := Option.some.inj (hbase.symm.trans htree)
    refine .aliasOf (hreferences' ▸ hreferences hnamed) fun y hy => ?_
    obtain ⟨w, hw, -⟩ := exists_findToken?_of_outline
      ((outline_finalPass tree maxDepth).trans houtline) hy
    rw [hnone] at hw
    cases hw

theorem Names.of_pass {r : Resolver} (h : Names (r.pass tree).problems t.path reference) :
    Names (Resolver.runReport r tree problems) t.path reference := by
  obtain ⟨e, he, hpath, href⟩ := h
  obtain ⟨d, hd, hpath', href'⟩ := Resolver.mem_runReport problems he
  exact ⟨d, hd, hpath'.trans hpath, href'.trans href⟩

/-- What a run tells of a token of a tree, if the assembled token knows its references and has the
pointers that lead nowhere. -/
theorem exists_told (hg : g.Prepared) (hgrown : g.Grown tree) (houtline : tree.outline = g.outline)
    (hgoing : (tree.finalPass maxDepth).halted = none) (ht : g.tokenAt? place = some t)
    (hm : tree.tokenAt? place = some m)
    (hreferences : t.references ⊆ m.references) (hmalformed : t.malformed ⊆ m.malformed)
    (hleft : ∀ ref ∈ t.value.outerPointers, (∀ w, ¬ (Project.single g).Stands "" ref w) →
      ref ∈ m.value.outerPointers) :
    ∃ u, (tree.finalPass maxDepth).tree.tokenAt? place = some u ∧
      Told (Project.single g) tree maxDepth
        (Resolver.runReport (Resolver.start maxDepth) tree problems) t u := by
  have hmpath := hgrown.path_eq hg place
  rw [hm, ht] at hmpath
  have hsource := source_final hgrown.prepared maxDepth place
  rw [hm] at hsource
  obtain ⟨u, hu, hsame⟩ := Option.map_eq_some_iff.mp hsource
  have hpath : u.path = t.path := (Token.eq_of_source hsame).1.trans (Option.some.inj hmpath)
  refine ⟨u, hu, fun hunresolved => ?_, fun reference hbroken => ?_⟩
  · obtain ⟨e, he, hepath⟩ := (resolved_eq_false_iff hgrown.prepared hgoing hm hu).mp hunresolved
    obtain ⟨d, hd, hdpath, -⟩ := Resolver.mem_runReport (r := Resolver.start maxDepth) problems he
    exact ⟨d, hd, hdpath.trans (hepath.trans hpath)⟩
  · have hbreaks : (tree.finalPass maxDepth).tree.Breaks u reference := by
      refine hbroken.elim (fun hlost => ?_) id
      exact breaks_of_lost hgrown.prepared (tree?_single_self g) houtline hm hu hreferences
        hmalformed hleft hlost
    have hblamed := blamed_final hgrown.prepared hgoing hu hbreaks
    rw [hpath] at hblamed
    refine hblamed.imp (Names.of_pass (r := Resolver.start maxDepth)) fun hcircular => ?_
    obtain ⟨hcycle, e, he, -, hnames⟩ := hcircular
    exact ⟨hcycle, Names.of_pass (r := Resolver.start maxDepth) ⟨e, he, hnames⟩⟩

end

/-- **A run over a document tells of every broken reference and of every token that it leaves
unresolved.** -/
theorem told_of_run (hkeys : document.KeysDistinct) (h : Legible document maxDepth)
    (hpaths : ((build document).tokens.map Token.path).Nodup)
    (htexts : ∀ t ∈ (build document).tokens, t.value.RefsAreTexts) :
    ∃ tree problems,
      ((Project.single (build document)).assembleFile "" maxDepth).1.tree? "" = some tree ∧
        resolveDocument document maxDepth =
          .ok (toDocument true (tree.finalPass maxDepth).tree, problems) ∧
        ∀ place t, (build document).tokenAt? place = some t →
          ∃ u, (tree.finalPass maxDepth).tree.tokenAt? place = some u ∧
            Told (Project.single (build document)) tree maxDepth problems t u := by
  obtain ⟨assembled, found, tree, hassembled, htree, houtline, hgoing, hrun⟩ := exists_run hkeys h
  have hbuilt := prepared_build hkeys hpaths htexts
  have hsound := sound_single hbuilt h.readable
  obtain ⟨q, problems, hrun', hlists⟩ := Project.assembleFile_listed hsound "" h.limit
  obtain ⟨rfl, hsame⟩ := Prod.mk.inj (hassembled.symm.trans hrun')
  obtain rfl := Except.ok.inj hsame
  obtain ⟨before, hbefore, hg⟩ :=
    (Assembly.ready_assembleFile hsound.prepared "" maxDepth).1 "" tree
      (by rw [hassembled]; exact htree)
  rw [tree?_single hbefore] at hg
  refine ⟨tree, _, by rw [hassembled]; exact htree, hrun, fun place t ht => ?_⟩
  have hbase : (Project.single (build document)).tokenAt? "" place = some t := ht
  obtain ⟨m, hm, hlisted⟩ := hlists place t hbase
  have hremembered := Assembly.remembering_assembleFile hbase "" maxDepth (u := m)
    (by rw [hassembled]; exact hm)
  rw [Project.tokenAt?, htree] at hm
  refine exists_told hbuilt hg houtline hgoing ht hm hremembered.1 hremembered.2 ?_
  rcases hlisted with ⟨hleft, -⟩ | ⟨-, rfl, -⟩
  · exact hleft
  · exact fun ref href _ => href

/-! ### Validation -/

/-- **Validation tells of every broken reference and of every token on a cycle of aliases.** -/
theorem told_of_validate (hreadable : ∀ t ∈ g.tokens, t.Readable) (project : Option Project)
    (file : Option String) :
    ∃ problems, g.validate project file = .ok problems ∧
      (∀ t ∈ g.tokens, ∀ reference, Validation.Broken project g file t reference →
        Names problems t.path reference) ∧
      ∀ path t, g.OnCycle path → g.findToken? path = some t → ReportedCircular problems path := by
  have hpointers : ∀ t ∈ g.tokens, ∀ ref ∈ t.pointers, Pointer.isReadable ref = true :=
    fun t ht ref href => hreadable t ht ref (List.mem_append_left _ href)
  obtain ⟨problems, hproblems⟩ := exists_validate hpointers project file
  refine ⟨problems, hproblems, fun t ht reference hbroken => ?_, fun path t hcycle ht => ?_⟩
  · obtain ⟨e, hwrong, hpath, href⟩ := hbroken.exists_wrong (hpointers t ht)
    exact ⟨e, (mem_validate_iff hproblems).mpr (Or.inl ⟨t, ht, hwrong⟩), hpath, href⟩
  · obtain ⟨cycle, hmem, hpath⟩ := List.mem_flatten.mp (mem_flatten_cycles_iff.mpr hcycle)
    refine ⟨_, (mem_validate_iff hproblems).mpr (Or.inr ⟨cycle, hmem, path, hpath, ?_, rfl⟩),
      rfl, rfl, rfl⟩
    rw [ht]
    rfl

/-! ### All of it -/

/-- **No error ends the work, and all are collected**, if no pointer has a segment that consists of
digits but writes no number, and no integer has more digits than a numeral may have.  Resolution of
a document, assembly of a file and validation of a tree give back a list of problems for every limit
that can be written.  The list of a run tells of every reference that leads nowhere, that of an
assembly of every pointer that is left, and that of a validation of every reference that is broken
as it stands. -/
theorem errors_collected (document : Value) (p : Project) (file : String) (g : Group)
    (project : Option Project) (origin : Option String) (maxDepth : Int) :
    (document.KeysDistinct → Legible document maxDepth →
      ∃ out problems, resolveDocument document maxDepth = .ok (out, problems) ∧
        (((build document).tokens.map Token.path).Nodup →
          (∀ t ∈ (build document).tokens, t.value.RefsAreTexts) →
          ∃ tree,
            ((Project.single (build document)).assembleFile "" maxDepth).1.tree? "" = some tree ∧
            out = toDocument true (tree.finalPass maxDepth).tree ∧
            ∀ place t, (build document).tokenAt? place = some t →
              ∃ u, (tree.finalPass maxDepth).tree.tokenAt? place = some u ∧
                Told (Project.single (build document)) tree maxDepth problems t u)) ∧
    (p.Readable → isWritable maxDepth = true →
      ∃ q problems, p.assembleFile file maxDepth = (q, .ok problems) ∧
        (p.Sound → ∀ place t, p.tokenAt? file place = some t →
          ∃ u, q.tokenAt? file place = some u ∧ p.Lists file maxDepth problems t u)) ∧
    ((∀ t ∈ g.tokens, t.Readable) →
      ∃ problems, g.validate project origin = .ok problems ∧
        (∀ t ∈ g.tokens, ∀ reference, Validation.Broken project g origin t reference →
          Names problems t.path reference) ∧
        ∀ path t, g.OnCycle path → g.findToken? path = some t →
          ReportedCircular problems path) := by
  refine ⟨fun hkeys hlegible => ?_, fun hreadable hlimit => ?_,
    fun hreadable => told_of_validate hreadable project origin⟩
  · obtain ⟨assembled, found, tree, -, -, -, -, hrun⟩ := exists_run hkeys hlegible
    refine ⟨_, _, hrun, fun hpaths htexts => ?_⟩
    obtain ⟨tree', problems, htree, hrun', htold⟩ := told_of_run hkeys hlegible hpaths htexts
    obtain ⟨hout, rfl⟩ := Prod.mk.inj (Except.ok.inj (hrun.symm.trans hrun'))
    exact ⟨tree', htree, hout, htold⟩
  · obtain ⟨q, problems, hrun⟩ := Project.exists_assembleFile hreadable file hlimit
    refine ⟨q, problems, hrun, fun hsound => ?_⟩
    obtain ⟨q', problems', hrun', hlists⟩ := Project.assembleFile_listed hsound file hlimit
    obtain ⟨rfl, hsame⟩ := Prod.mk.inj (hrun.symm.trans hrun')
    obtain rfl := Except.ok.inj hsame
    exact hlists

/-- A document with a pointer that leads behind the end of a list and an alias of no token. -/
def dangling : Value :=
  .object [("a", .object [(valueKey, .list [.int 1])]),
    ("b", .object [(valueKey, .object [("$ref", .text "#/a/$value/2")])]),
    ("c", .object [(valueKey, .text "\x7bnope\x7d")])]

theorem errors_collected_dangling :
    dangling.KeysDistinct ∧ Legible dangling 10 ∧
      ((build dangling).tokens.map Token.path).Nodup ∧
      (∀ t ∈ (build dangling).tokens, t.value.RefsAreTexts) ∧
      (Project.single (build dangling)).Readable ∧ (Project.single (build dangling)).Sound ∧
      ∃ t, (build dangling).tokenAt? ["c"] = some t ∧
        Validation.Broken none (build dangling) none t "\x7bnope\x7d" ∧
        (∃ out problems tree u, resolveDocument dangling 10 = .ok (out, problems) ∧
          Told (Project.single (build dangling)) tree 10 problems t u) ∧
        (∃ q problems u, (Project.single (build dangling)).assembleFile "" 10 = (q, .ok problems) ∧
          (Project.single (build dangling)).Lists "" 10 problems t u) ∧
        ∃ problems, (build dangling).validate none none = .ok problems ∧
          Names problems t.path "\x7bnope\x7d" := by
  have hkeys : dangling.KeysDistinct := by decide +kernel
  have hlegible : Legible dangling 10 :=
    ⟨by decide +kernel, by decide +kernel, by decide +kernel⟩
  have hpaths : ((build dangling).tokens.map Token.path).Nodup := by decide +kernel
  have htexts : ∀ t ∈ (build dangling).tokens, t.value.RefsAreTexts := by decide +kernel
  have hsound := sound_single (prepared_build hkeys hpaths htexts) hlegible.readable
  have hsingle := readable_single (keysDistinct_build hkeys) hlegible.readable
  obtain ⟨t, ht, hnamed⟩ : ∃ t, (build dangling).tokenAt? ["c"] = some t ∧
      "nope" ∈ t.references := ⟨_, rfl, by decide +kernel⟩
  have hbroken : Validation.Broken none (build dangling) none t (Alias.ofPath "nope") :=
    .aliasOf hnamed rfl
  have hmem := (mem_tokens_iff (keysDistinct_build hkeys)).mpr ⟨["c"], ht⟩
  obtain ⟨hresolve, hassemble, hvalidate⟩ :=
    errors_collected dangling (Project.single (build dangling)) "" (build dangling) none none 10
  refine ⟨hkeys, hlegible, hpaths, htexts, hsingle, hsound, t, ht, hbroken, ?_, ?_, ?_⟩
  · obtain ⟨out, problems, hrun, htold⟩ := hresolve hkeys hlegible
    obtain ⟨tree, -, -, htokens⟩ := htold hpaths htexts
    obtain ⟨u, -, hu⟩ := htokens ["c"] t ht
    exact ⟨out, problems, tree, u, hrun, hu⟩
  · obtain ⟨q, problems, hrun, hlists⟩ := hassemble hsingle hlegible.limit
    obtain ⟨u, -, hu⟩ := hlists hsound ["c"] t ht
    exact ⟨q, problems, u, hrun, hu⟩
  · obtain ⟨problems, hproblems, hnames, -⟩ := hvalidate hlegible.readable
    exact ⟨problems, hproblems, hnames t hmem _ hbroken⟩

/-- A document with a pointer whose last segment is a digit but no number. -/
def superscript : Value :=
  .object [("a", .object [(valueKey, .list [.int 1])]),
    ("b", .object [(valueKey, .object [("$ref", .text "#/a/$value/²")])])]

/-- The pointer leads nowhere, and the work ends without a report. -/
theorem not_collected_of_superscript :
    superscript.KeysDistinct ∧ (resolveDocument superscript 10).toOption.isNone = true ∧
      ((Project.single (build superscript)).assembleFile "" 10).2.toOption.isNone = true ∧
        ((build superscript).validate none none).toOption.isNone = true :=
  ⟨by decide +kernel, by decide +kernel, by decide +kernel, by decide +kernel⟩

/-- A document in which an integer without a numeral has to stand inside a text. -/
def immense : Value :=
  .object [("a", .object [(valueKey, .int numeralBound)]),
    ("b", .object [(valueKey, .text "x\x7ba\x7d")])]

theorem not_run_of_immense :
    immense.KeysDistinct ∧ (∀ t ∈ (build immense).tokens, t.Readable) ∧
      ((build immense).validate none none).toOption.map List.length = some 0 ∧
        (resolveDocument immense 10).toOption.isNone = true :=
  ⟨by decide +kernel, by decide +kernel, by decide +kernel, by decide +kernel⟩

end Group

end DesignTokens
