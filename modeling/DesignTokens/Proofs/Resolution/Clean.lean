import DesignTokens.Proofs.Assembly.Stability
import DesignTokens.Proofs.Resolution.Values
import DesignTokens.Proofs.Token.Writing

/-!
# Documents that are resolved without a problem

If no problem is reported, every token is resolved, and the document that is given back
has the tokens of the first one, with values in which no reference is left
(`Group.resolveDocument_clean`).  This asks that no two tokens have one path, since the
outcomes are kept by path, and that every `$ref` member is a text, since nothing below
another `$ref` member is looked at.  Without the second condition it fails
(`Group.not_clean_of_ref_list`).
-/

namespace DesignTokens

/-! ### Outlines -/

namespace Pass

variable {p : Pass} {place : Place}

theorem outline_record {t after : Token} (c : Check) (ht : p.tree.tokenAt? place = some t)
    (hafter : after.outline = t.outline) :
    (p.record place after c).tree.outline = p.tree.outline :=
  Group.outline_modifyToken fun u hu => by
    rw [← Option.some.inj (ht.symm.trans hu), hafter]

theorem outline_turn {t : Token} (ht : p.tree.tokenAt? place = some t) :
    (p.turn place t).tree.outline = p.tree.outline := by
  unfold turn
  dsimp only
  split
  · exact outline_record _ ht rfl
  · split
    · split
      · exact outline_record _ ht rfl
      · rfl
    · split
      · exact outline_record _ ht rfl
      · exact outline_record _ ht rfl
      · rfl

theorem outline_resolveToken (p : Pass) (place : Place) :
    (p.resolveToken place).tree.outline = p.tree.outline := by
  unfold resolveToken
  split
  · rename_i t hgoing ht
    split
    · rfl
    · exact outline_turn ht
  · rfl

theorem outline_resolvePlace (p : Pass) (place : Place) :
    (p.resolvePlace place).tree.outline = p.tree.outline := by
  unfold resolvePlace
  split
  · rfl
  · split
    · rfl
    · exact outline_resolveToken p _

theorem tree_failMember (cycle : List String) (p : Pass) (member : String) :
    (p.failMember cycle member).tree = p.tree := by
  unfold failMember
  split
  · rfl
  · rfl

end Pass

theorem Resolver.outline_pass (r : Resolver) (g : Group) : (r.pass g).tree.outline = g.outline :=
  pass_induction (I := fun p => p.tree.outline = g.outline) rfl
    (fun p cycle _ member h => by rw [Pass.tree_failMember, h])
    fun p place h => (p.outline_resolveToken place).trans h

theorem Group.outline_finalPass (g : Group) (limit : Int) :
    (g.finalPass limit).tree.outline = g.outline :=
  (Resolver.start limit).outline_pass g

/-! ### Values -/

namespace Value

/-- A reference that stands somewhere in a value, also below a `$ref` member. -/
inductive Holds (o : Occurrence) : Value → Prop
  | text {s : String} : o ∈ Occurrence.ofText s → Holds o (.text s)
  | pointer {members : List (String × Value)} {ref : String} :
      pointerOf? members = some ref → o = .pointer ref → Holds o (.object members)
  | item {items : List Value} {v : Value} : v ∈ items → Holds o v → Holds o (.list items)
  | member {members : List (String × Value)} {m : String × Value} :
      m ∈ members → Holds o m.2 → Holds o (.object members)

theorem Holds.mem_occurrences {o : Occurrence} {v : Value} (h : v.Holds o) (hv : v.NoRefs) :
    o ∈ v.occurrences := by
  induction h with
  | text ho => exact ho
  | pointer href he => exact mem_occurrences_object.mpr (Or.inl ⟨_, href, he⟩)
  | item hm _ ih => exact mem_occurrences_list.mpr ⟨_, hm, ih (everyObject_list.mp hv _ hm)⟩
  | member hm _ ih =>
    obtain ⟨hhere, hbelow⟩ := everyObject_object.mp hv
    exact mem_occurrences_object.mpr (Or.inr ⟨_, hm, hhere _ hm, ih (hbelow _ hm)⟩)

end Value

/-- No `$ref` member comes in with a meaning. -/
theorem Value.noRefs_of_substitute {f : String → Except Obstacle Value} {v w : Value}
    (hv : v.OnlyAliases) (hfree : ∀ a, .aliasOf a ∈ v.occurrences → ∀ x, f a = .ok x → x.NoRefs)
    (h : v.substitute f = .ok w) : w.NoRefs := by
  induction v using inductionOn generalizing w with
  | text s =>
    cases hw : Alias.isWhole s.toList with
    | true =>
      obtain ⟨inner, hone⟩ := Alias.isWhole_iff_isOneRun.mp hw
      rw [substitute_oneRun hone] at h
      exact hfree _ (hv.wellWritten.run inner hone.mem_pieces) w h
    | false =>
      obtain ⟨out, -, rfl⟩ := (substitute_long_eq_ok hw).mp h
      trivial
  | list items ih =>
    obtain ⟨results, hresults, rfl⟩ := substitute_list_eq_ok.mp h
    refine everyObject_list.mpr fun w hw => ?_
    obtain ⟨v, hm, hvw⟩ := exists_mem_of_forall₂ hresults hw
    exact ih v hm (hv.item hm) (fun a ha => hfree a (mem_occurrences_list.mpr ⟨v, hm, ha⟩)) hvw
  | object members ih =>
    obtain ⟨results, hresults, rfl⟩ := substitute_object_eq_ok.mp h
    refine everyObject_object.mpr ⟨fun n hn => ?_, fun n hn => ?_⟩
    · obtain ⟨m, hm, hmn⟩ := exists_mem_of_forall₂ hresults hn
      exact hmn.1 ▸ (everyObject_object.mp hv.noRefs).1 m hm
    · obtain ⟨m, hm, -, hmn⟩ := exists_mem_of_forall₂ hresults hn
      exact ih m hm (hv.member hm) (fun a ha => hfree a (hv.mem_of_member hm ha)) hmn
  | _ => cases Except.ok.inj h; trivial

namespace Group

variable {g : Group} {limit : Int} {place : Place} {t u : Token} {v : Value}

theorem Settles.noRefs (h : g.Prepared) (ht : g.tokenAt? place = some t)
    (hv : g.Settles limit t v) : v.NoRefs := by
  induction hv generalizing place with
  | intro target value hmalformed hpointers hfound _ _ _ hvalue ih =>
    have htracked := h.tracked place _ ht
    refine Value.noRefs_of_substitute (htracked.onlyAliases hpointers hmalformed) ?_ hvalue
    intro a ha x hx
    rw [← Except.ok.inj hx]
    have hr := htracked.mem_references ha
    exact ih a hr (hfound a hr)

/-- Without problems every token is resolved to a value that holds no reference. -/
theorem resolved_of_no_problems (hg : g.Prepared) (hgoing : (g.finalPass limit).halted = none)
    (hnone : (g.finalPass limit).problems = [])
    (hu : (g.finalPass limit).tree.tokenAt? place = some u) :
    u.resolved = true ∧ ∀ o, ¬u.resolvedValue.Holds o := by
  cases ht : g.tokenAt? place with
  | none =>
    rw [(finalPass_spec hg limit).1.absent place ht] at hu
    cases hu
  | some t =>
    have hresolved : u.resolved = true := by
      rw [← Bool.not_eq_false, resolved_eq_false_iff hg hgoing ht hu, hnone]
      simp
    have hsettles := settles_of_resolved hg ht hu hresolved
    refine ⟨hresolved, fun o ho => ?_⟩
    have hm := ho.mem_occurrences (hsettles.noRefs hg ht)
    rw [hsettles.occurrences hg ht] at hm
    exact List.not_mem_nil hm

/-! ### Documents -/

/-- What a run without problems has done. -/
theorem run_no_problems {project : Project} {file : String} {tree : Group}
    (h : ((Resolver.start limit).run project file).2.2 = .ok [])
    (htree : (project.assembleFile file limit).1.tree? file = some tree) :
    ((Resolver.start limit).run project file).1.tree? file = some (tree.finalPass limit).tree ∧
      (tree.finalPass limit).halted = none ∧ (tree.finalPass limit).problems = [] := by
  rcases hrun : project.assembleFile file limit with ⟨assembled, e | problems⟩
  · rw [Resolver.run_eq_error (r := Resolver.start limit) hrun] at h
    cases h
  · rw [hrun] at htree
    have hgoing := Resolver.going_of_run (r := Resolver.start limit) hrun htree h
    refine ⟨by rw [tree?_run_ok hrun, htree]; rfl, hgoing, ?_⟩
    rw [Resolver.run_eq_ok (r := Resolver.start limit) hrun htree hgoing] at h
    obtain ⟨rfl, hfresh⟩ := List.append_eq_nil_iff.mp (Except.ok.inj h)
    show ((Resolver.start limit).pass tree).problems = []
    simpa using hfresh

theorem resolveDocument_eq_ok {document out : Value} {problems : List Problem}
    (h : resolveDocument document limit = .ok (out, problems)) :
    ((Resolver.start limit).run (Project.single (build document)) "").2.2 = .ok problems ∧
      out = ((((Resolver.start limit).run (Project.single (build document)) "").1.tree? "").map
        (toDocument true)).getD .null := by
  unfold resolveDocument at h
  rcases hrun : (Resolver.start limit).run (Project.single (build document)) "" with
    ⟨project, resolver, e | found⟩
  · rw [hrun] at h
    cases h
  · rw [hrun] at h
    obtain ⟨rfl, rfl⟩ := Prod.mk.inj (Except.ok.inj h)
    exact ⟨rfl, rfl⟩

theorem exists_of_no_problems {document : Value} {maxDepth : Int}
    (h : ((resolveDocument document maxDepth).toOption.map fun r => r.2.isEmpty) = some true) :
    ∃ out, resolveDocument document maxDepth = .ok (out, []) := by
  rcases hrun : resolveDocument document maxDepth with e | ⟨out, problems⟩
  · rw [hrun] at h
    cases h
  · rw [hrun] at h
    obtain rfl : problems = [] := List.isEmpty_iff.mp (Option.some.inj h)
    exact ⟨out, rfl⟩

/-- **If no problem is reported, every token is resolved and no reference is left in the
document that is given back**, which has its tokens where the first one has them. -/
theorem resolveDocument_clean (document out : Value) (maxDepth : Int)
    (hkeys : document.KeysDistinct) (hpaths : ((build document).tokens.map Token.path).Nodup)
    (htexts : ∀ t ∈ (build document).tokens, t.value.RefsAreTexts)
    (h : resolveDocument document maxDepth = .ok (out, [])) :
    (∃ tree, ((Resolver.start maxDepth).run (Project.single (build document)) "").1.tree? "" =
        some tree ∧ ∀ t ∈ tree.tokens, t.resolved = true) ∧
      (∀ place, ((build out).tokenAt? place).isSome = ((build document).tokenAt? place).isSome) ∧
        ∀ place t, (build out).tokenAt? place = some t → ∀ o, ¬t.value.Holds o := by
  have hbuilt := prepared_build hkeys hpaths htexts
  have hfiles : ∀ file tree, (Project.single (build document)).tree? file = some tree →
      tree.Prepared := fun file tree htree => tree?_single htree ▸ hbuilt
  obtain ⟨hgrown, hsome⟩ := Assembly.ready_assembleFile hfiles "" maxDepth
  obtain ⟨tree, htree⟩ := Option.isSome_iff_exists.mp ((hsome "").trans rfl)
  obtain ⟨before, hbefore, hg⟩ := hgrown "" tree htree
  rw [tree?_single hbefore] at hg
  obtain ⟨hproblems, hout⟩ := resolveDocument_eq_ok h
  obtain ⟨hrun, hgoing, hnone⟩ := run_no_problems hproblems htree
  have houtline : (tree.finalPass maxDepth).tree.outline = (build document).outline := by
    have hassembled :=
      Assembly.outline_assembleFile (Project.single (build document)) "" maxDepth ""
    rw [htree] at hassembled
    rw [outline_finalPass]
    exact Option.some.inj hassembled
  have hdistinct := (finalPass_spec hg.prepared maxDepth).1.keysDistinct
  have hwritable := (writable_build document).of_outline hdistinct houtline
  have hwritten : ∀ place, ((build out).tokenAt? place).map Token.value =
      ((tree.finalPass maxDepth).tree.tokenAt? place).map (Token.writtenValue true) := by
    intro place
    rw [hout, hrun]
    exact tokenAt?_written hwritable hdistinct true place
  refine ⟨⟨_, hrun, ?_⟩, ?_, ?_⟩
  · intro t ht
    obtain ⟨place, hat⟩ := (mem_tokens_iff hdistinct).mp ht
    exact (resolved_of_no_problems hg.prepared hgoing hnone hat).1
  · intro place
    have hisSome := congrArg Option.isSome (hwritten place)
    rw [Option.isSome_map, Option.isSome_map] at hisSome
    have hpath := congrArg Option.isSome (path_final hg.prepared maxDepth place)
    rw [Option.isSome_map, Option.isSome_map] at hpath
    rw [hisSome, hpath, hg.isSome_eq place]
  · intro place t ht
    have hvalue := hwritten place
    rw [ht] at hvalue
    obtain ⟨u, hu, he⟩ := Option.map_eq_some_iff.mp hvalue.symm
    obtain ⟨hresolved, hfree⟩ := resolved_of_no_problems hg.prepared hgoing hnone hu
    rw [← he, Token.writtenValue, hresolved]
    exact hfree

theorem resolveDocument_clean_pastedAlias :
    pastedAlias.KeysDistinct ∧ ((build pastedAlias).tokens.map Token.path).Nodup ∧
      (∀ t ∈ (build pastedAlias).tokens, t.value.RefsAreTexts) ∧
        ∃ out, resolveDocument pastedAlias 10 = .ok (out, []) ∧
          (∃ tree, ((Resolver.start 10).run (Project.single (build pastedAlias)) "").1.tree? "" =
              some tree ∧ ∀ t ∈ tree.tokens, t.resolved = true) ∧
            (∀ place, ((build out).tokenAt? place).isSome =
              ((build pastedAlias).tokenAt? place).isSome) ∧
              ∀ place t, (build out).tokenAt? place = some t → ∀ o, ¬t.value.Holds o := by
  have hkeys : pastedAlias.KeysDistinct := by decide +kernel
  have hpaths : ((build pastedAlias).tokens.map Token.path).Nodup := by decide +kernel
  have htexts : ∀ t ∈ (build pastedAlias).tokens, t.value.RefsAreTexts := by decide +kernel
  refine ⟨hkeys, hpaths, htexts, ?_⟩
  obtain ⟨out, h⟩ := exists_of_no_problems (by decide +kernel : ((resolveDocument pastedAlias
    10).toOption.map fun r => r.2.isEmpty) = some true)
  exact ⟨out, h, resolveDocument_clean pastedAlias out 10 hkeys hpaths htexts h⟩

def refList : Value :=
  .object [("t", .object [(valueKey, .object [("$ref", .list [.text "\x7bbase\x7d"])])]),
    ("base", .object [(valueKey, .int 4)])]

/-- The alias below the list is left where it is, and no problem tells of it. -/
theorem not_clean_of_ref_list :
    refList.KeysDistinct ∧ resolveDocument refList 10 = .ok (refList, []) ∧
      ∃ t, (build refList).tokenAt? ["t"] = some t ∧ t.value.Holds (.aliasOf "base") := by
  refine ⟨by decide +kernel, rfl, _, rfl, ?_⟩
  refine .member (m := ("$ref", .list [.text "\x7bbase\x7d"])) List.mem_cons_self ?_
  exact .item List.mem_cons_self (.text (by decide +kernel))

/-- A document in which two tokens have one path. -/
def sharedPath : Value :=
  .object [("a", .object [("b", .object [(valueKey, .int 1)])]),
    ("a.b", .object [(valueKey, .text "\x7bc\x7d")]), ("c", .object [(valueKey, .int 2)])]

/-- The second one is taken for resolved like the first one, and its alias stays. -/
example : ((resolveDocument sharedPath 10).toOption.map fun r =>
    (r.2.length, ((build r.1).tokenAt? ["a.b"]).bind fun t => t.value.text?)) =
      some (0, some "\x7bc\x7d") := by decide +kernel

end Group

end DesignTokens
