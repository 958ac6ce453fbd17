import DesignTokens.Proofs.Assembly.Stability

/-!
# An assembly leaves its trees ready for resolution

`Assembly.Ready` is the invariant of an assembly: every tree is prepared and has its
tokens where it had them before.  All steps keep it, whether or not the work ends
early, so it holds of the project in the end (`ready_assembleFile`).  What carries it
is that a value keeps its `$ref` members texts while its pointers are replaced
(`keeps_refsAreTexts`).
-/

namespace DesignTokens.Assembly

/-- The invariant of an assembly of the files of a project. -/
structure Ready (base : Project) (s : Assembly) : Prop where
  grown : ∀ file tree, s.project.tree? file = some tree →
    ∃ before, base.tree? file = some before ∧ before.Grown tree
  isSome_eq : ∀ file, (s.project.tree? file).isSome = (base.tree? file).isSome

variable {base : Project} {s : Assembly}

theorem Ready.of_project_eq (h : Ready base s) {t : Assembly} (he : t.project = s.project) :
    Ready base t := by
  refine ⟨?_, ?_⟩
  · intro file tree
    rw [he]
    exact h.grown file tree
  · intro file
    rw [he]
    exact h.isSome_eq file

theorem Ready.tracked (h : Ready base s) {file : String} {place : Place} {t : Token}
    (ht : s.tokenAt? file place = some t) : t.path = pathAt place ∧ t.Tracked := by
  obtain ⟨tree, htree, hat⟩ := Option.bind_eq_some_iff.mp ht
  obtain ⟨before, -, hgrown⟩ := h.grown file tree htree
  exact ⟨hgrown.prepared.path_eq place t hat, hgrown.prepared.tracked place t hat⟩

theorem Ready.modifyToken (h : Ready base s) {file : String} {place : Place} {u : Token}
    (hpath : u.path = pathAt place) (hu : u.Tracked) :
    Ready base (s.modifyToken file place fun _ => u) := by
  unfold Assembly.modifyToken
  cases htree : s.project.tree? file with
  | none => exact h
  | some tree =>
    refine ⟨?_, ?_⟩
    · intro other tree' htree'
      dsimp only at htree'
      rw [Project.tree?_setTree] at htree'
      split at htree'
      · rename_i he
        obtain ⟨_, -, rfl⟩ := Option.map_eq_some_iff.mp htree'
        obtain ⟨before, hbefore, hgrown⟩ := h.grown file tree htree
        exact ⟨before, he ▸ hbefore, hgrown.modifyToken hpath hu⟩
      · exact h.grown other tree' htree'
    · intro other
      rw [← h.isSome_eq other]
      dsimp only
      rw [Project.tree?_setTree]
      split
      · exact Option.isSome_map
      · rfl

/-! ### All steps -/

/-- A `$ref` member is still a text after the pointers of a value are replaced. -/
theorem keeps_refsAreTexts
    {I : Assembly → Prop} {replace : String → AssemblyM (Option Value)}
    (hreplace : ∀ ref, Keeps I (replace ref) fun r => ∀ w, r = some w → w.RefsAreTexts)
    {v : Value} (hv : v.RefsAreTexts) : Keeps I (expand replace v) Value.RefsAreTexts := by
  have hkeeps : Keeps I (expand replace v) fun w => v.RefsAreTexts → w.RefsAreTexts := by
    refine keeps_expand (Q := fun v w => v.RefsAreTexts → w.RefsAreTexts) (fun _ => id)
      (fun hresults hitems => ?_) (fun hp hresults hmembers => ?_) (fun ref _ members _ => ?_)
    · refine Value.everyObject_list.mpr fun w hw => ?_
      obtain ⟨v, hm, hvw⟩ := Value.exists_mem_of_forall₂ hresults hw
      exact hvw (Value.everyObject_list.mp hitems v hm)
    · obtain ⟨hhere, hbelow⟩ := Value.everyObject_object.mp hmembers
      refine Value.everyObject_object.mpr ⟨fun n hn hkey => ?_, fun n hn => ?_⟩
      · obtain ⟨m, hm, he, -⟩ := Value.exists_mem_of_forall₂ hresults hn
        exact absurd (he.trans hkey) (Value.ne_pointerKey hhere hp hm)
      · obtain ⟨m, hm, -, hmn⟩ := Value.exists_mem_of_forall₂ hresults hn
        exact hmn (hbelow m hm)
    · exact (hreplace ref).imp fun r hr hmembers => by
        cases r with
        | none => exact hmembers
        | some w => exact hr w rfl
  exact hkeeps.imp fun _ h => h hv

theorem storing_ready (base : Project) : Storing Value.RefsAreTexts (Ready base) where
  of_project_eq h he _ _ := h.of_project_eq he
  limit _ _ := trivial
  answer h hlocate _ ready := by
    obtain ⟨-, -, -, -, ht⟩ := locate_eq_ok_iff.mp hlocate
    exact keeps_answer_of_parts (h.tracked ht).2.refsAreTexts
      (fun s hs u hu => (hs.tracked hu).2.refsAreTexts)
      (fun v w hv hw => Pointer.everyObject_of_descend hv hw) ready
  expand h ht _ hreplace :=
    keeps_refsAreTexts (fun ref => hreplace ref trivial) (h.tracked ht).2.refsAreTexts
  assembled h hearlier ht _ _ hvalue := by
    obtain ⟨hpath, htracked⟩ := hearlier.tracked ht
    exact h.modifyToken hpath (htracked.assembled hvalue)

/-- **Every tree of a project is still ready for resolution after one of its files is
assembled**, also when a pointer ended the work. -/
theorem ready_assembleFile {project : Project}
    (h : ∀ file tree, project.tree? file = some tree → tree.Prepared) (file : String)
    (maxDepth : Int) :
    (∀ other tree, (project.assembleFile file maxDepth).1.tree? other = some tree →
      ∃ before, project.tree? other = some before ∧ before.Grown tree) ∧
      ∀ other, ((project.assembleFile file maxDepth).1.tree? other).isSome =
        (project.tree? other).isSome := by
  have hstart : Ready project (start project maxDepth) :=
    ⟨fun file tree ht => ⟨tree, ht, h file tree ht, fun _ => rfl⟩, fun _ => rfl⟩
  have hend := ((storing_ready project).keeps_assembleFile file _ hstart).kept
  exact ⟨hend.grown, hend.isSome_eq⟩

end DesignTokens.Assembly
