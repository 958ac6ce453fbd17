import DesignTokens.Proofs.Assembly.LastTurn
import DesignTokens.Proofs.Assembly.QuietRun
import DesignTokens.Proofs.Resolution.History

/-!
# A further file leaves a quiet project as it is

The new file is assembled last.  Until then all goes as it went without it (`Mirror`), after that
no token of the other files is left to be assembled (`Onward`), so its turn changes nothing but the
file itself (`LastTurn`).  `Project.assemble_undisturbed` puts this together; where the new file
names itself, the others have their turns in another order, and `QuietRun` says when that does not
matter.

A file that some pointer names is another case: a name is tried from the root of the project first,
and a new file there takes the place of one in the directory of the pointer
(`Project.not_undisturbed_of_namesake`).
-/

namespace DesignTokens

namespace Assembly

variable {p : Project} {f : TokenFile} {s r : Assembly} {home : String}

theorem assembleFiles_append (files others : List String) :
    assembleFiles (files ++ others) = assembleFiles files >>= fun _ => assembleFiles others := by
  induction files with
  | nil => rw [assembleFiles, List.nil_append, pure_bind]
  | cons file files ih => rw [List.cons_append, assembleFiles, assembleFiles, ih, bind_assoc]

theorem assembleFiles_singleton (file : String) : assembleFiles [file] = assembleFile file := by
  rw [assembleFiles, assembleFiles]
  exact bind_pure _

theorem run_assembleFiles_adding (hp : p.Keyed) (h : p.Unrelated f) {files : List String}
    (hfiles : f.path ∉ files) (hs : Beside p s)
    (hrun : (assembleFiles files).run.run s = (.ok (), r)) :
    (assembleFiles (files ++ [f.path])).run.run (s.adding f) =
      (assembleFile f.path).run.run (r.adding f) := by
  have hsame := mirrors_assembleFiles hp h hfiles hs
  unfold Mirrors at hsame
  rw [hrun] at hsame
  rw [assembleFiles_append, assembleFiles_singleton, ExceptT.run_bind, StateT.run_bind, hsame]
  rfl

theorem othersSettled_adding (hr : Beside p r)
    (hsettled : ∀ file ∈ p.files.keys, ∀ place, Settled p r file place) :
    OthersSettled (r.adding f) f.path := by
  intro file hfile place u hu
  rw [tokenAt?_adding hfile] at hu
  obtain ⟨tree, v, htree, hat, hsame⟩ := hr.outlined.exists_token hu
  have hv : p.tokenAt? file place = some v := Option.bind_eq_some_iff.mpr ⟨tree, htree, hat⟩
  by_cases hdone : (file, u.path) ∈ r.done
  · exact Or.inr hdone
  · obtain rfl := Option.some.inj (hv.symm.trans (hr.waiting file place u hu hdone))
    exact hsettled file (Project.mem_keys_of_tokenAt? hv) place v hv

end Assembly

namespace Project

variable {p : Project} {f : TokenFile} {maxDepth : Int} {r : Assembly}

/-- What a further file leaves as it was when the files are assembled with it: the values of the
other files.  What is reported is about the new file, and only an unreadable pointer of the new
file can end the work, if the limit can be written. -/
structure Undisturbed (f : TokenFile) (maxDepth : Int)
    (before after : Project × Except NumeralFault (List Problem)) : Prop where
  values : ∀ file, file ≠ f.path → ∀ place,
    after.1.valueAt? file place = before.1.valueAt? file place
  problems : ∀ problems, after.2 = .ok problems → ∀ e ∈ problems, e.file = fileName? f.path
  ends : isWritable maxDepth = true → (∀ place t, f.tree.tokenAt? place = some t →
    ∀ ref ∈ t.value.outerPointers, Pointer.isReadable ref = true) →
      ∃ problems, after.2 = .ok problems

/-- The turn of the new file, when the others are settled and nothing is reported. -/
theorem undisturbed_turn (hquiet : r.problems = [])
    (hothers : Assembly.OthersSettled (r.adding f) f.path) :
    Undisturbed f r.maxDepth (r.project, .ok r.problems)
      (finish ((Assembly.assembleFile f.path).run.run (r.adding f))) := by
  have hturned := Assembly.keeps_turned_assembleFile hothers _ (Assembly.turned_self _ _)
  generalize (Assembly.assembleFile f.path).run.run (r.adding f) = out at hturned
  obtain ⟨outcome, s⟩ := out
  refine ⟨fun file hfile place => ?_, fun problems hok e he => ?_, fun hlimit hreadable => ?_⟩
  · have htree := (hturned.kept.others file hfile).trans (tree?_add_of_ne hfile)
    exact congrArg (fun tree => (tree.bind fun tree => tree.tokenAt? place).map Token.value) htree
  · cases outcome with
    | error fault => cases hok
    | ok _ =>
      cases hok
      refine (hturned.kept.problems e he).resolve_left fun hold => ?_
      rw [show (r.adding f).problems = [] from hquiet] at hold
      exact List.not_mem_nil hold
  · cases outcome with
    | error fault =>
      refine absurd ⟨hlimit, fun place t ht ref href => ?_⟩ (hturned.fault fault rfl)
      have htree : (r.adding f).project.tree? f.path = some f.tree :=
        congrArg (Option.map TokenFile.tree) get?_add_self
      refine hreadable place t ?_ ref href
      unfold Assembly.tokenAt? at ht
      rw [htree] at ht
      exact ht
    | ok _ => exact ⟨_, rfl⟩

/-- The new file behind turns of the others that went well. -/
theorem undisturbed_of_run (hp : p.Keyed) (h : p.Unrelated f) {front : List String}
    (hfront : ∀ file, file ∈ front ↔ file ∈ p.files.keys)
    (horder : (p.add f).assemblyOrder = front ++ [f.path])
    (hrun : (Assembly.assembleFiles front).run.run (Assembly.start p maxDepth) = (.ok (), r))
    (hquiet : r.problems = []) :
    Undisturbed f maxDepth (r.project, .ok r.problems) ((p.add f).assemble maxDepth) := by
  have hs := Assembly.beside_start p maxDepth
  have hfresh : f.path ∉ front := fun hmem => h.fresh ((hfront _).mp hmem)
  have hsettled := Assembly.settled_assembleFiles hp hs rfl hrun hquiet
  have hall : (Assembly.assembleFiles (p.add f).assemblyOrder).run.run
      (Assembly.start (p.add f) maxDepth) =
        (Assembly.assembleFile f.path).run.run (r.adding f) := by
    rw [horder]
    exact Assembly.run_assembleFiles_adding hp h hfresh hs hrun
  unfold assemble
  rw [hall, ← Assembly.maxDepth_of_run hrun]
  refine undisturbed_turn hquiet (Assembly.othersSettled_adding (Assembly.beside_of_run hrun) ?_)
  exact fun file hfile => hsettled file ((hfront file).mpr hfile)

theorem exists_run_of_quiet (hquiet : (p.assemble maxDepth).2 = .ok []) :
    ∃ r, (Assembly.assembleFiles p.assemblyOrder).run.run (Assembly.start p maxDepth) =
      (.ok (), r) ∧ r.problems = [] ∧ (p.assemble maxDepth).1 = r.project := by
  unfold assemble at hquiet ⊢
  generalize (Assembly.assembleFiles p.assemblyOrder).run.run (Assembly.start p maxDepth) = out
    at hquiet
  obtain ⟨outcome, r⟩ := out
  cases outcome with
  | error fault => cases hquiet
  | ok _ => exact ⟨r, rfl, Except.ok.inj hquiet, rfl⟩

/-- What is needed of the order of the files: it stays as it is, or it does not matter.  It stays if
the files name each other already or the new file does not name itself; and it does not matter if
the documents are fit, the limit can be written and no chain of hops is longer than it allows. -/
def OrderIrrelevant (documents : Table String Value) (f : TokenFile) (maxDepth : Int) : Prop :=
  (build documents).fileOrder.order = none ∨ ¬ (build documents).NamesItself f ∨
    (Fit documents ∧ isWritable maxDepth = true ∧
      ∀ x, ¬ (build documents).HasChain (Assembly.hopsWithin maxDepth + 1) x)

/-- **A further file that no pointer names leaves a quiet project as it is**: when everything is
assembled with it, every token of the other files has the value that it had, and whatever is
reported is about the new file. -/
theorem assemble_undisturbed {documents : Table String Value} {name : String} {document : Value}
    (hkeys : ∀ d ∈ documents, d.2.KeysDistinct)
    (hquiet : ((build documents).assemble maxDepth).2 = .ok [])
    (hunrelated : (build documents).Unrelated (TokenFile.build name document))
    (horder : OrderIrrelevant documents (TokenFile.build name document) maxDepth) :
    Undisturbed (TokenFile.build name document) maxDepth ((build documents).assemble maxDepth)
      ((build (documents ++ [(name, document)])).assemble maxDepth) := by
  have hp := keyed_build hkeys
  obtain ⟨r, hrun, hproblems, hproject⟩ := exists_run_of_quiet hquiet
  have hmem : ∀ file, file ∈ (build documents).assemblyOrder ↔
      file ∈ (build documents).files.keys :=
    fun file => ⟨mem_keys_of_mem_assemblyOrder, mem_assemblyOrder⟩
  rw [build_append]
  obtain ⟨front, hfront, hcases⟩ := hunrelated.exists_assemblyOrder_add hp
  rcases hcases with rfl | ⟨rfl, hacyclic, hitself⟩
  · have hundisturbed := undisturbed_of_run hp hunrelated hmem hfront hrun hproblems
    exact { hundisturbed with values := hproject ▸ hundisturbed.values }
  · -- The files have their turns as they stand now, since the new one names itself.
    obtain ⟨hfit, hlimit, hshort⟩ :=
      (horder.resolve_left hacyclic).resolve_left fun hnot => hnot hitself
    obtain ⟨r', hrun', hproblems', hvalues⟩ := Assembly.exists_quiet_again (sound_build hfit) hp
      hlimit hshort (fun file => (hmem file).mpr) (fun _ hfile => hfile) hrun hproblems
    have hundisturbed := undisturbed_of_run hp hunrelated (fun _ => Iff.rfl) hfront hrun' hproblems'
    refine { hundisturbed with values := fun file hfile place => ?_ }
    rw [hundisturbed.values file hfile place, hproject]
    exact hvalues file place

/-- In a project of three files, each of which takes over what the next one has, nothing is reported
with the limit 0; a new file that names itself changes the order, and then something is. -/
example :
    let relay : Table String Value :=
      [("a.json", .object [("t", .object [("$value", .object [("$ref", .text "b.json#/t")])])]),
        ("b.json", .object [("t", .object [("$value", .object [("$ref", .text "c.json#/t")])])]),
        ("c.json", .object [("t", .object [("$value", .int 4)])])]
    let loner : Value := .object [
      ("t", .object [("$value", .object [("$ref", .text "d.json#/u")])]),
      ("u", .object [("$value", .int 1)])]
    ((build relay).assemble 0).2.toOption.map List.length = some 0 ∧
      ((build (relay ++ [("d.json", loner)])).assemble 0).2.toOption.map List.length = some 2 := by
  decide +kernel

/-- Two files of one directory, one of which names the other. -/
def neighbours : Table String Value :=
  [("a/x.json", .object [("t", .object [("$value", .object [("$ref", .text "y.json#/b")])])]),
    ("a/y.json", .object [("b", .object [("$value", .text "near")])])]

/-- A file that names one of the two from outside their directory. -/
def outsider : Value :=
  .object [("u", .object [("$value", .object [("$ref", .text "a/y.json#/b")])])]

theorem assemble_undisturbed_neighbours :
    (∀ d ∈ neighbours, d.2.KeysDistinct) ∧ ((build neighbours).assemble 10).2 = .ok [] ∧
      (build neighbours).Unrelated (TokenFile.build "z.json" outsider) ∧
      OrderIrrelevant neighbours (TokenFile.build "z.json" outsider) 10 ∧
      Undisturbed (TokenFile.build "z.json" outsider) 10 ((build neighbours).assemble 10)
        ((build (neighbours ++ [("z.json", outsider)])).assemble 10) := by
  have hkeys : ∀ d ∈ neighbours, d.2.KeysDistinct := by decide +kernel
  have hquiet : ((build neighbours).assemble 10).2 = .ok [] :=
    Session.silent_of_isEmpty (by decide +kernel)
  have hunrelated : (build neighbours).Unrelated (TokenFile.build "z.json" outsider) :=
    ⟨by decide +kernel, by decide +kernel⟩
  have horder : OrderIrrelevant neighbours (TokenFile.build "z.json" outsider) 10 := by
    refine Or.inr (Or.inl ?_)
    unfold NamesItself
    decide +kernel
  exact ⟨hkeys, hquiet, hunrelated, horder, assemble_undisturbed hkeys hquiet hunrelated horder⟩

/-- A file of the same name at the root of the project. -/
def namesake : Value := .object [("b", .object [("$value", .text "far")])]

/-- A name is tried from the root first, so the pointer leads to the new file now. -/
theorem not_undisturbed_of_namesake :
    ((build neighbours).assemble 10).2 = .ok [] ∧
      (TokenFile.build "y.json" namesake).path ∉ (build neighbours).files.keys ∧
      (((build neighbours).assemble 10).1.valueAt? "a/x.json" ["t"]).bind Value.text? =
        some "near" ∧
      (((build (neighbours ++ [("y.json", namesake)])).assemble 10).1.valueAt? "a/x.json"
        ["t"]).bind Value.text? = some "far" :=
  ⟨Session.silent_of_isEmpty (by decide +kernel), by decide +kernel, by decide +kernel,
    by decide +kernel⟩

end Project

end DesignTokens
