import DesignTokens.Proofs.Assembly.AddedFile
import DesignTokens.Proofs.Assembly.Readable
import DesignTokens.Proofs.Assembly.Visit

/-!
# The same work beside one more file

A step on the files of a project does the same when there is a further file that no pointer of
theirs names: it comes to the same result, and to the same state with the further file in it
(`Assembly.Mirrors`).  There is one lemma for each way in which steps are put together, as for
`Keeps`.

The invariant is `Assembly.Beside`.  A token that is not done is what it was at the start, so
the pointers that are followed are those of the files, whatever is brought in by answers.
-/

namespace DesignTokens

namespace Project

variable {p : Project} {f : TokenFile} {key : String}

theorem tree?_add_of_ne (h : key ≠ f.path) : (p.add f).tree? key = p.tree? key :=
  congrArg (Option.map TokenFile.tree) (get?_add_of_ne h)

theorem setTree_add (h : key ≠ f.path) (tree : Group) :
    (p.add f).setTree key tree = (p.setTree key tree).add f :=
  congrArg (fun files => Project.mk files p.linked) (Table.modify_put h f _)

end Project

namespace Assembly

variable {p : Project} {f g : TokenFile} {s : Assembly} {file ref target : String}
  {place spot : Place} {t : Token} {rest : List String} {hops : Nat}

def adding (s : Assembly) (f : TokenFile) : Assembly := { s with project := s.project.add f }

theorem tokenAt?_adding (hfile : file ≠ f.path) :
    (s.adding f).tokenAt? file place = s.tokenAt? file place :=
  congrArg (Option.bind · _) (Project.tree?_add_of_ne hfile)

theorem modifyToken_adding (hfile : file ≠ f.path) (change : Token → Token) :
    (s.adding f).modifyToken file place change = (s.modifyToken file place change).adding f := by
  have htree : (s.adding f).project.tree? file = s.project.tree? file :=
    Project.tree?_add_of_ne hfile
  unfold modifyToken
  rw [htree]
  cases s.project.tree? file with
  | none => rfl
  | some tree =>
    exact congrArg (fun project => { s with project }) (Project.setTree_add hfile _)

/-! ### What is known beside the further file -/

/-- The files of a state are those of a project, with their outlines, and the tokens that are not
done are its tokens. -/
structure Beside (p : Project) (s : Assembly) : Prop where
  linked : s.project.linked = p.linked
  paths : ∀ key, (s.project.files.get? key).map TokenFile.path =
    (p.files.get? key).map TokenFile.path
  outlined : Outlined p s
  waiting : Waiting p s

theorem beside_start (p : Project) (maxDepth : Int) : Beside p (start p maxDepth) :=
  ⟨rfl, fun _ => rfl, fun _ => rfl, fun _ _ _ hu _ => hu⟩

theorem storing_beside (p : Project) : Storing (fun _ => True) (Beside p) := by
  refine storing_of_kept (fun {s r} h he _ hdone => ?_)
    fun {s _ file place t} h hearlier ht _ hdone value => ?_
  · refine ⟨?_, fun key => ?_, h.outlined.of_project_eq he, h.waiting.of_project_eq he hdone⟩
    · rw [he]
      exact h.linked
    · rw [he]
      exact h.paths key
  · have houtlined := h.outlined.assembled hearlier.outlined ht value
    have hwaiting : Waiting p (s.modifyToken file place fun _ => t.assembled value) :=
      h.waiting.assembled hdone value
    unfold modifyToken at houtlined hwaiting ⊢
    cases htree : s.project.tree? file with
    | none => exact h
    | some tree =>
      rw [htree] at houtlined hwaiting
      refine ⟨h.linked, fun key => ?_, houtlined, hwaiting⟩
      rw [← h.paths key]
      show (Table.get? (Table.modify _ _ _) _).map _ = _
      rw [Table.get?_modify]
      split
      · rw [Option.map_map]
        rfl
      · rfl

theorem beside_of_run {files : List String} {maxDepth : Int}
    {outcome : Except NumeralFault Unit} {r : Assembly}
    (h : (assembleFiles files).run.run (start p maxDepth) = (outcome, r)) : Beside p r := by
  have hkept := ((storing_beside p).keeps_assembleFiles files _ (beside_start p maxDepth)).kept
  rwa [h] at hkept

theorem maxDepth_of_run {files : List String} {maxDepth : Int}
    {outcome : Except NumeralFault Unit} {r : Assembly}
    (h : (assembleFiles files).run.run (start p maxDepth) = (outcome, r)) :
    r.maxDepth = maxDepth := by
  have hstoring : Storing (fun _ => True) fun s => s.maxDepth = maxDepth :=
    storing_of_kept (fun hs _ hlimit _ => hlimit.trans hs) fun hs _ _ _ _ _ => by
      rwa [maxDepth_modifyToken]
  have hkept := (hstoring.keeps_assembleFiles files (start p maxDepth) rfl).kept
  rwa [h] at hkept

theorem fileOf_congr {r : Assembly} {q : Pointer} (hlinked : s.project.linked = r.project.linked)
    (h : s.project.fileOf? q file = r.project.fileOf? q file) :
    s.fileOf q file = r.fileOf q file := by
  unfold Project.fileOf? at h
  unfold fileOf
  rw [hlinked] at h ⊢
  cases hname : q.file with
  | none => rfl
  | some name =>
    rw [hname] at h
    dsimp only at h ⊢
    split
    · rename_i hlink
      rw [if_pos hlink, if_pos hlink] at h
      generalize s.project.file? name (fileName? file) = found at h ⊢
      generalize r.project.file? name (fileName? file) = other at h ⊢
      cases found with
      | none =>
        rw [Option.map_eq_none_iff.mp h.symm]
      | some found =>
        obtain ⟨other, rfl, he⟩ := Option.map_eq_some_iff.mp h.symm
        exact congrArg Except.ok he.symm
    · rfl

namespace Beside

theorem fileOf?_eq (hs : Beside p s) (q : Pointer) (file : String) :
    s.project.fileOf? q file = p.fileOf? q file :=
  Project.fileOf?_congr hs.linked hs.paths q file

theorem fileOf?_adding (hs : Beside p s) (q : Pointer) (file : String) :
    (s.adding f).project.fileOf? q file = (p.add f).fileOf? q file := by
  have hlinked : (s.project.add f).linked = (p.add f).linked := hs.linked
  refine Project.fileOf?_congr hlinked (fun key => ?_) q file
  by_cases hkey : key = f.path
  · rw [hkey, Project.get?_add_self, Project.get?_add_self]
  · rw [Project.get?_add_of_ne hkey, Project.get?_add_of_ne hkey]
    exact hs.paths key

variable (hp : p.Keyed) (h : p.Unrelated f)

include hp h

/-- A pointer of the files is located where it was located. -/
theorem locate_adding (hs : Beside p s) (hg : p.files.get? file = some g)
    (href : ref ∈ g.pointers) : (s.adding f).locate file ref = s.locate file ref := by
  unfold locate
  cases hq : Pointer.parse ref with
  | error fault => rfl
  | ok q =>
    have hfileOf : (s.adding f).project.fileOf? q file = s.project.fileOf? q file := by
      rw [hs.fileOf?_adding, h.fileOf?_add hp hg href hq, hs.fileOf?_eq]
    dsimp only
    rw [fileOf_congr (s := s) (r := s.adding f) rfl hfileOf.symm]
    cases htarget : (s.adding f).fileOf q file with
    | error cause => rfl
    | ok target =>
      have hsome := hfileOf.symm.trans (fileOf_eq_ok_iff.mp htarget)
      have hne := h.ne_of_fileOf? hp (h.ne_of_get? hg) ((hs.fileOf?_eq q file).symm.trans hsome)
      have htree : (s.adding f).project.tree? target = s.project.tree? target :=
        Project.tree?_add_of_ne hne
      dsimp only
      rw [htree]

theorem ne_of_locate (hs : Beside p s) (hfile : file ≠ f.path)
    (hlocate : s.locate file ref = .ok (target, spot, t, rest)) : target ≠ f.path := by
  obtain ⟨q, -, htarget, -⟩ := locate_eq_ok_iff.mp hlocate
  exact h.ne_of_fileOf? hp hfile ((hs.fileOf?_eq q file).symm.trans htarget)

end Beside

/-! ### Steps that do the same -/

variable {α β : Type} {m : AssemblyM α}

/-- A step comes to the same with a further file in the project, which it leaves as it is. -/
def Mirrors (f : TokenFile) (m : AssemblyM α) (s : Assembly) : Prop :=
  m.run.run (s.adding f) = ((m.run.run s).1, (m.run.run s).2.adding f)

namespace Mirrors

theorem pure {a : α} : Mirrors f (Pure.pure a : AssemblyM α) s := rfl

theorem bind {next : α → AssemblyM β} {I : Assembly → Prop} {Q : α → Prop}
    {E : NumeralFault → Prop} (hm : Mirrors f m s) (hleaves : Leaves I Q E (m.run.run s))
    (hnext : ∀ a t, Q a → I t → Mirrors f (next a) t) : Mirrors f (m >>= next) s := by
  unfold Mirrors at hm ⊢
  rw [ExceptT.run_bind, StateT.run_bind, StateT.run_bind, hm]
  generalize m.run.run s = out at hleaves ⊢
  obtain ⟨e | a, t⟩ := out
  · rfl
  · exact hnext a t (hleaves.result a rfl) hleaves.kept

end Mirrors

theorem mirrors_expand {I : Assembly → Prop} {replace : String → AssemblyM (Option Value)}
    (hkeeps : ∀ ref, Keeps I (replace ref) fun _ => True) {v : Value}
    (h : ∀ ref ∈ v.outerPointers, ∀ s, I s → Mirrors f (replace ref) s) (hs : I s) :
    Mirrors f (expand replace v) s := by
  -- Two steps do the same only if the invariant holds between them, so both are shown together.
  have hboth : Keeps I (expand replace v) (fun _ => True) ∧
      ∀ s, I s → Mirrors f (expand replace v) s :=
    expand_of_bind (C := fun m => Keeps I m (fun _ => True) ∧ ∀ s, I s → Mirrors f m s)
      (fun _ => ⟨.pure trivial, fun _ _ => .pure⟩)
      (fun hm hnext => ⟨hm.1.bind fun a _ => (hnext a).1, fun s hs =>
        (hm.2 s hs).bind (hm.1 s hs) fun a t _ ht => (hnext a).2 t ht⟩)
      fun ref href => ⟨hkeeps ref, h ref href⟩
  exact hboth.2 s hs

/-! ### The work on a token -/

theorem mirrors_answer (htarget : target ≠ f.path) (ready : Bool) :
    Mirrors f (answer ref target spot t rest ready) s := by
  unfold Mirrors answer
  cases ready with
  | true =>
    rw [if_pos rfl, run_get_bind, run_get_bind, tokenAt?_adding htarget]
    dsimp only
    cases Pointer.descend ref (((s.tokenAt? target spot).map Token.value).getD t.value) rest with
    | error e => rfl
    | ok part =>
      cases part with
      | error cause => rfl
      | ok w => rfl
  | false => rfl

section

variable (hp : p.Keyed) (h : p.Unrelated f)

include hp h

theorem mirrors_follow {assemble : String → Place → AssemblyM Bool}
    (hturns : Turns (Beside p) (fun _ => True) assemble)
    (hassemble : ∀ file place s, Beside p s → file ≠ f.path → Mirrors f (assemble file place) s)
    (hg : p.files.get? file = some g) (href : ref ∈ g.pointers) (hs : Beside p s) :
    Mirrors f (follow assemble file ref) s := by
  have hsame := hs.locate_adding hp h hg href
  unfold Mirrors
  cases hlocate : s.locate file ref with
  | error fault => rw [run_follow_error (hsame.trans hlocate), run_follow_error hlocate]
  | ok found =>
    obtain ⟨target, spot, t, rest⟩ := found
    have hne := hs.ne_of_locate hp h (h.ne_of_get? hg) hlocate
    obtain ⟨-, -, -, -, ht⟩ := locate_eq_ok_iff.mp hlocate
    rw [run_follow_ok (hsame.trans hlocate), run_follow_ok hlocate]
    split
    · exact Mirrors.bind .pure (leaves_ok (Q := fun _ => True) (E := fun _ => True) hs trivial)
        fun ready _ _ _ => mirrors_answer hne ready
    · rename_i hpointers
      refine (hassemble target spot s hs hne).bind (hturns target spot s t hs ht fun hnone => ?_)
        fun ready _ _ _ => mirrors_answer hne ready
      exact hpointers (List.isEmpty_iff.mpr hnone)

theorem mirrors_replacement {assemble : String → Place → AssemblyM Bool}
    (hturns : Turns (Beside p) (fun _ => True) assemble)
    (hassemble : ∀ file place s, Beside p s → file ≠ f.path → Mirrors f (assemble file place) s)
    (hg : p.files.get? file = some g) (path : String) (href : ref ∈ g.pointers) (hs : Beside p s) :
    Mirrors f (replacement assemble file path ref) s := by
  unfold replacement
  refine (mirrors_follow hp h hturns hassemble hg href hs).bind
    ((storing_beside p).keeps_follow hturns file trivial s hs) fun r _ _ _ => ?_
  cases r with
  | ok w => exact .pure
  | error fault => exact rfl

theorem mirrors_complete
    (hassemble : ∀ file place s, Beside p s → file ≠ f.path →
      Mirrors f (assembleToken hops file place) s)
    (ht : p.tokenAt? file place = some t) (hs : Beside p s) :
    Mirrors f (complete hops file place t) s := by
  obtain ⟨g, hg, hpointers⟩ := hp.exists_file ht
  have hturns := (storing_beside p).turns_assembleToken hops
  have hkeeps : ∀ ref, Keeps (Beside p) (replacement (assembleToken hops) file t.path ref)
      fun _ => True := fun ref =>
    ((storing_beside p).keeps_replacement hturns file t.path trivial).imp fun _ _ => trivial
  unfold complete
  refine (mirrors_expand hkeeps (fun ref href s hs => ?_) hs).bind
    (keeps_expand_each (fun ref _ => hkeeps ref) s hs) fun value r _ _ => ?_
  · exact mirrors_replacement hp h hturns hassemble hg t.path (hpointers ref href) hs
  · unfold Mirrors
    have hstore : ((r.adding f).close (file, t.path)).modifyToken file place
        (fun _ => t.assembled value) =
          ((r.close (file, t.path)).modifyToken file place fun _ => t.assembled value).adding f :=
      modifyToken_adding (s := r.close (file, t.path)) (h.ne_of_get? hg) _
    rw [run_modify_bind, run_modify_bind, run_modify_bind, run_modify_bind, hstore]
    split
    · rfl
    · rfl

theorem mirrors_turn
    (hbelow : ∀ n, hops = n + 1 → ∀ file place s, Beside p s → file ≠ f.path →
      Mirrors f (assembleToken n file place) s)
    (hfile : file ≠ f.path) (hs : Beside p s) : Mirrors f (assembleToken hops file place) s := by
  have hsame : (s.adding f).tokenAt? file place = s.tokenAt? file place := tokenAt?_adding hfile
  unfold Mirrors
  cases ht : s.tokenAt? file place with
  | none =>
    rw [assembleToken.eq_def, run_get_bind, run_get_bind, hsame, ht]
    rfl
  | some t =>
    have ht' := hsame.trans ht
    by_cases hdone : (file, t.path) ∈ s.done
    · rw [run_assembleToken_done ht' hdone, run_assembleToken_done ht hdone]
      rfl
    · by_cases hrunning : (file, t.path) ∈ s.inProgress
      · rw [run_assembleToken_running ht' hdone hrunning,
          run_assembleToken_running ht hdone hrunning]
        rfl
      · cases hops with
        | zero =>
          cases hlimit : isWritable s.maxDepth with
          | true =>
            rw [run_assembleToken_late ht' hdone hrunning hlimit,
              run_assembleToken_late ht hdone hrunning hlimit]
            rfl
          | false =>
            rw [run_assembleToken_unwritable ht' hdone hrunning hlimit,
              run_assembleToken_unwritable ht hdone hrunning hlimit]
            rfl
        | succ hops =>
          rw [run_assembleToken_fresh ht' hdone hrunning,
            run_assembleToken_fresh ht hdone hrunning]
          have hbegun : Beside p { s with inProgress := (file, t.path) :: s.inProgress } :=
            (storing_beside p).of_project_eq hs rfl rfl (List.Subset.refl _)
          exact mirrors_complete hp h (hbelow hops rfl) (hs.waiting file place t ht hdone) hbegun

theorem mirrors_assembleToken (hops : Nat) (hfile : file ≠ f.path) (hs : Beside p s) :
    Mirrors f (assembleToken hops file place) s := by
  induction hops generalizing file place s with
  | zero => exact mirrors_turn hp h nofun hfile hs
  | succ hops ih =>
    refine mirrors_turn hp h (fun n hn file place s hs hfile => ?_) hfile hs
    exact Nat.succ.inj hn ▸ ih hfile hs

/-! ### The work on files -/

theorem mirrors_assemblePlaces (hfile : file ≠ f.path) (places : List Place) (hs : Beside p s) :
    Mirrors f (assemblePlaces file places) s := by
  induction places generalizing s with
  | nil =>
    rw [assemblePlaces]
    exact .pure
  | cons place places ih =>
    unfold Mirrors
    rw [assemblePlaces, run_get_bind, run_get_bind, tokenAt?_adding hfile]
    cases ht : s.tokenAt? file place with
    | none => exact ih hs
    | some t =>
      dsimp only
      split
      · rename_i hpointers
        have hturns := (storing_beside p).turns_assembleToken (hopsWithin s.maxDepth)
        refine (mirrors_assembleToken hp h _ hfile hs).bind
          (hturns file place s t hs ht ?_) fun _ _ _ hr => ih hr
        simpa using hpointers
      · exact ih hs

theorem mirrors_assembleFile (hfile : file ≠ f.path) (hs : Beside p s) :
    Mirrors f (assembleFile file) s := by
  have htree : (s.adding f).project.tree? file = s.project.tree? file :=
    Project.tree?_add_of_ne hfile
  unfold Mirrors
  cases hfound : s.project.tree? file with
  | none => rw [run_assembleFile_none (htree.trans hfound), run_assembleFile_none hfound]
  | some tree =>
    rw [run_assembleFile_some (htree.trans hfound), run_assembleFile_some hfound]
    exact mirrors_assemblePlaces hp h hfile _ hs

/-- **Files are assembled as if the further file were not there.** -/
theorem mirrors_assembleFiles {files : List String} (hfiles : f.path ∉ files) (hs : Beside p s) :
    Mirrors f (assembleFiles files) s := by
  induction files generalizing s with
  | nil =>
    rw [assembleFiles]
    exact .pure
  | cons file files ih =>
    obtain ⟨hfile, hfiles⟩ := not_or.mp (mt List.mem_cons.mpr hfiles)
    rw [assembleFiles]
    exact (mirrors_assembleFile hp h (Ne.symm hfile) hs).bind
      ((storing_beside p).keeps_assembleFile file s hs) fun _ _ _ hr => ih hfiles hr

end

end Assembly

end DesignTokens
