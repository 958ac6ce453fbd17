import DesignTokens.Proofs.Assembly.Mirror

/-!
# Assemblies that stay within some files

A token is changed in its own turn or because a pointer leads to it.  So where the pointers of some
files do not leave these files (`Project.Encloses`), an assembly of any of them leaves all others as
they are (`Assembly.keeps_confined_assembleFiles`), also when the work ends early.
-/

namespace DesignTokens

/-- The pointers of some files lead to no other files. -/
def Project.Encloses (p : Project) (files : Set String) : Prop :=
  ∀ file ∈ files, ∀ place t, p.tokenAt? file place = some t → ∀ ref ∈ t.value.outerPointers,
    ∀ q target, Pointer.parse ref = .ok q → p.fileOf? q file = some target → target ∈ files

namespace Assembly

variable {base : Project} {files : Set String} {s r : Assembly} {file home ref : String}
  {place : Place} {t : Token} {hops : Nat}

/-- Nothing but the tokens of some files has changed since the beginning. -/
structure Confined (base : Project) (files : Set String) (s : Assembly) : Prop where
  beside : Beside base s
  others : ∀ file, file ∉ files → s.project.tree? file = base.tree? file

theorem confined_start (base : Project) (files : Set String) (maxDepth : Int) :
    Confined base files (start base maxDepth) :=
  ⟨beside_start base maxDepth, fun _ _ => rfl⟩

namespace Confined

theorem mark (h : Confined base files s) (hproject : r.project = s.project)
    (hlimit : r.maxDepth = s.maxDepth) (hdone : s.done ⊆ r.done) : Confined base files r where
  beside := (storing_beside base).of_project_eq h.beside hproject hlimit hdone
  others file hfile := hproject ▸ h.others file hfile

theorem assembled (h : Confined base files s) (hfile : file ∈ files)
    (ht : base.tokenAt? file place = some t) (hpointers : t.pointers ≠ [])
    (hdone : (file, t.path) ∈ s.done) (value : Value) :
    Confined base files (s.modifyToken file place fun _ => t.assembled value) where
  beside :=
    (storing_beside base).assembled h.beside (beside_start base 0) ht hpointers hdone trivial
  others other hother := by
    rw [← h.others other hother]
    unfold modifyToken
    split
    · rfl
    · rw [Project.tree?_setTree, if_neg]
      rintro rfl
      exact hother hfile

theorem mem_of_locate (h : Confined base files s) (hclosed : base.Encloses files)
    (hhome : home ∈ files) (ht : base.tokenAt? home place = some t)
    (href : ref ∈ t.value.outerPointers) {target : String} {spot : Place} {u : Token}
    {rest : List String} (hlocate : s.locate home ref = .ok (target, spot, u, rest)) :
    target ∈ files := by
  obtain ⟨q, hq, htarget, -⟩ := locate_eq_ok_iff.mp hlocate
  exact hclosed home hhome place t ht ref href q target hq (h.beside.fileOf?_eq q home ▸ htarget)

end Confined

/-- Work at the places of some files that keeps an invariant if it is begun at a token with
pointers. -/
def TurnsWithin (I : Assembly → Prop) (files : Set String)
    (assemble : String → Place → AssemblyM Bool) : Prop :=
  ∀ file ∈ files, ∀ place s t, I s → s.tokenAt? file place = some t → t.pointers ≠ [] →
    Leaves I (fun _ => True) (fun _ => True) ((assemble file place).run.run s)

theorem keeps_confined_replacement (hclosed : base.Encloses files)
    {assemble : String → Place → AssemblyM Bool}
    (hassemble : TurnsWithin (Confined base files) files assemble) (hhome : home ∈ files)
    (ht : base.tokenAt? home place = some t) (path : String)
    (href : ref ∈ t.value.outerPointers) :
    Keeps (Confined base files) (replacement assemble home path ref) (fun _ => True) := by
  unfold replacement
  refine (keeps_follow_of_located (Q := fun _ => True) (fun s file spot u rest hs hlocate hu hne =>
    hassemble file (hs.mem_of_locate hclosed hhome ht href hlocate) spot s u hs hu hne)
    (fun _ => trivial) fun _ _ _ _ _ _ _ ready =>
      keeps_answer_of_faults (fun _ _ _ => trivial) ready).bind fun outcome _ => ?_
  cases outcome with
  | ok w => exact .pure trivial
  | error fault =>
    exact (Keeps.modify fun s hs => hs.mark rfl rfl (List.Subset.refl _)).bind fun _ _ =>
      .pure trivial

theorem keeps_confined_complete (hclosed : base.Encloses files)
    (hassemble : TurnsWithin (Confined base files) files (assembleToken hops))
    (hfile : file ∈ files) (ht : base.tokenAt? file place = some t) (hpointers : t.pointers ≠ []) :
    Keeps (Confined base files) (complete hops file place t) fun _ => True := by
  unfold complete
  refine (keeps_expand_each fun ref href =>
    keeps_confined_replacement hclosed hassemble hfile ht t.path href).bind fun value _ s hs => ?_
  have hdone : Confined base files (s.close (file, t.path)) :=
    hs.mark rfl rfl (List.subset_cons_self _ _)
  have hstored : Confined base files ((s.close (file, t.path)).modifyToken file place fun _ =>
      t.assembled value) := hdone.assembled hfile ht hpointers List.mem_cons_self value
  rw [run_modify_bind, run_modify_bind]
  split
  · exact leaves_ok hstored trivial
  · exact leaves_ok (hstored.mark rfl rfl (List.Subset.refl _)) trivial

/-- A token has its turn if the tokens to which it leads may have theirs. -/
theorem turns_confined_of_below (hclosed : base.Encloses files)
    (hbelow : ∀ n, hops = n + 1 → TurnsWithin (Confined base files) files (assembleToken n)) :
    TurnsWithin (Confined base files) files (assembleToken hops) := by
  intro file hfile place s u hs hu hpointers
  have hvisited := visited hops hu
  generalize (assembleToken hops file place).run.run s = out at hvisited ⊢
  cases hvisited with
  | done => exact leaves_ok hs trivial
  | running => exact leaves_ok (hs.mark rfl rfl (List.Subset.refl _)) trivial
  | late => exact leaves_ok (hs.mark rfl rfl (List.Subset.refl _)) trivial
  | unwritable => exact leaves_error hs trivial
  | fresh hnew =>
    have hbegun : Confined base files { s with inProgress := (file, u.path) :: s.inProgress } :=
      hs.mark rfl rfl (List.Subset.refl _)
    exact keeps_confined_complete hclosed (hbelow _ rfl) hfile
      (hs.beside.waiting file place u hu hnew) hpointers _ hbegun

theorem turns_confined (hclosed : base.Encloses files) (hops : Nat) :
    TurnsWithin (Confined base files) files (assembleToken hops) := by
  induction hops with
  | zero => exact turns_confined_of_below hclosed nofun
  | succ hops ih => exact turns_confined_of_below hclosed fun n hn => Nat.succ.inj hn ▸ ih

/-- **An assembly of files that their pointers do not leave leaves the other files as they are.** -/
theorem keeps_confined_assembleFiles (hclosed : base.Encloses files) {order : List String}
    (horder : ∀ file ∈ order, file ∈ files) :
    Keeps (Confined base files) (assembleFiles order) fun _ => True :=
  keeps_assembleFiles_of_each fun file hfile => keeps_assembleFile_of_turns fun hops place =>
    turns_confined hclosed hops file (horder file hfile) place

end Assembly

end DesignTokens
