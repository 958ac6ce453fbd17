import DesignTokens.Proofs.Assembly.Readable
import DesignTokens.Proofs.Assembly.Visit

/-!
# The turn of a file when all others had theirs

Once no token of another file is left to be assembled, the turn of a file changes nothing but
this file, and what it reports is about this file (`Assembly.Turned`): a pointer into another
file finds a token there that is done.  Only an outermost pointer of the file itself can end the
work then (`keeps_turned_assembleFile`).
-/

namespace DesignTokens.Assembly

variable {before s : Assembly} {home file ref path : String} {place spot : Place} {t u : Token}
  {rest : List String} {hops : Nat}

/-- No token of another file is left to be assembled. -/
def OthersSettled (s : Assembly) (home : String) : Prop :=
  ∀ file, file ≠ home → ∀ place u, s.tokenAt? file place = some u →
    u.pointers = [] ∨ (file, u.path) ∈ s.done

/-- Nothing but a file has changed since a state, and nothing is reported but on this file. -/
structure Turned (before : Assembly) (home : String) (s : Assembly) : Prop where
  maxDepth : s.maxDepth = before.maxDepth
  others : ∀ file, file ≠ home → s.project.tree? file = before.project.tree? file
  waiting : Waiting before.project s
  done : before.done ⊆ s.done
  problems : ∀ e ∈ s.problems, e ∈ before.problems ∨ e.file = fileName? home

/-- The work can end early only if the limit cannot be written or a token of the file has an
unreadable outermost pointer. -/
def Unfinished (before : Assembly) (home : String) (_ : NumeralFault) : Prop :=
  ¬ (isWritable before.maxDepth = true ∧ ∀ place t, before.tokenAt? home place = some t →
    ∀ ref ∈ t.value.outerPointers, Pointer.isReadable ref = true)

theorem turned_self (before : Assembly) (home : String) : Turned before home before :=
  ⟨rfl, fun _ _ => rfl, fun _ _ _ hu _ => hu, List.Subset.refl _, fun _ he => Or.inl he⟩

namespace Turned

theorem mark (h : Turned before home s) {r : Assembly} (hproject : r.project = s.project)
    (hlimit : r.maxDepth = s.maxDepth) (hdone : s.done ⊆ r.done)
    (hproblems : r.problems = s.problems) : Turned before home r where
  maxDepth := hlimit.trans h.maxDepth
  others file hfile := hproject ▸ h.others file hfile
  waiting := h.waiting.of_project_eq hproject hdone
  done := List.Subset.trans h.done hdone
  problems := hproblems ▸ h.problems

theorem record (h : Turned before home s) (path : String) (kind : ProblemKind) (cause : Cause)
    (reference : Option String) : Turned before home (s.record home path kind cause reference) where
  maxDepth := h.maxDepth
  others := h.others
  waiting := h.waiting.of_project_eq rfl (List.Subset.refl _)
  done := h.done
  problems e he := by
    rcases List.mem_append.mp he with he | he
    · exact h.problems e he
    · rw [List.mem_singleton.mp he]
      exact Or.inr rfl

theorem assembled (h : Turned before home s) (hdone : (home, t.path) ∈ s.done) (value : Value) :
    Turned before home (s.modifyToken home place fun _ => t.assembled value) where
  maxDepth := by
    rw [maxDepth_modifyToken]
    exact h.maxDepth
  others file hfile := by
    rw [← h.others file hfile]
    unfold modifyToken
    split
    · rfl
    · rw [Project.tree?_setTree, if_neg hfile]
  waiting := h.waiting.assembled hdone value
  done := by
    rw [done_modifyToken]
    exact h.done
  problems := by
    rw [problems_modifyToken]
    exact h.problems

theorem settled (h : Turned before home s) (hsettled : OthersSettled before home)
    (hfile : file ≠ home) (hu : s.tokenAt? file place = some u) :
    u.pointers = [] ∨ (file, u.path) ∈ s.done := by
  unfold tokenAt? at hu
  rw [h.others file hfile] at hu
  exact (hsettled file hfile place u hu).imp_right fun hdone => h.done hdone

end Turned

theorem keeps_turned_answer {I : Assembly → Prop} {target : String}
    (ht : before.tokenAt? home place = some t) (href : ref ∈ t.value.outerPointers)
    (hlocate : s.locate home ref = .ok (target, spot, u, rest)) (ready : Bool) :
    Keeps I (answer ref target spot u rest ready) (fun _ => True) (Unfinished before home) := by
  refine keeps_answer_of_faults (fun v e he hreadable => ?_) ready
  have hrest := readable_of_locate (hreadable.2 place t ht ref href) hlocate
  obtain ⟨result, hresult⟩ := Pointer.exists_descend hrest v
  rw [hresult] at he
  cases he

theorem keeps_turned_replacement {assemble : String → Place → AssemblyM Bool}
    (hassemble : Turns (Turned before home) (Unfinished before home) assemble)
    (ht : before.tokenAt? home place = some t) (path : String)
    (href : ref ∈ t.value.outerPointers) :
    Keeps (Turned before home) (replacement assemble home path ref) (fun _ => True)
      (Unfinished before home) := by
  unfold replacement
  refine (keeps_follow_of_turns (Q := fun _ => True) hassemble (fun _ => trivial)
    fun _ _ _ _ _ _ hlocate => keeps_turned_answer ht href hlocate).bind fun outcome _ => ?_
  cases outcome with
  | ok w => exact .pure trivial
  | error fault => exact (Keeps.modify fun s hs => hs.record _ _ _ _).bind fun _ _ => .pure trivial

theorem keeps_turned_complete
    (hassemble : Turns (Turned before home) (Unfinished before home) (assembleToken hops))
    (ht : before.tokenAt? home place = some t) :
    Keeps (Turned before home) (complete hops home place t) (fun _ => True)
      (Unfinished before home) := by
  unfold complete
  refine (keeps_expand_each fun ref href =>
    keeps_turned_replacement hassemble ht t.path href).bind fun value _ s hs => ?_
  have hclosed : Turned before home (s.close (home, t.path)) :=
    hs.mark rfl rfl (List.subset_cons_self _ _) rfl
  have hstored : Turned before home ((s.close (home, t.path)).modifyToken home place fun _ =>
      t.assembled value) := hclosed.assembled List.mem_cons_self value
  rw [run_modify_bind, run_modify_bind]
  split
  · exact leaves_ok hstored trivial
  · exact leaves_ok (hstored.mark rfl rfl (List.Subset.refl _) rfl) trivial

/-- A token of the file has its turn, and a token of another one is done. -/
theorem turns_turned_of_below (hsettled : OthersSettled before home)
    (hbelow : ∀ n, hops = n + 1 →
      Turns (Turned before home) (Unfinished before home) (assembleToken n)) :
    Turns (Turned before home) (Unfinished before home) (assembleToken hops) := by
  intro file place s u hs hu hpointers
  -- A token that has its turn and is not done is one of the file.
  have hhome : (file, u.path) ∉ s.done → file = home := by
    intro hnew
    by_contra hfile
    exact (hs.settled hsettled hfile hu).elim hpointers hnew
  have hvisited := visited hops hu
  generalize (assembleToken hops file place).run.run s = out at hvisited ⊢
  cases hvisited with
  | done => exact leaves_ok hs trivial
  | running => exact leaves_ok (hs.mark rfl rfl (List.Subset.refl _) rfl) trivial
  | late hnew =>
    obtain rfl := hhome hnew
    have hmarked : Turned before file { s with failed := s.failed.put (file, u.path) .depth } :=
      hs.mark rfl rfl (List.Subset.refl _) rfl
    exact leaves_ok (hmarked.record _ _ _ _) trivial
  | unwritable _ _ hlimit =>
    refine leaves_error hs fun hnot => ?_
    rw [← hs.maxDepth, hlimit] at hnot
    cases hnot.1
  | fresh hnew =>
    obtain rfl := hhome hnew
    have hbegun : Turned before file { s with inProgress := (file, u.path) :: s.inProgress } :=
      hs.mark rfl rfl (List.Subset.refl _) rfl
    exact keeps_turned_complete (hbelow _ rfl) (hs.waiting file place u hu hnew) _ hbegun

theorem turns_turned (hsettled : OthersSettled before home) (hops : Nat) :
    Turns (Turned before home) (Unfinished before home) (assembleToken hops) := by
  induction hops with
  | zero => exact turns_turned_of_below hsettled nofun
  | succ hops ih =>
    exact turns_turned_of_below hsettled fun n hn => Nat.succ.inj hn ▸ ih

/-- **The turn of a file changes this file only, and reports on this file only, if no token of
another file is left to be assembled.** -/
theorem keeps_turned_assembleFile (hsettled : OthersSettled before home) :
    Keeps (Turned before home) (assembleFile home) (fun _ => True) (Unfinished before home) :=
  keeps_assembleFile_of_turns fun hops place => turns_turned hsettled hops home place

end DesignTokens.Assembly
