import DesignTokens.Proofs.Assembly.Completion

/-!
# The turn of a token

What a turn comes to is read off the state in which it begins: `visited` names the five
cases, and every invariant of an assembly is proved along them.  Below that there is one
rule for each thing a turn does.  A pointer is followed once its token is located and
ready (`ends_follow`, `ends_answer`), it is replaced or reported (`ends_replacement`),
and a token in which all pointers are dealt with is stored (`ends_complete`).
-/

namespace DesignTokens.Assembly

def close (s : Assembly) (key : TokenKey) : Assembly :=
  { s with inProgress := s.inProgress.filter (· ≠ key), done := key :: s.done }

variable {s : Assembly} {file target ref path : String} {place : Place} {rest : List String}
  {t u : Token} {hops : Nat} {assemble : String → Place → AssemblyM Bool}
  {P : Assembly → Prop}

/-! ### The cases of a turn -/

/-- What is left to do for a token that is in progress. -/
def complete (hops : Nat) (file : String) (place : Place) (t : Token) : AssemblyM Bool := do
  let value ← expand (replacement (assembleToken hops) file t.path) t.value
  let assembled := t.assembled value
  modify fun s => s.close (file, t.path)
  modify fun s => s.modifyToken file place fun _ => assembled
  if assembled.pointers.isEmpty then return true
  else
    modify fun s => { s with failed := s.failed.putNew (file, t.path) .missing }
    return false

theorem run_assembleToken_done (ht : s.tokenAt? file place = some t)
    (hdone : (file, t.path) ∈ s.done) :
    (assembleToken hops file place).run.run s = (.ok !s.failed.has (file, t.path), s) := by
  rw [assembleToken, run_get_bind, ht]
  dsimp only
  rw [if_pos hdone]
  rfl

theorem run_assembleToken_running (ht : s.tokenAt? file place = some t)
    (hdone : (file, t.path) ∉ s.done) (hrunning : (file, t.path) ∈ s.inProgress) :
    (assembleToken hops file place).run.run s =
      (.ok false, { s with failed := s.failed.put (file, t.path) .circular }) := by
  rw [assembleToken, run_get_bind, ht]
  dsimp only
  rw [if_neg hdone, if_pos hrunning]
  rfl

theorem run_assembleToken_late (ht : s.tokenAt? file place = some t)
    (hdone : (file, t.path) ∉ s.done) (hrunning : (file, t.path) ∉ s.inProgress)
    (hlimit : isWritable s.maxDepth = true) :
    (assembleToken 0 file place).run.run s =
      (.ok false, Assembly.record { s with failed := s.failed.put (file, t.path) .depth } file
        t.path .depth (.tooDeep s.maxDepth) none) := by
  rw [assembleToken, run_get_bind, ht]
  dsimp only
  rw [if_neg hdone, if_neg hrunning, if_pos hlimit]
  rfl

theorem run_assembleToken_unwritable (ht : s.tokenAt? file place = some t)
    (hdone : (file, t.path) ∉ s.done) (hrunning : (file, t.path) ∉ s.inProgress)
    (hlimit : isWritable s.maxDepth = false) :
    (assembleToken 0 file place).run.run s = (.error (.unwritable s.maxDepth), s) := by
  rw [assembleToken, run_get_bind, ht]
  dsimp only
  rw [if_neg hdone, if_neg hrunning, if_neg (by simp [hlimit])]
  rfl

theorem run_assembleToken_fresh (ht : s.tokenAt? file place = some t)
    (hdone : (file, t.path) ∉ s.done) (hrunning : (file, t.path) ∉ s.inProgress) :
    (assembleToken (hops + 1) file place).run.run s =
      (complete hops file place t).run.run
        { s with inProgress := (file, t.path) :: s.inProgress } := by
  rw [assembleToken, run_get_bind, ht]
  dsimp only
  rw [if_neg hdone, if_neg hrunning]
  rfl

/-- What the turn of a token comes to, with some number of hops left. -/
inductive Visited (s : Assembly) (file : String) (place : Place) (t : Token) :
    Nat → Except NumeralFault Bool × Assembly → Prop
  | done {hops : Nat} : (file, t.path) ∈ s.done →
      Visited s file place t hops (.ok !s.failed.has (file, t.path), s)
  | running {hops : Nat} : (file, t.path) ∉ s.done → (file, t.path) ∈ s.inProgress →
      Visited s file place t hops
        (.ok false, { s with failed := s.failed.put (file, t.path) .circular })
  | late : (file, t.path) ∉ s.done → (file, t.path) ∉ s.inProgress →
      isWritable s.maxDepth = true → Visited s file place t 0
        (.ok false, Assembly.record { s with failed := s.failed.put (file, t.path) .depth } file
          t.path .depth (.tooDeep s.maxDepth) none)
  | unwritable : (file, t.path) ∉ s.done → (file, t.path) ∉ s.inProgress →
      isWritable s.maxDepth = false → Visited s file place t 0 (.error (.unwritable s.maxDepth), s)
  | fresh {hops : Nat} : (file, t.path) ∉ s.done → (file, t.path) ∉ s.inProgress →
      Visited s file place t (hops + 1)
        ((complete hops file place t).run.run
          { s with inProgress := (file, t.path) :: s.inProgress })

theorem visited (hops : Nat) (ht : s.tokenAt? file place = some t) :
    Visited s file place t hops ((assembleToken hops file place).run.run s) := by
  by_cases hdone : (file, t.path) ∈ s.done
  · rw [run_assembleToken_done ht hdone]
    exact .done hdone
  · by_cases hrunning : (file, t.path) ∈ s.inProgress
    · rw [run_assembleToken_running ht hdone hrunning]
      exact .running hdone hrunning
    · cases hops with
      | zero =>
        cases hlimit : isWritable s.maxDepth with
        | true =>
          rw [run_assembleToken_late ht hdone hrunning hlimit]
          exact .late hdone hrunning hlimit
        | false =>
          rw [run_assembleToken_unwritable ht hdone hrunning hlimit]
          exact .unwritable hdone hrunning hlimit
      | succ hops =>
        rw [run_assembleToken_fresh ht hdone hrunning]
        exact .fresh hdone hrunning

/-! ### Following a pointer -/

theorem run_answer_ready (hu : s.tokenAt? file place = some u)
    {result : Except Cause Value} (h : Pointer.descend ref u.value rest = .ok result) :
    (answer ref file place t rest true).run.run s =
      (.ok (result.mapError fun cause => (.missing, cause)), s) := by
  unfold answer
  rw [if_pos rfl, run_get_bind, hu, Option.map_some, Option.getD_some]
  dsimp only
  rw [h]
  cases result with
  | ok part => rfl
  | error cause => rfl

theorem exists_answer_left (s : Assembly) (ref file : String) (place : Place) (t : Token)
    (rest : List String) : ∃ cause, (answer ref file place t rest false).run.run s =
      (.ok (.error ((s.failed.get? (file, t.path)).getD .missing, cause)), s) :=
  ⟨_, rfl⟩

theorem ends_answer {R : Bool → Assembly → Prop}
    {Q : Except (ProblemKind × Cause) Value → Assembly → Prop}
    (hready : ∀ s, R true s → ∃ u result, s.tokenAt? file place = some u ∧
      Pointer.descend ref u.value rest = .ok result ∧
        Q (result.mapError fun cause => (.missing, cause)) s)
    (hleft : ∀ s cause, R false s →
      Q (.error ((s.failed.get? (file, t.path)).getD .missing, cause)) s) (ready : Bool) :
    Ends (R ready) (answer ref file place t rest ready) Q := by
  intro s hs
  cases ready with
  | true =>
    obtain ⟨u, result, hu, hresult, hQ⟩ := hready s hs
    exact ⟨_, s, run_answer_ready hu hresult, hQ⟩
  | false =>
    obtain ⟨cause, hrun⟩ := exists_answer_left s ref file place t rest
    exact ⟨_, s, hrun, hleft s cause hs⟩

/-- A pointer that leads nowhere is answered at once, and one that leads to a token once that is
known to be ready or has had its turn. -/
theorem ends_follow {Q : Except (ProblemKind × Cause) Value → Assembly → Prop}
    (herror : ∀ s fault, P s → s.locate file ref = .error fault → Q (.error fault) s)
    (hlocated : ∀ s target spot u rest, P s → s.locate file ref = .ok (target, spot, u, rest) →
      ∃ R : Bool → Assembly → Prop, (u.pointers = [] → R true s) ∧
        (u.pointers ≠ [] → Ends (· = s) (assemble target spot) R) ∧
          ∀ ready, Ends (R ready) (answer ref target spot u rest ready) Q) :
    Ends P (follow assemble file ref) Q := by
  intro s hs
  cases hlocate : s.locate file ref with
  | error fault => exact ⟨_, s, run_follow_error hlocate, herror s fault hs hlocate⟩
  | ok found =>
    obtain ⟨target, spot, u, rest⟩ := found
    obtain ⟨R, hready, hturn, hanswer⟩ := hlocated s target spot u rest hs hlocate
    rw [run_follow_ok hlocate]
    refine Ends.bind (P := (· = s)) ?_ hanswer s rfl
    split
    · rename_i hnone
      rintro _ rfl
      exact ⟨true, _, rfl, hready (List.isEmpty_iff.mp hnone)⟩
    · rename_i hsome
      exact hturn fun hnone => hsome (List.isEmpty_iff.mpr hnone)

/-- A pointer is replaced by what it is followed to, or it is reported. -/
theorem ends_replacement {F : Except (ProblemKind × Cause) Value → Assembly → Prop}
    {Q : Option Value → Assembly → Prop} (hfollow : Ends P (follow assemble file ref) F)
    (hfound : ∀ w s, F (.ok w) s → Q (some w) s)
    (hreport : ∀ kind cause s, F (.error (kind, cause)) s →
      Q none (s.record file path kind cause (some ref))) :
    Ends P (replacement assemble file path ref) Q := by
  unfold replacement
  refine hfollow.bind fun r => ?_
  cases r with
  | ok w => exact .pure (hfound w)
  | error fault =>
    obtain ⟨kind, cause⟩ := fault
    exact (Ends.modify (Q := fun _ => Q none) (hreport kind cause)).bind fun _ => .pure fun _ h => h

/-! ### Storing a token -/

/-- A token in which all pointers are dealt with is stored.  It is ready if none is left, and it has
failed otherwise. -/
theorem ends_complete {V : Value → Assembly → Prop} {Q : Bool → Assembly → Prop}
    (hexpand : Ends P (expand (replacement (assembleToken hops) file t.path) t.value) V)
    (hready : ∀ value s, V value s → (t.assembled value).pointers = [] →
      Q true ((s.close (file, t.path)).modifyToken file place fun _ => t.assembled value))
    (hleft : ∀ value s, V value s → (t.assembled value).pointers ≠ [] →
      ∀ r, r = (s.close (file, t.path)).modifyToken file place (fun _ => t.assembled value) →
        Q false { r with failed := r.failed.putNew (file, t.path) .missing }) :
    Ends P (complete hops file place t) Q := by
  unfold complete
  refine hexpand.bind fun value s hs => ?_
  dsimp only
  rw [run_modify_bind, run_modify_bind]
  split
  · rename_i hnone
    exact ⟨true, _, rfl, hready value s hs (List.isEmpty_iff.mp hnone)⟩
  · rename_i hsome
    refine ⟨false, _, rfl, hleft value s hs (fun hnone => hsome ?_) _ rfl⟩
    exact List.isEmpty_iff.mpr hnone

end DesignTokens.Assembly
