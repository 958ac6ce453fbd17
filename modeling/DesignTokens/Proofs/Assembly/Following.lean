import DesignTokens.Proofs.Assembly.Expansion

/-!
# Following a pointer in two steps

A pointer is located first, and this reads the state and nothing else
(`Assembly.locate`).  If it leads to a token, the token is assembled, and then the
answer is read from the value that it has (`Assembly.answer`).
-/

namespace DesignTokens.Assembly

/-- The file, the place and the token to which a pointer of a file leads, and the segments
that follow the value. -/
def locate (s : Assembly) (file ref : String) :
    Except (ProblemKind × Cause) (String × Place × Token × List String) :=
  match Pointer.parse ref with
  | .error fault => .error (.invalid, .pointer fault)
  | .ok p =>
    match s.fileOf p file with
    | .error cause => .error (.missing, cause)
    | .ok targetFile =>
      match (s.project.tree? targetFile).map p.target with
      | none => .error (.missing, .noToken ref)
      | some (.error cause) => .error (.missing, cause)
      | some (.ok found) => .ok (targetFile, found)

/-- What a pointer to a token stands for, once it is known whether the token is ready. -/
def answer (ref file : String) (place : Place) (target : Token) (rest : List String)
    (ready : Bool) : AssemblyM (Except (ProblemKind × Cause) Value) := do
  if ready then
    let value := (((← get).tokenAt? file place).map Token.value).getD target.value
    match ← follow.liftExcept (Pointer.descend ref value rest) with
    | .ok part => return .ok part
    | .error cause => return .error (.missing, cause)
  else
    let kind := ((← get).failed.get? (file, target.path)).getD .missing
    let cause :=
      if kind = .circular then .circularPointer target.path else .unresolvedTarget target.path
    return .error (kind, cause)

variable {assemble : String → Place → AssemblyM Bool} {s : Assembly} {file ref targetFile : String}
  {place : Place} {target : Token} {rest : List String}

theorem fileOf_eq_ok_iff {q : Pointer} :
    s.fileOf q file = .ok targetFile ↔ s.project.fileOf? q file = some targetFile := by
  unfold fileOf Project.fileOf?
  cases q.file with
  | none => exact ⟨fun h => congrArg some (Except.ok.inj h), fun h =>
      congrArg Except.ok (Option.some.inj h)⟩
  | some name =>
    dsimp only
    split
    · cases s.project.file? name (fileName? file) with
      | none => exact ⟨nofun, nofun⟩
      | some found => exact ⟨fun h => congrArg some (Except.ok.inj h), fun h =>
          congrArg Except.ok (Option.some.inj h)⟩
    · exact ⟨nofun, nofun⟩

/-- A pointer is located where it aims: at a token of the state in the file that it names. -/
theorem locate_eq_ok_iff :
    s.locate file ref = .ok (targetFile, place, target, rest) ↔
      ∃ q, Pointer.parse ref = .ok q ∧ s.project.fileOf? q file = some targetFile ∧
        ((q.segments = place ∧ rest = []) ∨ q.segments = place ++ valueKey :: rest) ∧
        s.tokenAt? targetFile place = some target := by
  unfold locate
  constructor
  · intro h
    cases hq : Pointer.parse ref with
    | error fault =>
      rw [hq] at h
      cases h
    | ok q =>
      rw [hq] at h
      dsimp only at h
      cases htarget : s.fileOf q file with
      | error cause =>
        rw [htarget] at h
        cases h
      | ok other =>
        rw [htarget] at h
        dsimp only at h
        split at h
        · cases h
        · cases h
        · rename_i found hfound
          cases h
          obtain ⟨tree, htree, hwalk⟩ := Option.map_eq_some_iff.mp hfound
          obtain ⟨below, rfl, hat, hsegments⟩ := Pointer.walk_eq_ok_iff.mp hwalk
          refine ⟨q, rfl, fileOf_eq_ok_iff.mp htarget, hsegments, ?_⟩
          exact Option.bind_eq_some_iff.mpr ⟨tree, htree, hat⟩
  · rintro ⟨q, hq, htarget, hsegments, hfound⟩
    obtain ⟨tree, htree, hat⟩ := Option.bind_eq_some_iff.mp hfound
    have hwalk : q.target tree = .ok (place, target, rest) :=
      Pointer.walk_eq_ok_iff.mpr ⟨place, rfl, hat, hsegments⟩
    rw [hq]
    dsimp only
    rw [fileOf_eq_ok_iff.mpr htarget]
    dsimp only
    rw [htree, Option.map_some, hwalk]

theorem run_get_bind {α : Type} (f : Assembly → AssemblyM α) (s : Assembly) :
    (get >>= f).run.run s = (f s).run.run s := rfl

theorem run_modify_bind {α : Type} (f : Assembly → Assembly) (next : PUnit → AssemblyM α)
    (s : Assembly) : (modify f >>= next).run.run s = (next ⟨⟩).run.run (f s) := rfl

theorem run_assembleFile_some {tree : Group} (h : s.project.tree? file = some tree) :
    (assembleFile file).run.run s =
      (assemblePlaces file (tree.placedTokens.map Prod.fst)).run.run s := by
  unfold assembleFile
  rw [run_get_bind, h]

theorem run_assembleFile_none (h : s.project.tree? file = none) :
    (assembleFile file).run.run s = (.ok (), s) := by
  unfold assembleFile
  rw [run_get_bind, h]
  rfl

/-- A pointer that leads nowhere leaves the state as it is. -/
theorem run_follow_error {fault : ProblemKind × Cause} (h : s.locate file ref = .error fault) :
    (follow assemble file ref).run.run s = (.ok (.error fault), s) := by
  unfold locate at h
  unfold follow
  cases hp : Pointer.parse ref with
  | error fault =>
    rw [hp] at h
    cases h
    rfl
  | ok p =>
    rw [hp] at h
    dsimp only at h ⊢
    rw [run_get_bind]
    cases hf : s.fileOf p file with
    | error cause =>
      rw [hf] at h
      cases h
      rfl
    | ok target =>
      rw [hf] at h
      dsimp only at h ⊢
      rw [run_get_bind]
      split at h
      · rename_i hfound
        cases h
        rw [hfound]
        rfl
      · rename_i hfound
        cases h
        rw [hfound]
        rfl
      · cases h

/-- A pointer that leads to a token is answered once the token is assembled. -/
theorem run_follow_ok (h : s.locate file ref = .ok (targetFile, place, target, rest)) :
    (follow assemble file ref).run.run s =
      ((if target.pointers.isEmpty then pure true else assemble targetFile place) >>=
        answer ref targetFile place target rest).run.run s := by
  unfold locate at h
  unfold follow
  cases hp : Pointer.parse ref with
  | error fault =>
    rw [hp] at h
    cases h
  | ok p =>
    rw [hp] at h
    dsimp only at h ⊢
    rw [run_get_bind]
    cases hf : s.fileOf p file with
    | error cause =>
      rw [hf] at h
      cases h
    | ok target =>
      rw [hf] at h
      dsimp only at h ⊢
      rw [run_get_bind]
      split at h
      · cases h
      · cases h
      · rename_i hfound
        cases h
        rw [hfound]
        dsimp only
        split
        · rfl
        · rfl

end DesignTokens.Assembly
