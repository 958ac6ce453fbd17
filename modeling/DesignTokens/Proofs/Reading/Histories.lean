import DesignTokens.Reading.Directory

/-!
# Reading with and without kept documents

A document that a directory keeps is what loading gives at every spelling of its path
(`TokenDirectory.Faithful`), since the file that is read depends on the key alone and the spelling
shows up in failures only.  Reading and forgetting keep this (`run_read`, `faithful_forgetful`), so
over a whole history every request is answered as if the file was read at that moment
(`answers_eq_fresh`).
-/

namespace DesignTokens.TokenDirectory

variable {yaml : TextReader} {fs : FileSystem} {d : TokenDirectory} {file : FilePath}
  {path other : String} {v : Value}

/-- What is asked of a directory. -/
inductive Request where
  | read (path : String)
  | forget
  deriving DecidableEq, Repr

/-- The answers to some requests, one for each document that is asked for. -/
def answers (yaml : TextReader) (fs : FileSystem) :
    List Request → TokenDirectory → List (Except Failure Value)
  | [], _ => []
  | .read path :: requests, d =>
    let (answer, after) := (read yaml fs path).run.run d
    answer :: answers yaml fs requests after
  | .forget :: requests, d => answers yaml fs requests d.forgetful

/-- What is in the file at a path now. -/
def fresh (yaml : TextReader) (fs : FileSystem) (d : TokenDirectory) (path : String) :
    Except Failure Value :=
  load yaml fs (d.pathOf path) path

/-- The paths of the documents that some requests ask for. -/
def pathsOf (requests : List Request) : List String :=
  requests.filterMap fun request =>
    match request with
    | .read path => some path
    | .forget => none

/-- Every document that is kept is what loading gives, at each spelling of its path. -/
def Faithful (yaml : TextReader) (fs : FileSystem) (d : TokenDirectory) : Prop :=
  ∀ path v, d.kept.get? (FilePath.fileKey path none) = some v → fresh yaml fs d path = .ok v

/-! ### One request -/

/-- Which document is loaded: the object that the text of the file writes in the form of its name.
The spelling of the path does not matter; it shows up in failures only. -/
theorem load_eq_ok_iff : load yaml fs file path = .ok v ↔
    ∃ form, FileForm.ofSuffix? (Text.lower file.suffix) = some form ∧
      ∃ text, fs.readText file = .ok text ∧ form.read? yaml text = some v ∧ v.isObject = true := by
  unfold load
  dsimp only
  cases FileForm.ofSuffix? (Text.lower file.suffix) with
  | none => simp
  | some form =>
    cases fs.readText file with
    | error fault => cases fault <;> simp
    | ok text =>
      cases hread : form.read? yaml text with
      | none => simp [hread]
      | some w =>
        by_cases hobject : w.isObject = true
        · simp only [Option.some.injEq, exists_eq_left', Except.ok.injEq, hread]
          rw [if_pos hobject, Except.ok.injEq]
          exact ⟨fun he => ⟨he, he ▸ hobject⟩, And.left⟩
        · simp only [Option.some.injEq, exists_eq_left', Except.ok.injEq, hread]
          rw [if_neg hobject]
          exact ⟨nofun, fun h => absurd (h.1 ▸ h.2) hobject⟩

theorem fresh_congr (h : fresh yaml fs d path = .ok v)
    (hkey : FilePath.fileKey other none = FilePath.fileKey path none) :
    fresh yaml fs d other = .ok v := by
  have hfile : d.pathOf other = d.pathOf path := by
    unfold pathOf
    rw [hkey]
  unfold fresh at h ⊢
  rw [hfile]
  exact load_eq_ok_iff.mpr (load_eq_ok_iff.mp h)

theorem faithful_forgetful (yaml : TextReader) (fs : FileSystem) (d : TokenDirectory) :
    d.forgetful.Faithful yaml fs :=
  nofun

theorem Faithful.put (hd : d.Faithful yaml fs) (h : fresh yaml fs d path = .ok v) :
    Faithful yaml fs { d with kept := d.kept.put (FilePath.fileKey path none) v } := by
  intro other w hw
  show fresh yaml fs d other = .ok w
  by_cases hkey : FilePath.fileKey other none = FilePath.fileKey path none
  · rw [hkey, Table.get?_put_self] at hw
    exact Option.some.inj hw ▸ fresh_congr h hkey
  · rw [Table.get?_put_of_ne _ _ hkey] at hw
    exact hd other w hw

theorem run_get_bind {α : Type}
    (next : TokenDirectory → ExceptT Failure (StateM TokenDirectory) α) (d : TokenDirectory) :
    (get >>= next).run.run d = (next d).run.run d := rfl

/-- What reading does: a document that is kept is given, any other is loaded and kept if documents
are, and a failure leaves everything as it is. -/
theorem run_read_eq (yaml : TextReader) (fs : FileSystem) (d : TokenDirectory) (path : String) :
    (read yaml fs path).run.run d =
      match d.kept.get? (FilePath.fileKey path none), fresh yaml fs d path with
      | some v, _ => (.ok v, d)
      | none, .error failure => (.error failure, d)
      | none, .ok v =>
        (.ok v, if d.caching then
          { d with kept := d.kept.put (FilePath.fileKey path none) v } else d) := by
  unfold read fresh
  rw [run_get_bind]
  dsimp only
  cases d.kept.get? (FilePath.fileKey path none) with
  | some v => rfl
  | none =>
    cases load yaml fs (d.pathOf path) path with
    | error failure => rfl
    | ok v =>
      cases d.caching with
      | true => rfl
      | false => rfl

/-- The answer to a request is what is in the file now, whether it was kept or not. -/
theorem run_read (hd : d.Faithful yaml fs) (path : String) :
    ∃ after, (read yaml fs path).run.run d = (fresh yaml fs d path, after) ∧
      after.Faithful yaml fs ∧
      after.base = d.base := by
  rw [run_read_eq]
  cases hkept : d.kept.get? (FilePath.fileKey path none) with
  | some v => exact ⟨d, by rw [hd path v hkept], hd, rfl⟩
  | none =>
    cases hfresh : fresh yaml fs d path with
    | error failure => exact ⟨d, rfl, hd, rfl⟩
    | ok v =>
      refine ⟨_, rfl, ?_, ?_⟩
      · split
        · exact hd.put hfresh
        · exact hd
      · split
        · rfl
        · rfl

/-! ### Histories -/

/-- Every request of a history is answered as if the file was read at that moment. -/
theorem answers_eq_fresh (hd : d.Faithful yaml fs) (requests : List Request) :
    answers yaml fs requests d = (pathsOf requests).map (fresh yaml fs d) := by
  induction requests generalizing d with
  | nil => rfl
  | cons request requests ih =>
    have hbase : ∀ {after : TokenDirectory}, after.base = d.base →
        fresh yaml fs after = fresh yaml fs d := fun h => by
      unfold fresh pathOf
      rw [h]
    cases request with
    | read path =>
      obtain ⟨after, hrun, hafter, he⟩ := run_read hd path
      rw [answers, hrun]
      dsimp only
      rw [ih hafter, hbase he]
      rfl
    | forget =>
      rw [answers, ih (faithful_forgetful yaml fs d), hbase rfl]
      rfl

/-- **Keeping documents changes no answer**: over every history of requests a directory that keeps
what it has read answers as one that does not, with what is in the files, however YAML is read. -/
theorem answers_caching (yaml : TextReader) (fs : FileSystem) (base : FilePath)
    (requests : List Request) :
    answers yaml fs requests (ofPath base true) = answers yaml fs requests (ofPath base false) ∧
      answers yaml fs requests (ofPath base true) =
        (pathsOf requests).map (fresh yaml fs (ofPath base true)) := by
  have hkeeping : (ofPath base true).Faithful yaml fs := nofun
  have hplain : (ofPath base false).Faithful yaml fs := nofun
  rw [answers_eq_fresh hkeeping, answers_eq_fresh hplain]
  exact ⟨rfl, rfl⟩

end DesignTokens.TokenDirectory
