import DesignTokens.Project
import DesignTokens.Proofs.FilePath.Normal
import DesignTokens.Proofs.Merge.Overlay

/-!
# The files of a project under their keys

Whatever the spelling of its path, a file is added under the key of the path, and a key is its own
key.  So every file of a project stands under the key that is its path (`Project.Addressed`), it is
the last of those that were added with that key (`get?_ofFiles`), and it is found again under every
spelling of it (`file_of_spelling`).
-/

namespace DesignTokens

namespace TokenFile

def movedTo (f : TokenFile) (path : String) : TokenFile := { f with path }

theorem path_build (path : String) (document : Value) :
    (build path document).path = FilePath.fileKey path none := rfl

end TokenFile

namespace Project

variable {p : Project} {f g : TokenFile} {files : List TokenFile} {key name : String}

/-- The project of some files, added one after the other. -/
def ofFiles (files : List TokenFile) : Project := files.foldl addFile ⟨[], true⟩

/-- The last of some files whose path has a key. -/
def lastWith (files : List TokenFile) (key : String) : Option TokenFile :=
  (files.filter fun f => FilePath.fileKey f.path none = key).getLast?

/-- Every file stands, once, under a key that is its own key, and that is the path of the file. -/
structure Addressed (p : Project) : Prop where
  nodup : p.files.keys.Nodup
  key : ∀ e ∈ p.files, FilePath.fileKey e.1 none = e.1
  path : ∀ e ∈ p.files, e.2.path = e.1

/-! ### Adding files -/

theorem get?_addFile (p : Project) (f : TokenFile) (key : String) :
    (p.addFile f).files.get? key =
      if FilePath.fileKey f.path none = key then some (f.movedTo key) else p.files.get? key := by
  split
  · rename_i hkey
    subst hkey
    exact Table.get?_put_self _ _ _
  · rename_i hkey
    exact Table.get?_put_of_ne _ _ (Ne.symm hkey)

theorem Addressed.addFile (h : p.Addressed) (f : TokenFile) : (p.addFile f).Addressed := by
  have hnodup : (p.addFile f).files.keys.Nodup := Table.nodup_keys_put h.nodup
  have hcases : ∀ e ∈ (p.addFile f).files,
      (e.1 = FilePath.fileKey f.path none ∧ e.2.path = e.1) ∨ e ∈ p.files := by
    intro e he
    have hget := Table.get?_of_mem hnodup he
    rw [get?_addFile] at hget
    split at hget
    · rename_i hkey
      exact Or.inl ⟨hkey.symm, congrArg TokenFile.path (Option.some.inj hget).symm⟩
    · exact Or.inr (Table.mem_of_get? hget)
  refine ⟨hnodup, fun e he => ?_, fun e he => ?_⟩
  · rcases hcases e he with ⟨hkey, -⟩ | hold
    · rw [hkey]
      exact FilePath.fileKey_fileKey f.path none
    · exact h.key e hold
  · rcases hcases e he with ⟨-, hpath⟩ | hold
    · exact hpath
    · exact h.path e hold

theorem Addressed.addFiles (h : p.Addressed) (files : List TokenFile) :
    (files.foldl Project.addFile p).Addressed := by
  induction files generalizing p with
  | nil => exact h
  | cons f files ih => exact ih (h.addFile f)

theorem addressed_ofFiles (files : List TokenFile) : (ofFiles files).Addressed :=
  have hnone : Addressed ⟨[], true⟩ :=
    ⟨List.nodup_nil, fun _ h => absurd h List.not_mem_nil, fun _ h => absurd h List.not_mem_nil⟩
  hnone.addFiles files

/-- Under a key stands the last file that was added with it. -/
theorem get?_ofFiles (files : List TokenFile) (key : String) :
    (ofFiles files).files.get? key = (lastWith files key).map fun f => f.movedTo key := by
  induction files using List.reverseRecOn with
  | nil => rfl
  | append_singleton files f ih =>
    have hadded : ofFiles (files ++ [f]) = (ofFiles files).addFile f := List.foldl_concat ..
    rw [hadded, get?_addFile, ih]
    unfold lastWith
    rw [List.filter_append]
    by_cases hkey : FilePath.fileKey f.path none = key
    · rw [if_pos hkey, List.filter_cons_of_pos (by simpa using hkey), List.filter_nil,
        List.getLast?_concat]
      rfl
    · rw [if_neg hkey, List.filter_cons_of_neg (by simpa using hkey), List.filter_nil,
        List.append_nil]

theorem addFile_build (p : Project) (path : String) (document : Value) :
    p.addFile (TokenFile.build path document) = p.add (TokenFile.build path document) := by
  have hkey : FilePath.fileKey (TokenFile.build path document).path none =
      (TokenFile.build path document).path := by
    rw [TokenFile.path_build, FilePath.fileKey_fileKey]
  generalize TokenFile.build path document = f at hkey ⊢
  show p.add (f.movedTo (FilePath.fileKey f.path none)) = p.add f
  rw [hkey]
  rfl

theorem build_eq_ofFiles (documents : Table String Value) :
    build documents = ofFiles (documents.map fun d => TokenFile.build d.1 d.2) := by
  unfold build ofFiles
  rw [List.foldl_map]
  exact congrArg (fun add => documents.foldl add _)
    (funext fun p => funext fun d => (addFile_build p d.1 d.2).symm)

/-! ### Finding files -/

theorem file?_of_root (h : p.files.get? (FilePath.fileKey name none) = some g)
    (base : Option String) : p.file? name base = some g := by
  unfold file?
  rw [h]

theorem file?_of_base {base : String} (hroot : p.files.get? (FilePath.fileKey name none) = none)
    (h : p.files.get? (FilePath.fileKey name (some base)) = some g) :
    p.file? name (some base) = some g := by
  unfold file?
  rw [hroot]
  exact h

/-- **Files are found under every spelling of their paths**.  The key of a key is the key.  After
any files were added, every file stands under such a key, which is its path, and it is the last one
that was added with it.  It is found under each name that has this key, and under each name that
has it from the directory of a referring file if the name itself leads to no file. -/
theorem file_of_spelling :
    (∀ path base, FilePath.fileKey (FilePath.fileKey path base) none =
      FilePath.fileKey path base) ∧
    (∀ documents, build documents = ofFiles (documents.map fun d => TokenFile.build d.1 d.2)) ∧
    ∀ files,
      (∀ e ∈ (ofFiles files).files, FilePath.fileKey e.1 none = e.1 ∧ e.2.path = e.1) ∧
      (∀ key, (ofFiles files).files.get? key =
        (lastWith files key).map fun f => f.movedTo key) ∧
      ∀ key g, (key, g) ∈ (ofFiles files).files →
        (∀ name base, FilePath.fileKey name none = key →
          (ofFiles files).file? name base = some g) ∧
        ∀ name base, FilePath.fileKey name (some base) = key →
          (ofFiles files).files.get? (FilePath.fileKey name none) = none →
            (ofFiles files).file? name (some base) = some g := by
  refine ⟨FilePath.fileKey_fileKey, build_eq_ofFiles, fun files => ?_⟩
  have haddressed := addressed_ofFiles files
  refine ⟨fun e he => ⟨haddressed.key e he, haddressed.path e he⟩, get?_ofFiles files,
    fun key g hmem => ?_⟩
  have hget := Table.get?_of_mem haddressed.nodup hmem
  refine ⟨fun name base hkey => ?_, fun name base hkey hroot => ?_⟩
  · subst hkey
    exact file?_of_root hget base
  · subst hkey
    exact file?_of_base hroot hget

/-- Two files whose paths are two spellings of one path, and a third one. -/
def respelled : List TokenFile :=
  [⟨"./a//x.json", Group.build (.object []), []⟩, ⟨"/../b.json", Group.build .null, []⟩,
    ⟨"c/..\\a/x.json", Group.build (.object [("t", .object [(valueKey, .int 1)])]), []⟩]

theorem file_of_spelling_respelled :
    ∃ g, ("a/x.json", g) ∈ (ofFiles respelled).files ∧ g.path = "a/x.json" ∧
      FilePath.fileKey "a\\b/..//x.json" none = "a/x.json" ∧
      (ofFiles respelled).file? "a\\b/..//x.json" none = some g ∧
      FilePath.fileKey "./x.json" (some "a/y.json") = "a/x.json" ∧
      (ofFiles respelled).files.get? (FilePath.fileKey "./x.json" none) = none ∧
      (ofFiles respelled).file? "./x.json" (some "a/y.json") = some g := by
  have hhere : ((ofFiles respelled).files.get? "a/x.json").isSome = true := by decide +kernel
  have hnone : (ofFiles respelled).files.get? (FilePath.fileKey "./x.json" none) = none :=
    Option.isNone_iff_eq_none.mp (by decide +kernel)
  have hkey : FilePath.fileKey "a\\b/..//x.json" none = "a/x.json" := by decide +kernel
  have hbase : FilePath.fileKey "./x.json" (some "a/y.json") = "a/x.json" := by decide +kernel
  obtain ⟨g, hget⟩ := Option.isSome_iff_exists.mp hhere
  have hmem := Table.mem_of_get? hget
  obtain ⟨hentries, -, hfound⟩ := file_of_spelling.2.2 respelled
  obtain ⟨hroot, hfrom⟩ := hfound _ g hmem
  exact ⟨g, hmem, (hentries _ hmem).2, hkey, hroot _ none hkey, hbase, hnone,
    hfrom _ _ hbase hnone⟩

end Project

end DesignTokens
