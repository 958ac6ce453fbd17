import DesignTokens.Proofs.Assembly.Turn

/-!
# The invariant of an assembly

`Assembly.Steady` is what holds between any two steps: a token that is not done is as it
was, one that is done has its parts included and its failing pointers reported, and what
failed is not good.

There is one lemma for each kind of step: a token is begun (`Steady.begin`), found to be
on a cycle (`Steady.fail`), reported (`Steady.record`) and finished (`Steady.finish`).
-/

namespace DesignTokens

/-- The references that problems of a token report, in their order. -/
def reportedOn (problems : List Problem) (file path : String) : List (Option String) :=
  (problems.filter fun e => e.file = fileName? file ∧ e.path = path).map Problem.reference

theorem fileName?_inj {a b : String} (h : fileName? a = fileName? b) : a = b := by
  unfold fileName? at h
  split at h
  · split at h
    · rename_i ha hb
      exact ha.trans hb.symm
    · cases h
  · split at h
    · cases h
    · exact Option.some.inj h

theorem reportedOn_append (problems others : List Problem) (file path : String) :
    reportedOn (problems ++ others) file path =
      reportedOn problems file path ++ reportedOn others file path := by
  unfold reportedOn
  rw [List.filter_append, List.map_append]

theorem reportedOn_same (kind : ProblemKind) (cause : Cause) (ref : Option String)
    (file path : String) :
    reportedOn [⟨kind, path, cause, ref, fileName? file⟩] file path = [ref] := by
  simp [reportedOn]

theorem reportedOn_other {kind : ProblemKind} {cause : Cause} {ref : Option String}
    {file path file' path' : String} (h : (file', path') ≠ (file, path)) :
    reportedOn [⟨kind, path', cause, ref, fileName? file'⟩] file path = [] := by
  have hne : ¬(fileName? file' = fileName? file ∧ path' = path) := fun he =>
    h (Prod.ext (fileName?_inj he.1) he.2)
  simp [reportedOn, hne]

namespace Project

/-- What is asked of a project: its trees are ready, and no part of a pointer consists of
digits that write no number. -/
structure Sound (p : Project) : Prop where
  prepared : ∀ file tree, p.tree? file = some tree → tree.Prepared
  readable : ∀ file place t, p.tokenAt? file place = some t → ∀ ref ∈ t.value.outerPointers,
    ∀ q, Pointer.parse ref = .ok q → ∀ segment ∈ q.segments, Pointer.index segment ≠ .unreadable

variable {p : Project} {file ref : String} {place other : Place} {t u : Token} {w : Value}

theorem Sound.tracked (h : p.Sound) (ht : p.tokenAt? file place = some t) : t.Tracked := by
  obtain ⟨tree, htree, hat⟩ := Option.bind_eq_some_iff.mp ht
  exact (h.prepared file tree htree).tracked place t hat

theorem Sound.refsAreTexts (h : p.Sound) (file : String) (place : Place) (t : Token)
    (ht : p.tokenAt? file place = some t) : t.value.RefsAreTexts := (h.tracked ht).refsAreTexts

theorem Sound.place_eq (h : p.Sound) (ht : p.tokenAt? file place = some t)
    (hu : p.tokenAt? file other = some u) (hpath : t.path = u.path) : place = other := by
  obtain ⟨tree, htree, hat⟩ := Option.bind_eq_some_iff.mp ht
  obtain ⟨tree', htree', hat'⟩ := Option.bind_eq_some_iff.mp hu
  obtain rfl := Option.some.inj (htree.symm.trans htree')
  exact (h.prepared file tree htree).distinct place other t u hat hat' hpath

theorem Sound.key_ne {file' : String} (h : p.Sound) (ht : p.tokenAt? file place = some t)
    (hu : p.tokenAt? file' other = some u) (hne : ¬ (file' = file ∧ other = place)) :
    (file', u.path) ≠ (file, t.path) := by
  intro hkey
  obtain ⟨rfl, hpath⟩ := Prod.mk.inj hkey
  exact hne ⟨rfl, h.place_eq hu ht hpath⟩

open Classical in
/-- What a pointer of a file stands for, if it stands for anything. -/
noncomputable def part (p : Project) (file ref : String) : Option Value :=
  if h : ∃ w, p.Stands file ref w then some h.choose else none

theorem part_eq_some_iff : p.part file ref = some w ↔ p.Stands file ref w := by
  unfold part
  split
  · rename_i h
    constructor
    · intro he
      exact Option.some.inj he ▸ h.choose_spec
    · intro hw
      exact congrArg some (h.choose_spec.unique hw)
  · rename_i h
    constructor
    · intro he
      cases he
    · intro hw
      exact absurd ⟨w, hw⟩ h

theorem part_eq_none (h : ∀ w, ¬ p.Stands file ref w) : p.part file ref = none :=
  Option.eq_none_iff_forall_ne_some.mpr fun w hw => h w (part_eq_some_iff.mp hw)

/-- A token is good if none of its outermost pointers fails, and then its parts make its
value. -/
theorem expands_iff (ht : p.tokenAt? file place = some t) :
    p.Expands file place w ↔
      Assembly.failing (p.part file) t.value.outerPointers = [] ∧
        w = t.value.including (p.part file) := by
  unfold Assembly.failing
  rw [List.filter_eq_nil_iff]
  constructor
  · intro h
    obtain ⟨part, rfl, hstands⟩ := h.stands ht
    have hpart : ∀ ref ∈ t.value.outerPointers, p.part file ref = some (part ref) :=
      fun ref href => part_eq_some_iff.mpr (hstands ref href)
    refine ⟨fun ref href => ?_, Value.including_congr fun ref href => (hpart ref href).symm⟩
    rw [hpart ref href]
    exact Bool.false_ne_true
  · rintro ⟨hnone, rfl⟩
    have hsome : ∀ ref ∈ t.value.outerPointers, ∃ w, p.part file ref = some w := fun ref href =>
      Option.ne_none_iff_exists'.mp fun he => hnone ref href (Option.isNone_iff_eq_none.mpr he)
    choose! part hpart using hsome
    rw [Value.including_congr hpart]
    exact expands_of_stands ht fun ref href => part_eq_some_iff.mp (hpart ref href)

theorem Sound.expands_self (h : p.Sound) (ht : p.tokenAt? file place = some t)
    (hpointers : t.pointers = []) : p.Expands file place t.value := by
  rw [(h.tracked ht).pointers] at hpointers
  have houter := Value.outerPointers_eq_nil (h.refsAreTexts file place t ht) hpointers
  refine (expands_iff ht).mpr ⟨?_, (Value.including_eq_self houter).symm⟩
  rw [houter]
  rfl

theorem good_iff (ht : p.tokenAt? file place = some t) :
    p.Good file place ↔ Assembly.failing (p.part file) t.value.outerPointers = [] := by
  unfold Good
  simp only [expands_iff ht, exists_and_left, exists_eq, and_true]

/-- No pointer is found in a value with all its parts, and some is found if one fails. -/
theorem Sound.pointers_eq_nil_iff (h : p.Sound) (ht : p.tokenAt? file place = some t) :
    (Scan.of (t.value.including (p.part file))).pointers = [] ↔ p.Good file place := by
  have htexts := h.refsAreTexts file place t ht
  rw [good_iff ht]
  unfold Assembly.failing
  rw [List.filter_eq_nil_iff]
  constructor
  · intro hnone ref href hfails
    have hm := Value.mem_pointers_iff.mpr
      (Value.mem_occurrences_including htexts href (Option.isNone_iff_eq_none.mp hfails))
    rw [hnone] at hm
    exact List.not_mem_nil hm
  · intro hsome
    refine Value.NoRefs.scan_pointers (Value.noRefs_including htexts fun ref href => ?_)
    obtain ⟨w, hw⟩ := Option.ne_none_iff_exists'.mp fun he =>
      hsome ref href (Option.isNone_iff_eq_none.mpr he)
    exact ⟨w, hw, (part_eq_some_iff.mp hw).noRefs h.refsAreTexts⟩

/-- Which file a pointer names depends on the keys and the paths of the files alone. -/
theorem fileOf?_congr {q : Project} (hlinked : p.linked = q.linked)
    (hpaths : ∀ key, (p.files.get? key).map TokenFile.path = (q.files.get? key).map TokenFile.path)
    (x : Pointer) (file : String) : p.fileOf? x file = q.fileOf? x file := by
  have hfile : ∀ name relativeTo,
      (p.file? name relativeTo).map TokenFile.path =
        (q.file? name relativeTo).map TokenFile.path := by
    intro name relativeTo
    have hname := hpaths (FilePath.fileKey name none)
    unfold file?
    cases hp : p.files.get? (FilePath.fileKey name none) with
    | some found =>
      rw [hp] at hname
      obtain ⟨other, hother, he⟩ := Option.map_eq_some_iff.mp hname.symm
      rw [hother]
      exact congrArg some he.symm
    | none =>
      rw [hp] at hname
      rw [Option.map_eq_none_iff.mp hname.symm]
      cases relativeTo with
      | none => rfl
      | some base => exact hpaths _
  unfold fileOf?
  rw [hlinked]
  cases x.file with
  | none => rfl
  | some name =>
    dsimp only
    rw [hfile]

theorem fileOf?_setTree (p : Project) (key : String) (tree : Group) (x : Pointer) (file : String) :
    (p.setTree key tree).fileOf? x file = p.fileOf? x file := by
  have hlinked : (p.setTree key tree).linked = p.linked := rfl
  refine fileOf?_congr hlinked (fun name => ?_) x file
  unfold setTree
  rw [Table.get?_modify]
  split
  · rw [Option.map_map]
    rfl
  · rfl

end Project

namespace Assembly

variable {base : Project} {limit : Int} {s : Assembly} {file other ref : String}
  {place place' : Place} {t u : Token}

/-! ### Storing a token -/

theorem tokenAt?_modifyToken (f : Token → Token) :
    (s.modifyToken file place f).tokenAt? other place' =
      if other = file ∧ place' = place then (s.tokenAt? other place').map f
      else s.tokenAt? other place' := by
  unfold modifyToken tokenAt?
  cases htree : s.project.tree? file with
  | none =>
    dsimp only
    split
    · rename_i he
      rw [he.1, htree]
      rfl
    · rfl
  | some tree =>
    dsimp only
    rw [Project.tree?_setTree]
    by_cases hfile : other = file
    · rw [if_pos hfile, hfile, htree]
      simp only [Option.map_some, Option.bind_some, Group.tokenAt?_modifyToken, true_and]
    · rw [if_neg hfile, if_neg (not_and.mpr fun he => absurd he hfile)]

@[simp]
theorem maxDepth_modifyToken (f : Token → Token) :
    (s.modifyToken file place f).maxDepth = s.maxDepth := by
  unfold modifyToken
  split <;> rfl

@[simp]
theorem inProgress_modifyToken (f : Token → Token) :
    (s.modifyToken file place f).inProgress = s.inProgress := by
  unfold modifyToken
  split <;> rfl

@[simp]
theorem failed_modifyToken (f : Token → Token) :
    (s.modifyToken file place f).failed = s.failed := by
  unfold modifyToken
  split <;> rfl

@[simp]
theorem done_modifyToken (f : Token → Token) : (s.modifyToken file place f).done = s.done := by
  unfold modifyToken
  split <;> rfl

@[simp]
theorem problems_modifyToken (f : Token → Token) :
    (s.modifyToken file place f).problems = s.problems := by
  unfold modifyToken
  split <;> rfl

theorem fileOf?_modifyToken (f : Token → Token) (q : Pointer) (other : String) :
    (s.modifyToken file place f).project.fileOf? q other = s.project.fileOf? q other := by
  unfold modifyToken
  split
  · rfl
  · exact Project.fileOf?_setTree _ _ _ _ _

theorem keysDistinct_modifyToken (h : ∀ file tree, s.project.tree? file = some tree →
    tree.KeysDistinct) (f : Token → Token) (other : String) (tree : Group)
    (htree : (s.modifyToken file place f).project.tree? other = some tree) : tree.KeysDistinct := by
  unfold modifyToken at htree
  split at htree
  · exact h other tree htree
  · rename_i found hfound
    rw [Project.tree?_setTree] at htree
    split at htree
    · obtain ⟨-, -, rfl⟩ := Option.map_eq_some_iff.mp htree
      exact (h file found hfound).modifyToken place f
    · exact h other tree htree

theorem inProgress_close {key : TokenKey} {stack : List TokenKey}
    (h : s.inProgress = key :: stack) (hstack : key ∉ stack) :
    (s.close key).inProgress = stack := by
  show s.inProgress.filter _ = stack
  rw [h, List.filter_cons_of_neg (by simp), List.filter_eq_self]
  exact fun other hother => decide_eq_true fun he => hstack (he ▸ hother)

theorem tokenAt?_stored {key : TokenKey} (hu : s.tokenAt? file place = some u) (v : Token) :
    ((s.close key).modifyToken file place fun _ => v).tokenAt? file place = some v := by
  rw [tokenAt?_modifyToken, if_pos ⟨rfl, rfl⟩]
  show (s.tokenAt? file place).map _ = _
  rw [hu]
  rfl

/-! ### The invariant -/

/-- What a token of the project has become when some tokens are done. -/
noncomputable def current (base : Project) (done : List TokenKey) (file : String) (t : Token) :
    Token :=
  if done.contains (file, t.path) then t.assembled (t.value.including (base.part file)) else t

theorem current_of_mem {done : List TokenKey} (h : (file, t.path) ∈ done) :
    current base done file t = t.assembled (t.value.including (base.part file)) :=
  if_pos (List.contains_iff_mem.mpr h)

theorem current_of_not_mem {done : List TokenKey} (h : (file, t.path) ∉ done) :
    current base done file t = t :=
  if_neg fun hcontains => h (List.contains_iff_mem.mp hcontains)

theorem current_congr {done others : List TokenKey}
    (h : (file, t.path) ∈ done ↔ (file, t.path) ∈ others) :
    current base done file t = current base others file t := by
  by_cases hdone : (file, t.path) ∈ done
  · rw [current_of_mem hdone, current_of_mem (h.mp hdone)]
  · rw [current_of_not_mem hdone, current_of_not_mem fun hother => hdone (h.mpr hother)]

theorem path_current (base : Project) (done : List TokenKey) (file : String) (t : Token) :
    (current base done file t).path = t.path := by
  unfold current
  split
  · rfl
  · rfl

/-- What holds of an assembly of a project between any two steps. -/
structure Steady (base : Project) (limit : Int) (s : Assembly) : Prop where
  maxDepth : s.maxDepth = limit
  fileOf : ∀ q file, s.project.fileOf? q file = base.fileOf? q file
  keysDistinct : ∀ file tree, s.project.tree? file = some tree → tree.KeysDistinct
  /-- A token that is not done is as it was. -/
  tokens : ∀ file place,
    s.tokenAt? file place = (base.tokenAt? file place).map (current base s.done file)
  running : ∀ key ∈ s.inProgress, key ∉ s.done
  reports : ∀ file place t, base.tokenAt? file place = some t → (file, t.path) ∉ s.inProgress →
    reportedOn s.problems file t.path =
      if (file, t.path) ∈ s.done then (failing (base.part file) t.value.outerPointers).map some
      else []
  /-- What is reported has failed. -/
  marked : ∀ file path, reportedOn s.problems file path ≠ [] → s.failed.has (file, path) = true
  failed : ∀ file place t, base.tokenAt? file place = some t →
    s.failed.has (file, t.path) = true → ¬ base.Good file place

namespace Steady

theorem exists_token (h : Steady base limit s) (hu : s.tokenAt? file place = some u) :
    ∃ t, base.tokenAt? file place = some t ∧ u = current base s.done file t := by
  rw [h.tokens] at hu
  obtain ⟨t, ht, rfl⟩ := Option.map_eq_some_iff.mp hu
  exact ⟨t, ht, rfl⟩

theorem tokenAt (h : Steady base limit s) (ht : base.tokenAt? file place = some t) :
    s.tokenAt? file place = some (current base s.done file t) := by
  rw [h.tokens, ht]
  rfl

/-- A token that is done has failed exactly if it is not good. -/
theorem has_failed_iff (h : Steady base limit s) (ht : base.tokenAt? file place = some t)
    (hdone : (file, t.path) ∈ s.done) :
    s.failed.has (file, t.path) = true ↔ ¬ base.Good file place := by
  refine ⟨h.failed file place t ht, fun hbad => h.marked file t.path ?_⟩
  have hreports := h.reports file place t ht fun hrunning => h.running _ hrunning hdone
  rw [if_pos hdone] at hreports
  rw [hreports]
  intro hnone
  exact hbad ((Project.good_iff ht).mpr (List.map_eq_nil_iff.mp hnone))

theorem expands_of_done (h : Steady base limit s)
    (ht : base.tokenAt? file place = some t) (hdone : (file, t.path) ∈ s.done)
    (hgood : base.Good file place) :
    ∃ u, s.tokenAt? file place = some u ∧ base.Expands file place u.value := by
  refine ⟨_, h.tokenAt ht, ?_⟩
  rw [current_of_mem hdone]
  exact (Project.expands_iff ht).mpr ⟨(Project.good_iff ht).mp hgood, rfl⟩

theorem expands_of_pointers (hbase : base.Sound) (h : Steady base limit s)
    (hu : s.tokenAt? file place = some u) (hpointers : u.pointers = []) :
    base.Expands file place u.value := by
  obtain ⟨t, ht, rfl⟩ := h.exists_token hu
  by_cases hdone : (file, t.path) ∈ s.done
  · rw [current_of_mem hdone] at hpointers ⊢
    have hgood := (hbase.pointers_eq_nil_iff ht).mp hpointers
    exact (Project.expands_iff ht).mpr ⟨(Project.good_iff ht).mp hgood, rfl⟩
  · rw [current_of_not_mem hdone] at hpointers ⊢
    exact hbase.expands_self ht hpointers

/-! ### The steps -/

theorem begin (h : Steady base limit s) {key : TokenKey} (hdone : key ∉ s.done) :
    Steady base limit { s with inProgress := key :: s.inProgress } where
  maxDepth := h.maxDepth
  fileOf := h.fileOf
  keysDistinct := h.keysDistinct
  tokens := h.tokens
  running := List.forall_mem_cons.mpr ⟨hdone, h.running⟩
  reports := fun file place t ht hnot =>
    h.reports file place t ht fun hrunning => hnot (List.mem_cons_of_mem _ hrunning)
  marked := h.marked
  failed := h.failed

/-- A token that is not good has failed. -/
theorem fail (h : Steady base limit s) (hbase : base.Sound)
    (ht : base.tokenAt? file place = some t) (hbad : ¬ base.Good file place) (kind : ProblemKind) :
    Steady base limit { s with failed := s.failed.put (file, t.path) kind } where
  maxDepth := h.maxDepth
  fileOf := h.fileOf
  keysDistinct := h.keysDistinct
  tokens := h.tokens
  running := h.running
  reports := h.reports
  marked := fun other path hreported => Table.has_put.mpr (Or.inr (h.marked other path hreported))
  failed := fun other place' u hu hhas => by
    rcases Table.has_put.mp hhas with he | hhas
    · obtain ⟨rfl, hpath⟩ := Prod.mk.inj he
      rw [hbase.place_eq hu ht hpath]
      exact hbad
    · exact h.failed other place' u hu hhas

theorem failNew (h : Steady base limit s) (hbase : base.Sound)
    (ht : base.tokenAt? file place = some t) (hbad : ¬ base.Good file place) (kind : ProblemKind) :
    Steady base limit { s with failed := s.failed.putNew (file, t.path) kind } := by
  unfold Table.putNew
  split
  · exact h
  · exact h.fail hbase ht hbad kind

/-- A problem of a token in progress is reported. -/
theorem record (h : Steady base limit s) (hbase : base.Sound)
    (ht : base.tokenAt? file place = some t) (hbad : ¬ base.Good file place)
    (hrunning : (file, t.path) ∈ s.inProgress) (kind : ProblemKind) (cause : Cause)
    (reference : Option String) :
    Steady base limit (s.record file t.path kind cause reference) where
  maxDepth := h.maxDepth
  fileOf := h.fileOf
  keysDistinct := h.keysDistinct
  tokens := h.tokens
  running := h.running
  reports := fun other place' u hu hnot => by
    have hne : (file, t.path) ≠ (other, u.path) := fun he => hnot (he ▸ hrunning)
    show reportedOn (s.problems ++ _) other u.path = _
    rw [reportedOn_append, reportedOn_other hne, List.append_nil]
    exact h.reports other place' u hu hnot
  marked := fun other path hreported => by
    by_cases he : (file, t.path) = (other, path)
    · rw [← he]
      exact Table.has_putNew.mpr (Or.inl rfl)
    · refine Table.has_putNew.mpr (Or.inr (h.marked other path fun hnone => hreported ?_))
      show reportedOn (s.problems ++ _) other path = _
      rw [reportedOn_append, reportedOn_other he, hnone]
      rfl
  failed := (h.failNew hbase ht hbad kind).failed

/-- Storing a token that is finished makes it current, and no other. -/
theorem tokenAt?_finish (h : Steady base limit s) (hbase : base.Sound)
    (ht : base.tokenAt? file place = some t) (other : String) (place' : Place) :
    ((s.close (file, t.path)).modifyToken file place fun _ =>
        t.assembled (t.value.including (base.part file))).tokenAt? other place' =
      (base.tokenAt? other place').map (current base ((file, t.path) :: s.done) other) := by
  rw [tokenAt?_modifyToken]
  show (if _ then (s.tokenAt? other place').map _ else s.tokenAt? other place') = _
  rw [h.tokens]
  cases hu : base.tokenAt? other place' with
  | none => rw [Option.map_none, Option.map_none, Option.map_none, ite_self]
  | some u =>
    rw [Option.map_some, Option.map_some, Option.map_some]
    by_cases he : other = file ∧ place' = place
    · obtain ⟨rfl, rfl⟩ := he
      obtain rfl := Option.some.inj (ht.symm.trans hu)
      rw [if_pos ⟨rfl, rfl⟩, current_of_mem List.mem_cons_self]
    · have hne := hbase.key_ne ht hu he
      have hsame : (other, u.path) ∈ s.done ↔ (other, u.path) ∈ (file, t.path) :: s.done := by
        rw [List.mem_cons, or_iff_right hne]
      rw [if_neg he, current_congr hsame]

/-- A token is finished: its parts are included and what failed is reported. -/
theorem finish (h : Steady base limit s) (hbase : base.Sound)
    (ht : base.tokenAt? file place = some t)
    (hreported : reportedOn s.problems file t.path =
      (failing (base.part file) t.value.outerPointers).map some) :
    Steady base limit ((s.close (file, t.path)).modifyToken file place fun _ =>
      t.assembled (t.value.including (base.part file))) where
  maxDepth := by
    rw [maxDepth_modifyToken]
    exact h.maxDepth
  fileOf := fun q other => by
    rw [fileOf?_modifyToken]
    exact h.fileOf q other
  keysDistinct := keysDistinct_modifyToken (s := s.close (file, t.path)) h.keysDistinct _
  tokens := fun other place' => by
    rw [done_modifyToken]
    exact h.tokenAt?_finish hbase ht other place'
  running := fun key hkey => by
    rw [inProgress_modifyToken] at hkey
    obtain ⟨hrunning, hne⟩ := List.mem_filter.mp hkey
    have hother : key ≠ (file, t.path) := of_decide_eq_true hne
    rw [done_modifyToken]
    exact fun hdone => (List.mem_cons.mp hdone).elim hother (h.running key hrunning)
  reports := fun other place' u hu hnot => by
    rw [inProgress_modifyToken] at hnot
    rw [problems_modifyToken, done_modifyToken]
    show reportedOn s.problems other u.path = if _ ∈ (file, t.path) :: s.done then _ else _
    by_cases he : (other, u.path) = (file, t.path)
    · obtain ⟨rfl, hpath⟩ := Prod.mk.inj he
      obtain rfl := hbase.place_eq hu ht hpath
      obtain rfl := Option.some.inj (ht.symm.trans hu)
      rw [if_pos List.mem_cons_self]
      exact hreported
    · rw [h.reports other place' u hu fun hrunning =>
        hnot (List.mem_filter.mpr ⟨hrunning, decide_eq_true he⟩)]
      simp only [List.mem_cons, he, false_or]
  marked := by
    rw [problems_modifyToken, failed_modifyToken]
    exact h.marked
  failed := by
    rw [failed_modifyToken]
    exact h.failed

end Steady

end Assembly

end DesignTokens
