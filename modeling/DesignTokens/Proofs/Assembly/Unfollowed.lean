import DesignTokens.Proofs.Assembly.Documents
import DesignTokens.Proofs.Assembly.Followed

/-!
# Pointers that are not followed are reported

Whatever the limit is and wherever the pointers lead, a token that is done keeps exactly
the pointers that could not be followed, and a problem of the token names each of them.

`Assembly.Noted` is the invariant, with one lemma for each kind of step.  It says nothing
of the tokens in progress, so no path through the project enters the proof.  By
`Project.assembleFile_noted` only a negative limit leaves a token as it was, and then its
depth is reported.
-/

namespace DesignTokens

/-- A problem of the token with a path of a file names a reference. -/
def Listed (problems : List Problem) (file path reference : String) : Prop :=
  ∃ e ∈ problems, e.file = fileName? file ∧ e.path = path ∧ e.reference = some reference

theorem Listed.mono {problems others : List Problem} {file path reference : String}
    (h : Listed problems file path reference) (hmem : ∀ e ∈ problems, e ∈ others) :
    Listed others file path reference := by
  obtain ⟨e, he, habout⟩ := h
  exact ⟨e, hmem e he, habout⟩

/-- The depth of the token with a path of a file is reported. -/
def TooDeep (problems : List Problem) (file path : String) : Prop :=
  ∃ e ∈ problems, e.kind = .depth ∧ e.file = fileName? file ∧ e.path = path

theorem TooDeep.mono {problems others : List Problem} {file path : String}
    (h : TooDeep problems file path) (hmem : ∀ e ∈ problems, e ∈ others) :
    TooDeep others file path := by
  obtain ⟨e, he, habout⟩ := h
  exact ⟨e, hmem e he, habout⟩

namespace Assembly

/-! ### The invariant -/

/-- What a token of the project has become: it waits as it was, or it is done, and then every
pointer that is left in it is listed. -/
structure Fate (base : Project) (s : Assembly) (file : String) (t u : Token) : Prop where
  path : u.path = t.path
  waiting : (file, t.path) ∉ s.done → u = t
  value : t.value.Followed (base.part file) u.value
  pointers : u.pointers = (Scan.of u.value).pointers
  failed : (file, t.path) ∈ s.done → u.pointers ≠ [] → s.failed.has (file, t.path) = true
  listed : (file, t.path) ∈ s.done → ∀ ref ∈ u.value.outerPointers,
    Listed s.problems file t.path ref

/-- What holds between any two steps: the tokens of the stack are in progress, those at the
finished places have had their turn, and the problems from before are there. -/
structure Noted (base : Project) (limit : Int) (before : List Problem)
    (finished : Set (String × Place)) (stack : List TokenKey) (s : Assembly) : Prop where
  maxDepth : s.maxDepth = limit
  fileOf : ∀ q file, s.project.fileOf? q file = base.fileOf? q file
  inProgress : s.inProgress = stack
  tokens : ∀ file place t, base.tokenAt? file place = some t →
    ∃ u, s.tokenAt? file place = some u ∧ Fate base s file t u
  present : ∀ file place u, s.tokenAt? file place = some u →
    ∃ t, base.tokenAt? file place = some t
  finished : ∀ x ∈ finished, ∀ t, base.tokenAt? x.1 x.2 = some t → t.pointers ≠ [] →
    (x.1, t.path) ∈ s.done ∨ (limit < 0 ∧ TooDeep s.problems x.1 t.path)
  marked : ∀ file path ref, Listed s.problems file path ref → s.failed.has (file, path) = true
  kept : ∀ e ∈ before, e ∈ s.problems

variable {base : Project} {limit : Int} {before : List Problem} {finished : Set (String × Place)}
  {stack : List TokenKey} {s : Assembly} {file ref target : String} {place spot : Place}
  {t u : Token} {value w : Value} {rest : List String}

theorem Fate.expands (h : Fate base s file t u) (ht : base.tokenAt? file place = some t)
    (hpointers : u.pointers = []) : base.Expands file place u.value := by
  have houter : u.value.outerPointers = [] :=
    Value.outerPointers_eq_nil h.value.refsAreTexts (h.pointers ▸ hpointers)
  refine (Project.expands_iff ht).mpr ⟨List.filter_eq_nil_iff.mpr fun ref href hnone => ?_,
    h.value.whole houter⟩
  have hleft := h.value.left ref href (Option.isNone_iff_eq_none.mp hnone)
  rw [houter] at hleft
  exact List.not_mem_nil hleft

theorem fate_self (hbase : base.Sound) (ht : base.tokenAt? file place = some t)
    (hdone : (file, t.path) ∉ s.done) : Fate base s file t t where
  path := rfl
  waiting _ := rfl
  value := .self (hbase.refsAreTexts file place t ht)
  pointers := (hbase.tracked ht).pointers
  failed hnow := absurd hnow hdone
  listed hnow := absurd hnow hdone

theorem Fate.mono (h : Fate base s file t u) {r : Assembly} (hdone : r.done = s.done)
    (hfailed : ∀ key, s.failed.has key = true → r.failed.has key = true)
    (hproblems : ∀ e ∈ s.problems, e ∈ r.problems) : Fate base r file t u where
  path := h.path
  waiting hnew := h.waiting (hdone ▸ hnew)
  value := h.value
  pointers := h.pointers
  failed hnow hleft := hfailed _ (h.failed (hdone ▸ hnow) hleft)
  listed hnow ref href := (h.listed (hdone ▸ hnow) ref href).mono hproblems

namespace Noted

theorem restart (h : Noted base limit before finished stack s) :
    Noted base limit s.problems finished stack s :=
  { h with kept := fun _ he => he }

theorem since {others : List Problem} (h : Noted base limit others finished stack s)
    (hkept : ∀ e ∈ before, e ∈ others) : Noted base limit before finished stack s :=
  { h with kept := fun e he => h.kept e (hkept e he) }

/-! ### The steps -/

/-- More problems and more failures keep the invariant. -/
theorem grow (h : Noted base limit before finished stack s) {r : Assembly}
    (hproject : r.project = s.project) (hlimit : r.maxDepth = s.maxDepth)
    (hprogress : r.inProgress = s.inProgress) (hdone : r.done = s.done)
    (hfailed : ∀ key, s.failed.has key = true → r.failed.has key = true)
    (hproblems : ∀ e ∈ s.problems, e ∈ r.problems)
    (hmarked : ∀ file path ref, Listed r.problems file path ref →
      Listed s.problems file path ref ∨ r.failed.has (file, path) = true) :
    Noted base limit before finished stack r where
  maxDepth := hlimit.trans h.maxDepth
  fileOf q file := by
    rw [hproject]
    exact h.fileOf q file
  inProgress := hprogress.trans h.inProgress
  tokens file place t ht := by
    obtain ⟨u, hu, hfate⟩ := h.tokens file place t ht
    refine ⟨u, ?_, hfate.mono hdone hfailed hproblems⟩
    rw [tokenAt?, hproject]
    exact hu
  present file place u hu := by
    rw [tokenAt?, hproject] at hu
    exact h.present file place u hu
  finished x hx t ht hpointers := by
    rw [hdone]
    exact (h.finished x hx t ht hpointers).imp_right fun hdeep => ⟨hdeep.1, hdeep.2.mono hproblems⟩
  marked file path ref hlisted :=
    (hmarked file path ref hlisted).elim (fun hold => hfailed _ (h.marked file path ref hold)) id
  kept e he := hproblems e (h.kept e he)

/-- A token is begun. -/
theorem begin (h : Noted base limit before finished stack s) (key : TokenKey) :
    Noted base limit before finished (key :: stack)
      { s with inProgress := key :: s.inProgress } where
  maxDepth := h.maxDepth
  fileOf := h.fileOf
  inProgress := congrArg _ h.inProgress
  tokens file place t ht := by
    obtain ⟨u, hu, hfate⟩ := h.tokens file place t ht
    exact ⟨u, hu, hfate.mono rfl (fun _ h => h) fun _ h => h⟩
  present := h.present
  finished := h.finished
  marked := h.marked
  kept := h.kept

theorem fail (h : Noted base limit before finished stack s) (key : TokenKey) (kind : ProblemKind) :
    Noted base limit before finished stack { s with failed := s.failed.put key kind } :=
  h.grow rfl rfl rfl rfl (fun _ hhas => Table.has_put.mpr (Or.inr hhas)) (fun _ he => he)
    fun _ _ _ hlisted => Or.inl hlisted

theorem record (h : Noted base limit before finished stack s) (path : String) (kind : ProblemKind)
    (cause : Cause) (reference : Option String) :
    Noted base limit before finished stack (s.record file path kind cause reference) :=
  h.grow rfl rfl rfl rfl (fun _ hhas => Table.has_putNew.mpr (Or.inr hhas))
    (fun _ he => List.mem_append_left _ he) fun other path' ref hlisted => by
      obtain ⟨e, he, hfile, hpath, href⟩ := hlisted
      rcases List.mem_append.mp he with he | he
      · exact Or.inl ⟨e, he, hfile, hpath, href⟩
      · obtain rfl := List.mem_singleton.mp he
        exact Or.inr
          (Table.has_putNew.mpr (Or.inl (Prod.ext (fileName?_inj hfile).symm hpath.symm)))

theorem has_failed (h : Noted base limit before finished stack s) (htexts : value.RefsAreTexts)
    (hlisted : ∀ ref ∈ value.outerPointers, Listed s.problems file t.path ref)
    (hleft : (t.assembled value).pointers ≠ []) : s.failed.has (file, t.path) = true := by
  have houter : value.outerPointers ≠ [] := fun hnone =>
    hleft (Value.noRefs_of_outerPointers htexts hnone).scan_pointers
  obtain ⟨ref, href⟩ := List.exists_mem_of_ne_nil _ houter
  exact h.marked file t.path ref (hlisted ref href)

/-- A token of the stack is finished and stored. -/
theorem finish (hbase : base.Sound) (ht : base.tokenAt? file place = some t)
    (hstack : (file, t.path) ∉ stack)
    (h : Noted base limit before finished ((file, t.path) :: stack) s)
    (hvalue : t.value.Followed (base.part file) value)
    (hlisted : ∀ ref ∈ value.outerPointers, Listed s.problems file t.path ref) :
    Noted base limit before finished stack
      ((s.close (file, t.path)).modifyToken file place fun _ => t.assembled value) where
  maxDepth := by
    rw [maxDepth_modifyToken]
    exact h.maxDepth
  fileOf q other := by
    rw [fileOf?_modifyToken]
    exact h.fileOf q other
  inProgress := by
    rw [inProgress_modifyToken]
    exact inProgress_close h.inProgress hstack
  tokens other spot v hv := by
    obtain ⟨u, hu, hfate⟩ := h.tokens other spot v hv
    by_cases he : other = file ∧ spot = place
    · obtain ⟨rfl, rfl⟩ := he
      obtain rfl := Option.some.inj (ht.symm.trans hv)
      refine ⟨t.assembled value, tokenAt?_stored hu _, rfl, fun hnot => ?_, hvalue, rfl, ?_, ?_⟩
      · rw [done_modifyToken] at hnot
        exact absurd List.mem_cons_self hnot
      · rw [failed_modifyToken]
        exact fun _ => h.has_failed hvalue.refsAreTexts hlisted
      · rw [problems_modifyToken]
        exact fun _ => hlisted
    · have hsame : (other, v.path) ∈ (file, t.path) :: s.done ↔ (other, v.path) ∈ s.done := by
        rw [List.mem_cons, or_iff_right (hbase.key_ne ht hv he)]
      refine ⟨u, ?_, hfate.path, fun hnot => hfate.waiting fun hdone => ?_, hfate.value,
        hfate.pointers, ?_, ?_⟩
      · rw [tokenAt?_modifyToken, if_neg he]
        exact hu
      · rw [done_modifyToken] at hnot
        exact hnot (hsame.mpr hdone)
      · rw [done_modifyToken, failed_modifyToken]
        exact fun hdone => hfate.failed (hsame.mp hdone)
      · rw [done_modifyToken, problems_modifyToken]
        exact fun hdone => hfate.listed (hsame.mp hdone)
  present other spot v hv := by
    rw [tokenAt?_modifyToken] at hv
    split at hv
    · obtain ⟨u, hu, -⟩ := Option.map_eq_some_iff.mp hv
      exact h.present other spot u hu
    · exact h.present other spot v hv
  finished x hx v hv hpointers := by
    rw [done_modifyToken, problems_modifyToken]
    exact (h.finished x hx v hv hpointers).imp_left (List.mem_cons_of_mem _)
  marked := by
    rw [problems_modifyToken, failed_modifyToken]
    exact h.marked
  kept := by
    rw [problems_modifyToken]
    exact h.kept

end Noted

end Assembly

end DesignTokens
