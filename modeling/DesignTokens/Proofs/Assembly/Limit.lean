import DesignTokens.Proofs.Assembly.Hops
import DesignTokens.Proofs.Assembly.Visit

/-!
# The invariant of an assembly with a limit

`Assembly.Limited` is what holds between any two steps if every token of the project is
good, whatever the limit is: a token that is done has the value to which it expands, or it
is reported and some pointer is left in it, and all problems are about the depth of tokens
in danger.

There is one lemma for each kind of step: a token is begun (`Limited.begin`), reported
(`Limited.report`) and finished (`Limited.finish`).
-/

namespace DesignTokens

/-- Some problem is reported on the token with a path of a file. -/
def Reported (problems : List Problem) (file path : String) : Prop :=
  ∃ e ∈ problems, e.file = fileName? file ∧ e.path = path

theorem Reported.mono {problems others : List Problem} {file path : String}
    (h : Reported problems file path) (hmem : ∀ e ∈ problems, e ∈ others) :
    Reported others file path := by
  obtain ⟨e, he, habout⟩ := h
  exact ⟨e, hmem e he, habout⟩

namespace Assembly

/-- A value in which some pointer is left. -/
def HoldsPointer (v : Value) : Prop := ∃ ref, .pointer ref ∈ v.occurrences

theorem holdsPointer_of_outerPointers {v : Value} (hv : v.RefsAreTexts)
    (h : v.outerPointers ≠ []) : HoldsPointer v := by
  obtain ⟨ref, href⟩ := List.exists_mem_of_ne_nil _ h
  exact ⟨ref, Value.mem_occurrences_of_outer hv href⟩

/-! ### The invariant -/

/-- What a token of the project has become: it waits as it was, or it is done and has the value
to which it expands, or it is done and reported. -/
structure Stage (base : Project) (s : Assembly) (file : String) (place : Place) (t u : Token) :
    Prop where
  path : u.path = t.path
  waiting : (file, t.path) ∉ s.done → u = t
  done : (file, t.path) ∈ s.done → (u.pointers = [] ∧ base.Expands file place u.value) ∨
    (u.pointers ≠ [] ∧ Reported s.problems file t.path)

/-- A token may be finished with the value to which it expands, or with one in which a pointer is
left, if the token is reported. -/
def Finishes (base : Project) (problems : List Problem) (file : String) (place : Place) (t : Token)
    (value : Value) : Prop :=
  ((t.assembled value).pointers = [] ∧ base.Expands file place value) ∨
    ((t.assembled value).pointers ≠ [] ∧ Reported problems file t.path)

theorem finishes_of_expands {base : Project} {problems : List Problem} {file : String}
    {place : Place} {t : Token} {value : Value} (hbase : base.Sound)
    (h : base.Expands file place value) : Finishes base problems file place t value :=
  Or.inl ⟨(h.noRefs hbase.refsAreTexts).scan_pointers, h⟩

theorem finishes_of_holdsPointer {base : Project} {problems : List Problem} {file : String}
    {place : Place} {t : Token} {value : Value} (h : HoldsPointer value)
    (hreported : Reported problems file t.path) : Finishes base problems file place t value := by
  obtain ⟨ref, href⟩ := h
  refine Or.inr ⟨fun hnone => ?_, hreported⟩
  have hm : ref ∈ (t.assembled value).pointers := Value.mem_pointers_iff.mpr href
  rw [hnone] at hm
  exact List.not_mem_nil hm

/-- A problem about the depth of a token that the limit puts in danger. -/
structure Explained (base : Project) (home : String) (limit : Int) (e : Problem) : Prop where
  kind : e.kind = .depth
  token : ∃ file place t, base.tokenAt? file place = some t ∧ e.file = fileName? file ∧
    e.path = t.path ∧ base.Endangered home limit (file, place)

/-- What holds between any two steps while a file is assembled with a limit: the tokens of the
stack are in progress, those at the finished places have had their turn, and the problems from
before are there. -/
structure Limited (base : Project) (home : String) (limit : Int) (before : List Problem)
    (finished : Set (String × Place)) (stack : List TokenKey) (s : Assembly) : Prop where
  maxDepth : s.maxDepth = limit
  fileOf : ∀ q file, s.project.fileOf? q file = base.fileOf? q file
  keysDistinct : ∀ file tree, s.project.tree? file = some tree → tree.KeysDistinct
  inProgress : s.inProgress = stack
  running : ∀ key ∈ stack, key ∉ s.done
  tokens : ∀ file place t, base.tokenAt? file place = some t →
    ∃ u, s.tokenAt? file place = some u ∧ Stage base s file place t u
  present : ∀ file place u, s.tokenAt? file place = some u →
    ∃ t, base.tokenAt? file place = some t
  explained : ∀ e ∈ s.problems, Explained base home limit e
  failed : ∀ key kind, s.failed.get? key = some kind → kind = .depth
  marked : ∀ file path, Reported s.problems file path → s.failed.has (file, path) = true
  finished : ∀ x ∈ finished, ∀ t, base.tokenAt? x.1 x.2 = some t → t.pointers ≠ [] →
    (x.1, t.path) ∈ s.done ∨ (hopsWithin limit = 0 ∧ Reported s.problems x.1 t.path)
  kept : ∀ e ∈ before, e ∈ s.problems

namespace Limited

variable {base : Project} {home : String} {limit : Int} {before : List Problem}
  {finished : Set (String × Place)} {stack : List TokenKey} {s : Assembly} {file : String}
  {place : Place} {t u : Token} {value : Value}

theorem restart (h : Limited base home limit before finished stack s) :
    Limited base home limit s.problems finished stack s :=
  { h with kept := fun _ he => he }

theorem since {others : List Problem} (h : Limited base home limit others finished stack s)
    (hkept : ∀ e ∈ before, e ∈ others) : Limited base home limit before finished stack s :=
  { h with kept := fun e he => h.kept e (hkept e he) }

theorem endangered (h : Limited base home limit before finished stack s) (hbase : base.Sound)
    (ht : base.tokenAt? file place = some t) (hreported : Reported s.problems file t.path) :
    base.Endangered home limit (file, place) := by
  obtain ⟨e, he, hfile, hpath⟩ := hreported
  obtain ⟨-, other, spot, u, hu, hother, hu', hdanger⟩ := h.explained e he
  obtain rfl : file = other := fileName?_inj (hfile.symm.trans hother)
  obtain rfl : place = spot := hbase.place_eq ht hu (hpath.symm.trans hu')
  exact hdanger

/-- A token without pointers has the value to which it expands. -/
theorem expands_of_pointers (h : Limited base home limit before finished stack s)
    (hbase : base.Sound) (hu : s.tokenAt? file place = some u) (hpointers : u.pointers = []) :
    base.Expands file place u.value := by
  obtain ⟨t, ht⟩ := h.present file place u hu
  obtain ⟨u', hu', hstage⟩ := h.tokens file place t ht
  obtain rfl := Option.some.inj (hu.symm.trans hu')
  by_cases hdone : (file, t.path) ∈ s.done
  · rcases hstage.done hdone with ⟨-, hexpands⟩ | ⟨hleft, -⟩
    · exact hexpands
    · exact absurd hpointers hleft
  · rw [hstage.waiting hdone] at hpointers ⊢
    exact hbase.expands_self ht hpointers

theorem reported_of_done (h : Limited base home limit before finished stack s)
    (ht : base.tokenAt? file place = some t) (hu : s.tokenAt? file place = some u)
    (hpointers : u.pointers ≠ []) (hdone : (file, t.path) ∈ s.done) :
    Reported s.problems file t.path := by
  obtain ⟨u', hu', hstage⟩ := h.tokens file place t ht
  obtain rfl := Option.some.inj (hu.symm.trans hu')
  rcases hstage.done hdone with ⟨hnone, -⟩ | ⟨-, hreported⟩
  · exact absurd hnone hpointers
  · exact hreported

theorem eq_of_waiting (h : Limited base home limit before finished stack s)
    (ht : base.tokenAt? file place = some t) (hdone : (file, t.path) ∉ s.done) :
    s.tokenAt? file place = some t := by
  obtain ⟨u, hu, hstage⟩ := h.tokens file place t ht
  rw [hu, hstage.waiting hdone]

/-! ### The steps -/

theorem begin (h : Limited base home limit before finished stack s) {key : TokenKey}
    (hdone : key ∉ s.done) :
    Limited base home limit before finished (key :: stack)
      { s with inProgress := key :: s.inProgress } :=
  { h with
    inProgress := congrArg _ h.inProgress
    running := List.forall_mem_cons.mpr ⟨hdone, h.running⟩
    tokens := fun file place t ht => by
      obtain ⟨u, hu, hstage⟩ := h.tokens file place t ht
      exact ⟨u, hu, hstage.path, hstage.waiting, hstage.done⟩ }

/-- A token has failed at its depth. -/
theorem fail (h : Limited base home limit before finished stack s) (other : TokenKey) :
    Limited base home limit before finished stack
      { s with failed := s.failed.put other .depth } :=
  { h with
    tokens := fun file place t ht => by
      obtain ⟨u, hu, hstage⟩ := h.tokens file place t ht
      exact ⟨u, hu, hstage.path, hstage.waiting, hstage.done⟩
    failed := fun key kind hkind => by
      by_cases he : key = other
      · rw [he, Table.get?_put_self] at hkind
        exact (Option.some.inj hkind).symm
      · rw [Table.get?_put_of_ne _ _ he] at hkind
        exact h.failed key kind hkind
    marked := fun file path hreported =>
      Table.has_put.mpr (Or.inr (h.marked file path hreported)) }

/-- A problem about the depth of a token in danger is reported, and the token has failed. -/
theorem report (h : Limited base home limit before finished stack s)
    (ht : base.tokenAt? file place = some t) (hdanger : base.Endangered home limit (file, place))
    (cause : Cause) (reference : Option String) :
    Limited base home limit before finished stack
        (s.record file t.path .depth cause reference) ∧
      Reported (s.record file t.path .depth cause reference).problems file t.path := by
  have hgrown : ∀ e ∈ s.problems, e ∈ (s.record file t.path .depth cause reference).problems :=
    fun e he => List.mem_append_left _ he
  refine ⟨?_, _, List.mem_append_right _ List.mem_cons_self, rfl, rfl⟩
  exact
    { maxDepth := h.maxDepth
      fileOf := h.fileOf
      keysDistinct := h.keysDistinct
      inProgress := h.inProgress
      running := h.running
      tokens := fun other spot v hv => by
        obtain ⟨u, hu, hstage⟩ := h.tokens other spot v hv
        refine ⟨u, hu, hstage.path, hstage.waiting, fun hdone => ?_⟩
        exact (hstage.done hdone).imp_right fun hleft => ⟨hleft.1, hleft.2.mono hgrown⟩
      present := h.present
      explained := fun e he => by
        rcases List.mem_append.mp he with he | he
        · exact h.explained e he
        · obtain rfl := List.mem_singleton.mp he
          exact ⟨rfl, file, place, t, ht, rfl, rfl, hdanger⟩
      failed := fun key kind hkind => by
        change (s.failed.putNew (file, t.path) .depth).get? key = some kind at hkind
        unfold Table.putNew at hkind
        split at hkind
        · exact h.failed key kind hkind
        · exact (h.fail _).failed key kind hkind
      marked := fun other path hreported => by
        refine Table.has_putNew.mpr ?_
        obtain ⟨e, he, hfile, hpath⟩ := hreported
        rcases List.mem_append.mp he with he | he
        · exact Or.inr (h.marked other path ⟨e, he, hfile, hpath⟩)
        · obtain rfl := List.mem_singleton.mp he
          exact Or.inl (Prod.ext (fileName?_inj hfile).symm hpath.symm)
      finished := fun x hx v hv hpointers =>
        (h.finished x hx v hv hpointers).imp_right fun hlate => ⟨hlate.1, hlate.2.mono hgrown⟩
      kept := fun e he => hgrown e (h.kept e he) }

/-- A token of the stack is finished: it has the value to which it expands, or a pointer is left
in it and it is reported. -/
theorem finish (hbase : base.Sound) (ht : base.tokenAt? file place = some t)
    (hstack : (file, t.path) ∉ stack)
    (h : Limited base home limit before finished ((file, t.path) :: stack) s)
    (hvalue : Finishes base s.problems file place t value) :
    Limited base home limit before finished stack
      ((s.close (file, t.path)).modifyToken file place fun _ => t.assembled value) where
  maxDepth := by
    rw [maxDepth_modifyToken]
    exact h.maxDepth
  fileOf := fun q other => by
    rw [fileOf?_modifyToken]
    exact h.fileOf q other
  keysDistinct := keysDistinct_modifyToken (s := s.close (file, t.path)) h.keysDistinct _
  inProgress := by
    rw [inProgress_modifyToken]
    exact inProgress_close h.inProgress hstack
  running := fun key hkey => by
    rw [done_modifyToken]
    have hne : key ≠ (file, t.path) := fun he => hstack (he ▸ hkey)
    exact fun hdone => (List.mem_cons.mp hdone).elim hne
      (h.running key (List.mem_cons_of_mem _ hkey))
  tokens := fun other spot v hv => by
    obtain ⟨u, hu, hstage⟩ := h.tokens other spot v hv
    by_cases he : other = file ∧ spot = place
    · obtain ⟨rfl, rfl⟩ := he
      obtain rfl := Option.some.inj (ht.symm.trans hv)
      refine ⟨t.assembled value, tokenAt?_stored hu _, rfl, fun hnot => ?_, fun _ => ?_⟩
      · rw [done_modifyToken] at hnot
        exact absurd List.mem_cons_self hnot
      · rw [problems_modifyToken]
        exact hvalue
    · have hsame : (other, v.path) ∈ (file, t.path) :: s.done ↔ (other, v.path) ∈ s.done := by
        rw [List.mem_cons, or_iff_right (hbase.key_ne ht hv he)]
      refine ⟨u, ?_, hstage.path, fun hnot => ?_, fun hdone => ?_⟩
      · rw [tokenAt?_modifyToken, if_neg he]
        exact hu
      · rw [done_modifyToken] at hnot
        exact hstage.waiting fun hdone => hnot (hsame.mpr hdone)
      · rw [done_modifyToken] at hdone
        rw [problems_modifyToken]
        exact hstage.done (hsame.mp hdone)
  present := fun other spot v hv => by
    rw [tokenAt?_modifyToken] at hv
    split at hv
    · obtain ⟨u, hu, -⟩ := Option.map_eq_some_iff.mp hv
      exact h.present other spot u hu
    · exact h.present other spot v hv
  explained := by
    rw [problems_modifyToken]
    exact h.explained
  failed := by
    rw [failed_modifyToken]
    exact h.failed
  marked := by
    rw [problems_modifyToken, failed_modifyToken]
    exact h.marked
  finished := fun x hx v hv hpointers => by
    rw [done_modifyToken, problems_modifyToken]
    exact (h.finished x hx v hv hpointers).imp_left (List.mem_cons_of_mem _)
  kept := by
    rw [problems_modifyToken]
    exact h.kept

end Limited

end Assembly

end DesignTokens
