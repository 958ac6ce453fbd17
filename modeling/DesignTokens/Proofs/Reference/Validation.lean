import DesignTokens.Proofs.Assembly.Readable
import DesignTokens.Proofs.Reference.Substitution
import DesignTokens.Reference.Validation

/-!
# What validation reports

`Validation.Wrong` says what may be wrong with a reference of a token as it stands: a text is
malformed, an alias leads to no token, or a pointer leads nowhere.  Validation reports just that,
and the members of cycles of aliases (`mem_validate_iff`); it comes to its end if no pointer of a
token has a segment that consists of digits but writes no number (`exists_validate`).
-/

namespace DesignTokens

namespace Validation

variable {project : Option Project} {g : Group} {file : Option String} {t : Token} {ref : String}
  {refs : List String} {problems : List Problem} {e : Problem}

/-- A problem with a reference of a token. -/
inductive Wrong (project : Option Project) (g : Group) (file : Option String) (t : Token) :
    Problem → Prop
  | malformed {text : String} : text ∈ t.malformed →
      Wrong project g file t ⟨.invalid, t.path, .malformed text, some text, file⟩
  | aliasOf {named : String} : named ∈ t.references → g.findToken? named = none →
      Wrong project g file t
        ⟨.missing, t.path, .aliasOfNothing named, some (Alias.ofPath named), file⟩
  | pointer {ref : String} {kind : ProblemKind} {cause : Cause} : ref ∈ t.pointers →
      pointerFault? project g file ref = .ok (some (kind, cause)) →
      Wrong project g file t ⟨kind, t.path, cause, some ref, file⟩

/-! ### Coming to an end -/

section

variable (project g file)

theorem exists_pointerFault (h : Pointer.isReadable ref = true) :
    ∃ fault, pointerFault? project g file ref = .ok fault := by
  unfold pointerFault?
  cases hq : Pointer.parse ref with
  | error fault => exact ⟨_, rfl⟩
  | ok q =>
    dsimp only
    split
    · exact ⟨_, rfl⟩
    · rename_i place target rest hfound
      split
      · obtain ⟨tree, -, htarget⟩ := Value.bind_eq_ok.mp hfound
        obtain ⟨below, -, -, hsegments⟩ := Pointer.walk_eq_ok_iff.mp htarget
        have hrest : ∀ segment ∈ rest, Pointer.index segment ≠ .unreadable := by
          intro segment hm
          refine Pointer.readable_of_isReadable h hq segment ?_
          rcases hsegments with ⟨-, rfl⟩ | hsegments
          · exact absurd hm List.not_mem_nil
          · rw [hsegments]
            exact List.mem_append_right _ (List.mem_cons_of_mem _ hm)
        obtain ⟨result, hresult⟩ := @Pointer.exists_descend ref _ hrest target.value
        rw [hresult]
        exact ⟨_, rfl⟩
      · exact ⟨_, rfl⟩

theorem exists_pointerProblems (h : ∀ ref ∈ refs, Pointer.isReadable ref = true) :
    ∃ problems, pointerProblems project g file t refs = .ok problems := by
  induction refs with
  | nil => exact ⟨[], rfl⟩
  | cons ref refs ih =>
    obtain ⟨href, hrefs⟩ := List.forall_mem_cons.mp h
    obtain ⟨fault, hfault⟩ := exists_pointerFault project g file href
    obtain ⟨others, hothers⟩ := ih hrefs
    exact ⟨_, Value.bind_eq_ok.mpr ⟨fault, hfault, Value.bind_eq_ok.mpr ⟨others, hothers, rfl⟩⟩⟩

theorem exists_tokenProblems (h : ∀ ref ∈ t.pointers, Pointer.isReadable ref = true) :
    ∃ problems, tokenProblems project g file t = .ok problems := by
  obtain ⟨pointers, hpointers⟩ := exists_pointerProblems project g file (t := t) h
  exact ⟨_, Value.bind_eq_ok.mpr ⟨pointers, hpointers, rfl⟩⟩

theorem exists_problemsOfTokens {tokens : List Token}
    (h : ∀ t ∈ tokens, ∀ ref ∈ t.pointers, Pointer.isReadable ref = true) :
    ∃ problems, problemsOfTokens project g file tokens = .ok problems := by
  induction tokens with
  | nil => exact ⟨[], rfl⟩
  | cons t tokens ih =>
    obtain ⟨ht, htokens⟩ := List.forall_mem_cons.mp h
    obtain ⟨first, hfirst⟩ := exists_tokenProblems project g file ht
    obtain ⟨others, hothers⟩ := ih htokens
    exact ⟨_, Value.bind_eq_ok.mpr ⟨first, hfirst, Value.bind_eq_ok.mpr ⟨others, hothers, rfl⟩⟩⟩

end

/-! ### Where pointers lead -/

/-- A pointer reaches a value: it can be read, the file that it names is there, and its segments
lead to a token and on to a part of its value.  The part is not asked for if the token has pointers
of its own. -/
def Reaches (project : Option Project) (g : Group) (file : Option String) (ref : String) : Prop :=
  ∃ q tree place target rest, Pointer.parse ref = .ok q ∧ treeOf project g file q = .ok tree ∧
    tree.tokenAt? place = some target ∧
      ((q.segments = place ∧ rest = []) ∨ q.segments = place ++ valueKey :: rest) ∧
        (target.pointers = [] → ∃ w, Pointer.descend ref target.value rest = .ok (.ok w))

theorem pointerFault?_eq_none_iff :
    pointerFault? project g file ref = .ok none ↔ Reaches project g file ref := by
  unfold pointerFault?
  constructor
  · intro h
    cases hq : Pointer.parse ref with
    | error fault =>
      rw [hq] at h
      cases h
    | ok q =>
      rw [hq] at h
      dsimp only at h
      split at h
      · cases h
      · rename_i place target rest hfound
        obtain ⟨tree, htree, htarget⟩ := Value.bind_eq_ok.mp hfound
        obtain ⟨below, rfl, hat, hsegments⟩ := Pointer.walk_eq_ok_iff.mp htarget
        refine ⟨q, tree, place, target, rest, hq, htree, hat, hsegments, fun hnone => ?_⟩
        rw [if_pos (List.isEmpty_iff.mpr hnone)] at h
        rcases hd : Pointer.descend ref target.value rest with e | (cause | w)
        · rw [hd] at h
          cases h
        · rw [hd] at h
          cases h
        · exact ⟨w, rfl⟩
  · rintro ⟨q, tree, place, target, rest, hq, htree, hat, hsegments, hpart⟩
    have hwalk : q.target tree = .ok (place, target, rest) :=
      Pointer.walk_eq_ok_iff.mpr ⟨place, rfl, hat, hsegments⟩
    rw [hq]
    dsimp only
    rw [htree, show (Except.ok tree).bind q.target = .ok (place, target, rest) from hwalk]
    dsimp only
    split
    · rename_i hnone
      obtain ⟨w, hw⟩ := hpart (List.isEmpty_iff.mp hnone)
      rw [hw]
      rfl
    · rfl

/-! ### The problems -/

theorem mem_pointerProblems_iff (h : pointerProblems project g file t refs = .ok problems) :
    e ∈ problems ↔ ∃ ref ∈ refs, ∃ kind cause,
      pointerFault? project g file ref = .ok (some (kind, cause)) ∧
        e = ⟨kind, t.path, cause, some ref, file⟩ := by
  induction refs generalizing problems with
  | nil =>
    cases Except.ok.inj h
    simp
  | cons ref refs ih =>
    obtain ⟨fault, hfault, h⟩ := Value.bind_eq_ok.mp h
    obtain ⟨others, hothers, h⟩ := Value.bind_eq_ok.mp h
    rw [← Except.ok.inj h, List.mem_append, ih hothers]
    simp only [List.mem_cons, exists_eq_or_imp, hfault]
    refine or_congr_left ?_
    cases fault with
    | none => simp
    | some f => simp [Prod.ext_iff]

theorem mem_tokenProblems_iff (h : tokenProblems project g file t = .ok problems) :
    e ∈ problems ↔ Wrong project g file t e := by
  obtain ⟨pointers, hpointers, h⟩ := Value.bind_eq_ok.mp h
  rw [← Except.ok.inj h, List.mem_append, List.mem_append, mem_pointerProblems_iff hpointers,
    List.mem_map, List.mem_filterMap]
  constructor
  · rintro ((⟨text, htext, rfl⟩ | ⟨named, hnamed, he⟩) | ⟨ref, href, kind, cause, hfault, rfl⟩)
    · exact .malformed htext
    · unfold aliasProblem? at he
      split at he
      · cases he
      · rename_i hnone
        cases Option.some.inj he
        exact .aliasOf hnamed hnone
    · exact .pointer href hfault
  · intro hwrong
    cases hwrong with
    | malformed htext => exact Or.inl (Or.inl ⟨_, htext, rfl⟩)
    | aliasOf hnamed hnone =>
      refine Or.inl (Or.inr ⟨_, hnamed, ?_⟩)
      unfold aliasProblem?
      rw [hnone]
    | pointer href hfault => exact Or.inr ⟨_, href, _, _, hfault, rfl⟩

theorem mem_problemsOfTokens_iff {tokens : List Token}
    (h : problemsOfTokens project g file tokens = .ok problems) :
    e ∈ problems ↔ ∃ t ∈ tokens, Wrong project g file t e := by
  induction tokens generalizing problems with
  | nil =>
    cases Except.ok.inj h
    simp
  | cons t tokens ih =>
    obtain ⟨first, hfirst, h⟩ := Value.bind_eq_ok.mp h
    obtain ⟨others, hothers, h⟩ := Value.bind_eq_ok.mp h
    rw [← Except.ok.inj h, List.mem_append, mem_tokenProblems_iff hfirst, ih hothers]
    simp only [List.mem_cons, exists_eq_or_imp]

/-- A reference of a token that is broken as it stands. -/
inductive Broken (project : Option Project) (g : Group) (file : Option String) (t : Token) :
    String → Prop
  | malformed {text : String} : text ∈ t.malformed → Broken project g file t text
  | aliasOf {named : String} : named ∈ t.references → g.findToken? named = none →
      Broken project g file t (Alias.ofPath named)
  | pointer {ref : String} : ref ∈ t.pointers → ¬ Reaches project g file ref →
      Broken project g file t ref

theorem Broken.exists_wrong {reference : String} (h : Broken project g file t reference)
    (hreadable : ∀ ref ∈ t.pointers, Pointer.isReadable ref = true) :
    ∃ e, Wrong project g file t e ∧ e.path = t.path ∧ e.reference = some reference := by
  cases h with
  | malformed htext => exact ⟨_, .malformed htext, rfl, rfl⟩
  | aliasOf hnamed hnone => exact ⟨_, .aliasOf hnamed hnone, rfl, rfl⟩
  | pointer href hlost =>
    obtain ⟨fault, hfault⟩ := exists_pointerFault project g file (hreadable _ href)
    cases fault with
    | none => exact absurd (pointerFault?_eq_none_iff.mp hfault) hlost
    | some fault => exact ⟨_, .pointer href hfault, rfl, rfl⟩

end Validation

namespace Group

variable {project : Option Project} {g : Group} {file : Option String} {problems : List Problem}
  {e : Problem}

/-- **Validation comes to its end if no pointer of a token has a segment that consists of digits but
writes no number.** -/
theorem exists_validate (h : ∀ t ∈ g.tokens, ∀ ref ∈ t.pointers, Pointer.isReadable ref = true)
    (project : Option Project) (file : Option String) :
    ∃ problems, g.validate project file = .ok problems := by
  obtain ⟨problems, hproblems⟩ := Validation.exists_problemsOfTokens project g file h
  exact ⟨_, Value.bind_eq_ok.mpr ⟨problems, hproblems, rfl⟩⟩

/-- **Validation reports what is wrong with the references of the tokens and the members of
cycles.** -/
theorem mem_validate_iff (h : g.validate project file = .ok problems) :
    e ∈ problems ↔ (∃ t ∈ g.tokens, Validation.Wrong project g file t e) ∨
      ∃ cycle ∈ g.aliasCycles.cycles, ∃ member ∈ cycle, (g.findToken? member).isSome = true ∧
        e = ⟨.circular, member, .cycle cycle, some (Alias.ofPath member), file⟩ := by
  obtain ⟨found, hfound, h⟩ := Value.bind_eq_ok.mp h
  rw [← Except.ok.inj h, List.mem_append, Validation.mem_problemsOfTokens_iff hfound]
  refine or_congr_right ?_
  simp only [Validation.cycleProblems, List.mem_flatMap, List.mem_map, List.mem_filter]
  constructor
  · rintro ⟨cycle, hcycle, member, ⟨hmember, hsome⟩, rfl⟩
    exact ⟨cycle, hcycle, member, hmember, hsome, rfl⟩
  · rintro ⟨cycle, hcycle, member, hmember, hsome, rfl⟩
    exact ⟨cycle, hcycle, member, ⟨hmember, hsome⟩, rfl⟩

end Group

end DesignTokens
