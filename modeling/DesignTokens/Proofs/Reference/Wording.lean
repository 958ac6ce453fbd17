import DesignTokens.Proofs.Reference.Validation
import DesignTokens.Proofs.Text.Joining

/-!
# The wording of problems

Only the problems with a cycle announce one in their wording (`Cause.not_announces_of_isPlain`).
Whatever else goes wrong while aliases are replaced (`Value.failsOnly_substitute`) or while
the references of a tree are validated (`Validation.Wrong.isPlain`) has a cause with a wording of
its own.
-/

namespace DesignTokens

/-- A text that says that a cycle was found. -/
def AnnouncesCycle (text : String) : Prop :=
  "Circular reference detected: ".toList <+: text.toList

instance (text : String) : Decidable (AnnouncesCycle text) :=
  inferInstanceAs (Decidable (_ <+: _))

namespace Cause

/-- The members of the cycle that a cause is about. -/
def members : Cause → List String
  | cycle members => members
  | _ => []

/-- A cause with a wording of its own that is not about a cycle of aliases. -/
def isPlain : Cause → Bool
  | cycle _ => false
  | other _ => false
  | _ => true

/-- A text that begins with other words than those that announce a cycle. -/
def BeginsOtherwise (text : String) : Prop :=
  ¬ Text.Overlap "Circular reference detected: ".toList text.toList

instance (text : String) : Decidable (BeginsOtherwise text) :=
  inferInstanceAs (Decidable (¬ (_ <+: _ ∨ _ <+: _)))

theorem BeginsOtherwise.append {front : String} (h : BeginsOtherwise front) (rest : String) :
    BeginsOtherwise (front ++ rest) := by
  intro hoverlap
  rw [Text.Overlap, String.toList_append] at hoverlap
  rcases hoverlap with hprefix | hprefix
  · exact h (List.prefix_or_prefix_of_prefix hprefix (List.prefix_append _ _))
  · exact h (Or.inr ((List.prefix_append _ _).trans hprefix))

theorem beginsOtherwise_of_isPlain {cause : Cause} (h : cause.isPlain = true) :
    BeginsOtherwise cause.message := by
  cases cause with
  | cycle _ | other _ => cases h
  | pointer fault =>
    cases fault with
    | noFragment _ | badFragment _ | emptySegment _ => exact .append (by decide) _
  | pastToken _ _ => exact .append (.append (.append (.append (by decide) _) _) _) _
  | tooDeep _ | unresolvedTarget _ | notInText _ | vanished _ =>
    exact .append (.append (by decide) _) _
  | noProject _ | fileNotLoaded _ | noToken _ | atGroup _ | noValue _ | circularPointer _
  | malformed _ | leftPointer _ | aliasOfNothing _ | aliasOfGroup _ | dependsOn _ =>
    exact .append (by decide) _

theorem not_announces_of_isPlain {cause : Cause} (h : cause.isPlain = true) :
    ¬ AnnouncesCycle cause.message := fun hprefix =>
  beginsOtherwise_of_isPlain h (Or.inl hprefix)

end Cause

/-- An obstacle with a wording of its own, if it has one at all. -/
def Obstacle.IsPlain : Obstacle → Prop
  | cause c => c.isPlain = true
  | numeral _ => True

/-! ### What can go wrong -/

variable {ε α β : Type}

/-- Whatever goes wrong is of a kind. -/
def FailsOnly (P : ε → Prop) (m : Except ε α) : Prop := ∀ e, m = .error e → P e

namespace FailsOnly

variable {P : ε → Prop}

theorem ok (a : α) : FailsOnly P (.ok a) := nofun

theorem error {e : ε} (h : P e) : FailsOnly P (.error e : Except ε α) :=
  fun _ he => Except.error.inj he ▸ h

theorem bind {m : Except ε α} {next : α → Except ε β} (h : FailsOnly P m)
    (hnext : ∀ a, m = .ok a → FailsOnly P (next a)) : FailsOnly P (m >>= next) := by
  cases m with
  | ok a => exact hnext a rfl
  | error e => exact .error (h e rfl)

theorem map {m : Except ε α} (h : FailsOnly P m) (f : α → β) : FailsOnly P (m.map f) := by
  cases m with
  | ok a => exact .ok (f a)
  | error e => exact .error (h e rfl)

end FailsOnly

/-! ### Replacing aliases -/

namespace Value

variable {P : Obstacle → Prop} {meaning : String → Except Obstacle Value}
  (h : ∀ path, FailsOnly P (meaning path))
  (hform : ∀ path x, meaning path = .ok x → FailsOnly P x.textForm)

include h hform in
theorem failsOnly_substitutePieces (pieces : List Alias.Piece) :
    FailsOnly P (substitutePieces meaning pieces) := by
  induction pieces with
  | nil => exact .ok _
  | cons piece pieces ih =>
    cases piece with
    | plain c => exact ih.bind fun _ _ => .ok _
    | braced inner =>
      exact (h _).bind fun x hx => (hform _ x hx).bind fun _ _ => ih.bind fun _ _ => .ok _

include h hform in
/-- Only the meanings of aliases and their forms inside texts can go wrong. -/
theorem failsOnly_substitute (v : Value) : FailsOnly P (v.substitute meaning) := by
  induction v using inductionOn with
  | text s =>
    rw [substitute]
    split
    · exact h _
    · exact (failsOnly_substitutePieces h hform _).map _
  | list items ih =>
    rw [substitute]
    refine FailsOnly.map ?_ _
    induction items with
    | nil => exact .ok _
    | cons v items ihitems =>
      obtain ⟨hv, hitems⟩ := List.forall_mem_cons.mp ih
      exact hv.bind fun _ _ => (ihitems hitems).bind fun _ _ => .ok _
  | object members ih =>
    rw [substitute]
    refine FailsOnly.map ?_ _
    induction members with
    | nil => exact .ok _
    | cons m members ihmembers =>
      obtain ⟨hm, hmembers⟩ := List.forall_mem_cons.mp ih
      exact hm.bind fun _ _ => (ihmembers hmembers).bind fun _ _ => .ok _
  | _ => exact .ok _

theorem textForm_isPlain (v : Value) : FailsOnly Obstacle.IsPlain v.textForm := by
  cases v with
  | int n =>
    rw [textForm]
    split
    · exact .ok _
    · exact .error trivial
  | bool _ | text _ | real _ => exact .ok _
  | null | list _ | object _ => exact .error rfl

end Value

theorem Group.meaning_isPlain (g : Group) (path : String) :
    FailsOnly Obstacle.IsPlain (g.meaning path) := by
  unfold meaning
  split
  · exact .ok _
  · exact .error rfl

/-! ### Following pointers -/

namespace Pointer

theorem walk_isPlain (raw : String) (here : Place) (n : Node) (segments : List String) :
    FailsOnly (Cause.isPlain · = true) (walk raw here n segments) := by
  induction segments generalizing here n with
  | nil =>
    cases n with
    | token t => exact .ok _
    | group label children => exact .error rfl
  | cons segment segments ih =>
    cases n with
    | token t =>
      rw [walk]
      split
      · exact .ok _
      · exact .error rfl
    | group label children =>
      rw [walk]
      split
      · exact .error rfl
      · exact ih _ _

/-- A part that a value does not have is a plain cause. -/
theorem isPlain_of_descend {raw : String} {v : Value} {segments : List String} {cause : Cause}
    (h : descend raw v segments = .ok (.error cause)) : cause.isPlain = true := by
  have hmissing : ∀ {result : Except NumeralFault (Except Cause Value)},
      result = .ok (.error (.noValue raw)) → result = .ok (.error cause) →
        cause.isPlain = true := by
    rintro _ rfl he
    rw [← Except.error.inj (Except.ok.inj he)]
    rfl
  induction segments generalizing v with
  | nil =>
    rw [descend] at h
    cases h
  | cons segment segments ih =>
    cases v with
    | object members =>
      rw [descend] at h
      split at h
      · exact ih h
      · exact hmissing rfl h
    | list items =>
      rw [descend] at h
      split at h
      · exact hmissing rfl h
      · cases h
      · split at h
        · exact ih h
        · exact hmissing rfl h
    | _ => exact hmissing rfl h

end Pointer

namespace Validation

variable {project : Option Project} {g : Group} {file : Option String} {t : Token} {ref : String}
  {kind : ProblemKind} {cause : Cause} {e : Problem}

theorem treeOf_isPlain (project : Option Project) (g : Group) (file : Option String)
    (p : Pointer) : FailsOnly (Cause.isPlain · = true) (treeOf project g file p) := by
  unfold treeOf
  split
  · exact .ok _
  · split
    · exact .ok _
    · exact .error rfl

theorem isPlain_of_pointerFault (h : pointerFault? project g file ref = .ok (some (kind, cause))) :
    cause.isPlain = true := by
  unfold pointerFault? at h
  split at h
  · rw [← (Prod.mk.inj (Option.some.inj (Except.ok.inj h))).2]
    rfl
  · rename_i p hp
    split at h
    · rename_i other hother
      obtain rfl := (Prod.mk.inj (Option.some.inj (Except.ok.inj h))).2
      have htarget : FailsOnly (Cause.isPlain · = true) (treeOf project g file p >>= p.target) :=
        (treeOf_isPlain project g file p).bind fun _ _ => Pointer.walk_isPlain _ _ _ _
      exact htarget _ hother
    · split at h
      · rename_i target rest hfound hpointers
        rcases hd : Pointer.descend ref target.value rest with fault | (other | w)
        · rw [hd] at h
          cases h
        · rw [hd] at h
          obtain rfl := (Prod.mk.inj (Option.some.inj (Except.ok.inj h))).2
          exact Pointer.isPlain_of_descend hd
        · rw [hd] at h
          cases h
      · cases h

theorem Wrong.isPlain (h : Wrong project g file t e) : e.cause.isPlain = true := by
  cases h with
  | malformed _ | aliasOf _ _ => rfl
  | pointer _ hfault => exact isPlain_of_pointerFault hfault

end Validation

end DesignTokens
