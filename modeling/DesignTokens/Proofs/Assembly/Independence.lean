import DesignTokens.Proofs.Assembly.Progress
import DesignTokens.Proofs.Reference.Rearrangement
import DesignTokens.Proofs.Token.Writing

/-!
# Expansion does not depend on any order

Two projects are alike if their pointers name the same files and their tokens stand at the
same places with related values (`Project.Alike`).  If replacing and reading parts respects
the relation, then tokens that expand in one project expand to related values in the other
(`Project.Alike.expands`), and so what a pointer stands for is related
(`Project.Alike.rel_part`).

There are two such relations: equality, and rearrangement of entries.  Rearranged documents
are built into trees with rearranged values at the same places
(`Value.Rearranged.rel_tokenAt?`).
-/

namespace DesignTokens

/-- A relation between values that is respected where pointers are replaced. -/
structure Value.Respected (R : Value → Value → Prop) : Prop where
  symm : ∀ {v w}, R v w → R w v
  mem_outerPointers : ∀ {v w ref}, R v w → (ref ∈ v.outerPointers ↔ ref ∈ w.outerPointers)
  including : ∀ {v w part other}, R v w →
    (∀ ref ∈ v.outerPointers, Option.Rel R (part ref) (other ref)) →
      R (v.including part) (w.including other)
  descend : ∀ {v w x raw segments}, R v w → Pointer.descend raw v segments = .ok (.ok x) →
    ∃ y, Pointer.descend raw w segments = .ok (.ok y) ∧ R x y

theorem Value.respected_rearranged : Value.Respected Value.Rearranged where
  symm := Rearranged.symm
  mem_outerPointers := Rearranged.mem_outerPointers
  including := Rearranged.including
  descend := Rearranged.descend

theorem Value.respected_eq : Value.Respected Eq where
  symm := Eq.symm
  mem_outerPointers := fun h => by rw [h]
  including := fun {v w part other} h hparts => by
    rw [← h]
    exact including_congr fun ref href => rel_eq (hparts ref href)
  descend := fun {v w x raw segments} h hx => ⟨x, h ▸ hx, rfl⟩

namespace Project

/-- Projects with the same files and with related values at the same places. -/
structure Alike (R : Value → Value → Prop) (p q : Project) : Prop where
  fileOf : ∀ x file, p.fileOf? x file = q.fileOf? x file
  tokens : ∀ file place, Option.Rel (fun t u => t.path = u.path ∧ R t.value u.value)
    (p.tokenAt? file place) (q.tokenAt? file place)

namespace Alike

variable {R : Value → Value → Prop} {p q : Project} {file ref target : String}
  {place : Place} {rest : List String} {t : Token} {v w : Value}

theorem exists_token (h : Alike R p q) (ht : p.tokenAt? file place = some t) :
    ∃ u, q.tokenAt? file place = some u ∧ t.path = u.path ∧ R t.value u.value := by
  have hrel := h.tokens file place
  rw [ht] at hrel
  generalize q.tokenAt? file place = found at hrel ⊢
  cases hrel with
  | some hu => exact ⟨_, rfl, hu⟩

theorem symm (hR : Value.Respected R) (h : Alike R p q) : Alike R q p where
  fileOf := fun x file => (h.fileOf x file).symm
  tokens := fun file place => by
    have hrel := h.tokens file place
    generalize p.tokenAt? file place = a at hrel ⊢
    generalize q.tokenAt? file place = b at hrel ⊢
    cases hrel with
    | none => exact .none
    | some hu => exact .some ⟨hu.1.symm, hR.symm hu.2⟩

theorem aims (h : Alike R p q) (haims : p.Aims file ref target place rest) :
    q.Aims file ref target place rest := by
  obtain ⟨⟨x, hx, htarget, hsegments⟩, t, ht⟩ := haims
  obtain ⟨u, hu, -⟩ := h.exists_token ht
  exact ⟨⟨x, hx, h.fileOf x file ▸ htarget, hsegments⟩, u, hu⟩

/-- A token that expands in one project expands to a related value in the other. -/
theorem expands (hR : Value.Respected R) (h : Alike R p q) (hv : p.Expands file place v) :
    ∃ w, q.Expands file place w ∧ R v w := by
  induction hv with
  | @intro file place t target spot rest whole part ht haims _ hdescend ih =>
    obtain ⟨u, hu, -, hvalue⟩ := h.exists_token ht
    have hparts : ∀ ref ∈ t.value.outerPointers, ∃ y, q.Stands file ref y ∧ R (part ref) y := by
      intro ref href
      obtain ⟨whole', hexpands, hwhole⟩ := ih ref href
      obtain ⟨y, hy, hpart⟩ := hR.descend hwhole (hdescend ref href)
      exact ⟨y, ⟨_, _, _, whole', h.aims (haims ref href), hexpands, hy⟩, hpart⟩
    choose! part' hstands hpart using hparts
    refine ⟨_, expands_of_stands hu fun ref href => hstands ref ?_, ?_⟩
    · exact (hR.mem_outerPointers hvalue).mpr href
    · exact hR.including hvalue fun ref href => .some (hpart ref href)

theorem stands (hR : Value.Respected R) (h : Alike R p q) (hv : p.Stands file ref v) :
    ∃ w, q.Stands file ref w ∧ R v w := by
  obtain ⟨target, place, rest, whole, haims, hexpands, hdescend⟩ := hv
  obtain ⟨whole', hexpands', hwhole⟩ := h.expands hR hexpands
  obtain ⟨y, hy, hpart⟩ := hR.descend hwhole hdescend
  exact ⟨y, ⟨target, place, rest, whole', h.aims haims, hexpands', hy⟩, hpart⟩

/-- What a pointer stands for is related. -/
theorem rel_part (hR : Value.Respected R) (h : Alike R p q) (file ref : String) :
    Option.Rel R (p.part file ref) (q.part file ref) := by
  cases hp : p.part file ref with
  | some v =>
    obtain ⟨w, hw, hrel⟩ := h.stands hR (part_eq_some_iff.mp hp)
    rw [part_eq_some_iff.mpr hw]
    exact .some hrel
  | none =>
    have hq : q.part file ref = none := by
      refine part_eq_none fun w hw => ?_
      obtain ⟨v, hv, -⟩ := (h.symm hR).stands hR hw
      rw [part_eq_some_iff.mpr hv] at hp
      cases hp
    rw [hq]
    exact .none

end Alike

end Project

/-! ### Rearranged documents -/

/-- Whether the tokens at one place of two trees have rearranged values, if there are any. -/
def SameTokens (a b : Option Token) : Prop :=
  Option.Rel (fun t u : Token => t.value.Rearranged u.value) a b

namespace Value.Rearranged

variable {v w : Value} {members others : List (String × Value)}

/-- The children of groups that are built of rearranged members. -/
theorem sameTokens_children {place : Place}
    (ih : ∀ {v w : Value}, v.Rearranged w → v.KeysDistinct →
      ∀ key path parent inherited path' parent' inherited',
        SameTokens ((Node.build? key path parent inherited v).bind fun n => n.tokenAt? place)
          ((Node.build? key path' parent' inherited' w).bind fun n => n.tokenAt? place))
    (h : (Value.object members).Rearranged (.object others))
    (hkeys : (Value.object members).KeysDistinct) (key path path' : String)
    (inherited inherited' : Option String) :
    SameTokens
      ((Table.get? (Node.buildChildren path inherited members) key).bind fun n => n.tokenAt? place)
      ((Table.get? (Node.buildChildren path' inherited' others) key).bind
        fun n => n.tokenAt? place) := by
  obtain ⟨hnodup, hbelow⟩ := everyObject_object.mp hkeys
  obtain ⟨hnodup', -⟩ := everyObject_object.mp (h.keysDistinct hkeys)
  cases hkey : metadataKey? key with
  | some name =>
    rw [Node.get?_buildChildren_of_some hkey, Node.get?_buildChildren_of_some hkey]
    exact .none
  | none =>
    rw [Node.get?_buildChildren hnodup hkey, Node.get?_buildChildren hnodup' hkey,
      Option.bind_assoc, Option.bind_assoc]
    exact rel_bind (h.rel_get? key) fun u w hget hvalue =>
      ih hvalue (hbelow _ (Table.mem_of_get? hget)) key _ _ _ _ _ _

/-- Rearranged values are built into trees with rearranged values at every place, whatever is
inherited. -/
theorem sameTokens_build? (place : Place) {v w : Value} (h : v.Rearranged w)
    (hkeys : v.KeysDistinct) (key path parent : String) (inherited : Option String)
    (path' parent' : String) (inherited' : Option String) :
    SameTokens ((Node.build? key path parent inherited v).bind fun n => n.tokenAt? place)
      ((Node.build? key path' parent' inherited' w).bind fun n => n.tokenAt? place) := by
  cases v with
  | object members =>
    obtain ⟨others, rfl⟩ := h.exists_members
    rw [Node.build?, Node.build?]
    dsimp only
    rw [← h.has_eq]
    by_cases hvalue : Table.has members valueKey = true
    · rw [if_pos hvalue, if_pos hvalue, Option.bind_some, Option.bind_some]
      cases place with
      | nil => exact .some (h.getD_get? valueKey)
      | cons next place => exact .none
    · rw [if_neg hvalue, if_neg hvalue, Option.bind_some, Option.bind_some]
      cases place with
      | nil => exact .none
      | cons next place =>
        rw [Node.tokenAt?_group_cons, Node.tokenAt?_group_cons]
        exact sameTokens_children (sameTokens_build? place) h hkeys _ _ _ _ _
  | _ =>
    rw [Node.build?_of_not_object rfl, Node.build?_of_not_object (h.isObject_eq ▸ rfl)]
    exact .none
termination_by place.length

/-- Rearranged documents are built into trees with rearranged values at every place. -/
theorem sameTokens_build (h : v.Rearranged w) (hkeys : v.KeysDistinct) (place : Place) :
    SameTokens ((Group.build v).tokenAt? place) ((Group.build w).tokenAt? place) := by
  cases place with
  | nil => exact .none
  | cons key place =>
    show SameTokens
      ((Node.group (Group.build v).label (Group.build v).children).tokenAt? (key :: place))
      ((Node.group (Group.build w).label (Group.build w).children).tokenAt? (key :: place))
    rw [Node.tokenAt?_group_cons, Node.tokenAt?_group_cons]
    cases v with
    | object members =>
      obtain ⟨others, rfl⟩ := h.exists_members
      exact sameTokens_children (sameTokens_build? place) h hkeys _ _ _ _ _
    | _ =>
      cases w with
      | object others => cases h.isObject_eq
      | _ => exact .none

end Value.Rearranged

end DesignTokens
