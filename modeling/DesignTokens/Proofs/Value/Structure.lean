import DesignTokens.Reference.Scan
import Mathlib.Data.List.Forall2

/-!
# Values by their structure

`Value.inductionOn` is induction over a value with the items of a list and the
members of an object taken together.  `EveryObject P` says that all objects of
a value, however deep, have their members in `P`; three such properties occur
in what is said of documents:

* `KeysDistinct` — every key of an object stands once, as in every document
  that is read;
* `RefsAreTexts` — a `$ref` member is a text wherever there is one;
* `NoRefs` — there is no `$ref` member.
-/

namespace DesignTokens.Value

/-! ### Results of steps that can fail -/

theorem bind_eq_ok {ε α β : Type} {x : Except ε α} {next : α → Except ε β} {b : β} :
    (x >>= next) = .ok b ↔ ∃ a, x = .ok a ∧ next a = .ok b := by
  cases x with
  | error e =>
    constructor
    · intro h
      cases h
    · rintro ⟨_, h, _⟩
      cases h
  | ok a => exact ⟨fun h => ⟨a, rfl, h⟩, fun ⟨_, ha, h⟩ => Except.ok.inj ha ▸ h⟩

theorem map_eq_ok {ε α β : Type} {x : Except ε α} {next : α → β} {b : β} :
    x.map next = .ok b ↔ ∃ a, x = .ok a ∧ next a = b := by
  cases x with
  | error e =>
    constructor
    · intro h
      cases h
    · rintro ⟨_, h, _⟩
      cases h
  | ok a =>
    refine ⟨fun h => ⟨a, rfl, Except.ok.inj h⟩, ?_⟩
    rintro ⟨_, ha, rfl⟩
    rw [← Except.ok.inj ha]
    rfl

/-! ### Values in values -/

/-- Induction over the values in a value. -/
@[elab_as_elim]
theorem inductionOn {motive : Value → Prop} (null : motive .null) (bool : ∀ b, motive (.bool b))
    (int : ∀ n, motive (.int n)) (real : ∀ x, motive (.real x)) (text : ∀ s, motive (.text s))
    (list : ∀ items, (∀ v ∈ items, motive v) → motive (.list items))
    (object : ∀ members, (∀ m ∈ members, motive m.2) → motive (.object members)) :
    ∀ v, motive v := by
  refine @Value.rec motive (fun items => ∀ v ∈ items, motive v)
    (fun members => ∀ m ∈ members, motive m.2) (fun m => motive m.2)
    null bool int real text list object ?_ ?_ ?_ ?_ fun _ _ h => h
  · exact fun _ h => absurd h List.not_mem_nil
  · intro first items hfirst hitems v hv
    rcases List.mem_cons.mp hv with rfl | hv
    · exact hfirst
    · exact hitems v hv
  · exact fun _ h => absurd h List.not_mem_nil
  · intro first members hfirst hmembers m hm
    rcases List.mem_cons.mp hm with rfl | hm
    · exact hfirst
    · exact hmembers m hm

theorem exists_mem_of_forall₂ {α β : Type} {R : α → β → Prop} {l : List α} {u : List β}
    (h : List.Forall₂ R l u) {b : β} (hb : b ∈ u) : ∃ a ∈ l, R a b := by
  induction h with
  | nil => exact absurd hb List.not_mem_nil
  | cons hab _ ih =>
    rcases List.mem_cons.mp hb with rfl | hb
    · exact ⟨_, List.mem_cons_self, hab⟩
    · obtain ⟨a, ha, hab⟩ := ih hb
      exact ⟨a, List.mem_cons_of_mem _ ha, hab⟩

mutual

/-- Whether the members of every object in a value have a property. -/
def EveryObject (P : List (String × Value) → Prop) : Value → Prop
  | .list items => EveryObjectItems P items
  | .object members => P members ∧ EveryObjectMembers P members
  | _ => True

/-- Whether the members of every object in the items of a list have a property. -/
def EveryObjectItems (P : List (String × Value) → Prop) : List Value → Prop
  | [] => True
  | v :: items => v.EveryObject P ∧ EveryObjectItems P items

def EveryObjectMembers (P : List (String × Value) → Prop) : List (String × Value) → Prop
  | [] => True
  | (_, v) :: members => v.EveryObject P ∧ EveryObjectMembers P members

end

variable {P Q : List (String × Value) → Prop}

@[simp] theorem everyObject_list {items : List Value} :
    EveryObject P (.list items) ↔ ∀ v ∈ items, v.EveryObject P := by
  rw [EveryObject]
  induction items with
  | nil => simp [EveryObjectItems]
  | cons v items ih => rw [EveryObjectItems, ih, List.forall_mem_cons]

@[simp] theorem everyObject_object {members : List (String × Value)} :
    EveryObject P (.object members) ↔ P members ∧ ∀ m ∈ members, m.2.EveryObject P := by
  rw [EveryObject]
  have hmembers : EveryObjectMembers P members ↔ ∀ m ∈ members, m.2.EveryObject P := by
    induction members with
    | nil => simp [EveryObjectMembers]
    | cons m members ih =>
      obtain ⟨key, v⟩ := m
      rw [EveryObjectMembers, ih, List.forall_mem_cons]
  rw [hmembers]

theorem EveryObject.imp (hPQ : ∀ members, P members → Q members) {v : Value}
    (h : v.EveryObject P) : v.EveryObject Q := by
  induction v using inductionOn with
  | list items ih =>
    rw [everyObject_list] at h ⊢
    exact fun v hv => ih v hv (h v hv)
  | object members ih =>
    rw [everyObject_object] at h ⊢
    exact ⟨hPQ _ h.1, fun m hm => ih m hm (h.2 m hm)⟩
  | _ => trivial

mutual

/-- A property of objects that can be decided can be decided for a whole value. -/
def decideEveryObject (P : List (String × Value) → Prop) [DecidablePred P] :
    (v : Value) → Decidable (v.EveryObject P)
  | .list items => decideEveryObjectItems P items
  | .object members => @instDecidableAnd _ _ _ (decideEveryObjectMembers P members)
  | .null => isTrue trivial
  | .bool _ => isTrue trivial
  | .int _ => isTrue trivial
  | .real _ => isTrue trivial
  | .text _ => isTrue trivial

def decideEveryObjectItems (P : List (String × Value) → Prop) [DecidablePred P] :
    (items : List Value) → Decidable (EveryObjectItems P items)
  | [] => isTrue trivial
  | v :: items => @instDecidableAnd _ _ (decideEveryObject P v) (decideEveryObjectItems P items)

def decideEveryObjectMembers (P : List (String × Value) → Prop) [DecidablePred P] :
    (members : List (String × Value)) → Decidable (EveryObjectMembers P members)
  | [] => isTrue trivial
  | (_, v) :: members =>
    @instDecidableAnd _ _ (decideEveryObject P v) (decideEveryObjectMembers P members)

end

instance (P : List (String × Value) → Prop) [DecidablePred P] (v : Value) :
    Decidable (v.EveryObject P) := decideEveryObject P v

/-- Every key of an object stands once. -/
def KeysDistinct (v : Value) : Prop := v.EveryObject fun members => (members.map Prod.fst).Nodup

instance (v : Value) : Decidable v.KeysDistinct :=
  inferInstanceAs (Decidable (v.EveryObject fun members => (members.map Prod.fst).Nodup))

/-- A `$ref` member is a text wherever there is one. -/
def RefsAreTexts (v : Value) : Prop :=
  v.EveryObject fun members => ∀ m ∈ members, m.1 = pointerKey → ∃ s, m.2 = .text s

instance (v : Value) : Decidable (∃ s, v = .text s) :=
  decidable_of_iff (v.text?.isSome = true) <| by
    cases v <;> simp [text?]

instance (v : Value) : Decidable v.RefsAreTexts :=
  inferInstanceAs (Decidable (v.EveryObject fun members =>
    ∀ m ∈ members, m.1 = pointerKey → ∃ s, m.2 = .text s))

/-- There is no `$ref` member. -/
def NoRefs (v : Value) : Prop := v.EveryObject fun members => ∀ m ∈ members, m.1 ≠ pointerKey

instance (v : Value) : Decidable v.NoRefs :=
  inferInstanceAs (Decidable (v.EveryObject fun members => ∀ m ∈ members, m.1 ≠ pointerKey))

theorem NoRefs.refsAreTexts {v : Value} (h : v.NoRefs) : v.RefsAreTexts :=
  EveryObject.imp (fun _ hm m hmem hkey => absurd hkey (hm m hmem)) h

end DesignTokens.Value
