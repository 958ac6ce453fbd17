import DesignTokens.Proofs.Merge.Members

/-!
# The entries of a document

A place leads down through the groups of a document: `Value.entryAt?` is the entry there,
a token, a group or something else.  The members that begin with a dollar sign belong to
the group itself and are no entries, and tokens are not entered.

`Value.statedTypes` are the types that the groups and tokens of a document state.  The
root counts as a group, whatever its members are.
-/

namespace DesignTokens

namespace Value

/-- A document is an object in which no object has a key twice. -/
structure IsDocument (v : Value) : Prop where
  object : v.isObject = true
  keys : v.KeysDistinct

instance (v : Value) : Decidable v.IsDocument :=
  decidable_of_iff (v.isObject = true ∧ v.KeysDistinct) ⟨fun h => ⟨h.1, h.2⟩, fun h => ⟨h.1, h.2⟩⟩

theorem IsDocument.exists_members {v : Value} (h : v.IsDocument) :
    ∃ members : Table String Value, v = .object members := by
  cases v with
  | object members => exact ⟨members, rfl⟩
  | _ => cases h.object

/-- The entry of a group under a key. -/
def entryUnder? (v : Value) (key : String) : Option Value :=
  if v.isGroup && !Conflict.isOwnKey key then v.member? key else none

/-- The entry of a document at a place. -/
def entryAt? : Value → Place → Option Value
  | v, [] => some v
  | v, key :: place => (v.entryUnder? key).bind fun w => w.entryAt? place

/-- Some members are those of the token at a place. -/
def TokenAt (v : Value) (place : Place) (members : Table String Value) : Prop :=
  v.entryAt? place = some (.object members) ∧ members.has valueKey = true

/-- Some members are those of the group at a place. -/
def GroupAt (v : Value) (place : Place) (members : Table String Value) : Prop :=
  v.entryAt? place = some (.object members) ∧ members.has valueKey = false

/-- No entry at a place or on the way to it is anything but an object. -/
def LeavesOpen (v : Value) (place : Place) : Prop :=
  ∀ front, front <+: place → ∀ w, v.entryAt? front = some w → w.isObject = true

/-- The keys of the group at a place; none if there is no group. -/
def keysAt (v : Value) (place : Place) : List String :=
  match v.entryAt? place with
  | some (.object members) => if Table.has members valueKey then [] else Table.keys members
  | _ => []

theorem entryUnder?_group {members : Table String Value} {key : String}
    (h : members.has valueKey = false) (hkey : Conflict.isOwnKey key = false) :
    (Value.object members).entryUnder? key = members.get? key := by
  simp [entryUnder?, h, hkey, member?, members?]

theorem entryUnder?_own {v : Value} {key : String} (hkey : Conflict.isOwnKey key = true) :
    v.entryUnder? key = none := by
  simp [entryUnder?, hkey]

theorem entryUnder?_token {members : Table String Value} {key : String}
    (h : members.has valueKey = true) : (Value.object members).entryUnder? key = none := by
  simp [entryUnder?, h]

theorem entryUnder?_of_not_object {v : Value} {key : String} (h : v.isObject = false) :
    v.entryUnder? key = none := by
  cases v with
  | object members => cases h
  | _ => rfl

theorem entryUnder?_eq_some {v w : Value} {key : String} (h : v.entryUnder? key = some w) :
    ∃ members : Table String Value, v = .object members ∧ members.has valueKey = false ∧
      Conflict.isOwnKey key = false ∧ members.get? key = some w := by
  have hgroup : v.isGroup = true ∧ Conflict.isOwnKey key = false := by
    by_contra hnot
    rw [entryUnder?, if_neg (by simpa using hnot)] at h
    cases h
  obtain ⟨members, rfl, hvalue⟩ := eq_object_of_isGroup hgroup.1
  rw [entryUnder?_group hvalue hgroup.2] at h
  exact ⟨members, rfl, hvalue, hgroup.2, h⟩

theorem entryAt?_cons (v : Value) (key : String) (place : Place) :
    v.entryAt? (key :: place) = (v.entryUnder? key).bind fun w => w.entryAt? place := rfl

theorem entryAt?_cons_eq_some {v w : Value} {key : String} {place : Place} :
    v.entryAt? (key :: place) = some w ↔
      ∃ u, v.entryUnder? key = some u ∧ u.entryAt? place = some w := Option.bind_eq_some_iff

theorem entryAt?_append (v : Value) (front rest : Place) :
    v.entryAt? (front ++ rest) = (v.entryAt? front).bind fun w => w.entryAt? rest := by
  induction front generalizing v with
  | nil => rfl
  | cons key front ih =>
    rw [List.cons_append, entryAt?_cons, entryAt?_cons, Option.bind_assoc]
    exact congrArg _ (funext fun w => ih w)

theorem isObject_of_entryAt?_cons {v w : Value} {key : String} {place : Place}
    (h : v.entryAt? (key :: place) = some w) : v.isObject = true := by
  cases hobject : v.isObject with
  | true => rfl
  | false =>
    rw [entryAt?_cons, entryUnder?_of_not_object hobject] at h
    cases h

theorem isObject_of_prefix {v u w : Value} {front place : Place} (hw : v.entryAt? place = some w)
    (hfront : front <+: place) (hne : front ≠ place) (hu : v.entryAt? front = some u) :
    u.isObject = true := by
  obtain ⟨rest, rfl⟩ := hfront
  rw [entryAt?_append, hu] at hw
  cases rest with
  | nil => exact absurd (List.append_nil front).symm hne
  | cons key rest => exact isObject_of_entryAt?_cons hw

theorem keysAt_group {v : Value} {place : Place} {members : Table String Value}
    (h : v.entryAt? place = some (.object members)) (hgroup : members.has valueKey = false) :
    v.keysAt place = members.keys := by
  rw [keysAt, h]
  simp [hgroup]

theorem keysAt_of_not_object {v w : Value} {place : Place} (h : v.entryAt? place = some w)
    (hw : w.isObject = false) : v.keysAt place = [] := by
  rw [keysAt, h]
  cases w with
  | object members => cases hw
  | _ => rfl

theorem keysAt_of_none {v : Value} {place : Place} (h : v.entryAt? place = none) :
    v.keysAt place = [] := by
  rw [keysAt, h]

/-! ### Types -/

mutual

/-- The types that an entry and the entries below it state. -/
def entryTypes : Value → List Value
  | .object members =>
    (Table.get? members typeKey).toList ++
      if Table.has members valueKey then [] else entryTypesBelow members
  | _ => []

/-- The types that the entries of a group and the entries below them state. -/
def entryTypesBelow : List (String × Value) → List Value
  | [] => []
  | (key, v) :: members =>
    (if Conflict.isOwnKey key then [] else v.entryTypes) ++ entryTypesBelow members

end

/-- The types that the groups and the tokens of a document state. -/
def statedTypes : Value → List Value
  | .object members => (Table.get? members typeKey).toList ++ entryTypesBelow members
  | _ => []

theorem mem_entryTypesBelow {members : List (String × Value)} {t : Value} :
    t ∈ entryTypesBelow members ↔
      ∃ m ∈ members, Conflict.isOwnKey m.1 = false ∧ t ∈ m.2.entryTypes := by
  induction members with
  | nil => simp [entryTypesBelow]
  | cons m members ih =>
    obtain ⟨key, v⟩ := m
    rw [entryTypesBelow, List.mem_append, ih]
    cases hown : Conflict.isOwnKey key with
    | true => simp [hown]
    | false => simp [hown]

variable {members : Table String Value} {key : String} {t v : Value}

theorem mem_entryTypes_of_type (h : members.get? typeKey = some t) :
    t ∈ (Value.object members).entryTypes := by
  rw [entryTypes, h]
  exact List.mem_append_left _ List.mem_cons_self

theorem mem_entryTypes_of_entry (hgroup : members.has valueKey = false)
    (hkey : Conflict.isOwnKey key = false) (hv : members.get? key = some v) (h : t ∈ v.entryTypes) :
    t ∈ (Value.object members).entryTypes := by
  rw [entryTypes, hgroup]
  exact List.mem_append_right _
    (mem_entryTypesBelow.mpr ⟨(key, v), Table.mem_of_get? hv, hkey, h⟩)

theorem entryTypes_of_isGroup (h : v.isGroup = true) : v.entryTypes = v.statedTypes := by
  obtain ⟨members, rfl, hgroup⟩ := eq_object_of_isGroup h
  rw [entryTypes, hgroup]
  rfl

end Value

namespace Merge

/-- A palette with a typed group, in which a token has no type of its own. -/
def palette : Value :=
  .object [("colors", .object [("$type", .text "color"),
    ("base", .object [("$value", .object [("hex", .text "#111"), ("alpha", .int 1)])])]),
    ("gap", .object [("$value", .int 4), ("$type", .text "number")])]

/-- A change to the palette: the token states its type now, and a group is new. -/
def darkPalette : Value :=
  .object [("sizes", .object [("m", .object [("$value", .int 8)])]),
    ("colors", .object [("base", .object [("$type", .text "color"),
      ("$value", .object [("hex", .text "#eee")]), ("$extensions", .object [])])])]

end Merge

end DesignTokens
