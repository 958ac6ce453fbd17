import DesignTokens.Proofs.Merge.Keyed

/-!
# Entries with texts for keys

`Keyed.respelled` writes the keys of the groups of an entry as texts, however deep the groups
are; tokens, and what stands under a key that begins with a dollar sign, stay as they are.
`Keyed.withTextKeys` does the same for a document, whose root counts as a group whatever its
members are.  Where the keys of the groups are texts already, nothing changes
(`withTextKeys_of_hasTextKeys`).
-/

namespace DesignTokens

namespace Keyed

/-! ### Documents -/

mutual

/-- Whether no object has a key twice, in the objects that are reached through objects. -/
def keysDistinct : Keyed → Bool
  | .object members => decide (Table.keys members).Nodup && membersDistinct members
  | _ => true

def membersDistinct : List (Key × Keyed) → Bool
  | [] => true
  | (_, v) :: members => v.keysDistinct && membersDistinct members

end

/-- A document is an object in which no object has a key twice. -/
structure IsDocument (v : Keyed) : Prop where
  object : ∃ members, v = .object members
  keys : v.keysDistinct = true

mutual

/-- The types that an entry and the entries below it state. -/
def entryTypes : Keyed → List Keyed
  | .object members =>
    (Table.get? members (.text typeKey)).toList ++
      if Table.has members (.text valueKey) then [] else entryTypesBelow members
  | _ => []

def entryTypesBelow : List (Key × Keyed) → List Keyed
  | [] => []
  | (key, v) :: members =>
    (if Conflict.isOwnKey key.spelling then [] else v.entryTypes) ++ entryTypesBelow members

end

/-- The types that the groups and the tokens of a document state. -/
def statedTypes (v : Keyed) : List Keyed := v.typeOf.toList ++ entryTypesBelow v.members

/-! ### Texts for keys -/

mutual

/-- An entry with texts for the keys of its groups. -/
def respelled : Keyed → Keyed
  | .object members =>
    if Table.has members (.text valueKey) then .object members
    else ofTable (Table.ofPairs (respelledMembers members))
  | v => v

def respelledMembers : List (Key × Keyed) → List (String × Keyed)
  | [] => []
  | (key, v) :: members =>
    (key.spelling, if Conflict.isOwnKey key.spelling then v else v.respelled) ::
      respelledMembers members

end

/-- A document with texts for the keys of its groups. -/
def withTextKeys (v : Keyed) : Keyed := ofTable (Table.ofPairs (respelledMembers v.members))

mutual

/-- Whether the keys of the groups of an entry are texts. -/
def entryHasTextKeys : Keyed → Bool
  | .object members => Table.has members (.text valueKey) || textKeysBelow members
  | _ => true

def textKeysBelow : List (Key × Keyed) → Bool
  | [] => true
  | (key, v) :: members =>
    decide (key = .text key.spelling) &&
      (Conflict.isOwnKey key.spelling || v.entryHasTextKeys) && textKeysBelow members

end

/-- Whether the keys of the groups of a document are texts. -/
def hasTextKeys (v : Keyed) : Bool := textKeysBelow v.members

variable {members : List (Key × Keyed)} {t : Table String Keyed} {key : String} {t' v : Keyed}

/-! ### Members of documents -/

theorem keysDistinct_object :
    (Keyed.object members).keysDistinct = true ↔
      (Table.keys members).Nodup ∧ ∀ m ∈ members, m.2.keysDistinct = true := by
  have hbelow : membersDistinct members = true ↔ ∀ m ∈ members, m.2.keysDistinct = true := by
    induction members with
    | nil => simp [membersDistinct]
    | cons m members ih =>
      obtain ⟨key, v⟩ := m
      rw [membersDistinct, Bool.and_eq_true, ih, List.forall_mem_cons]
  rw [keysDistinct, Bool.and_eq_true, decide_eq_true_eq, hbelow]

theorem keysDistinct_entry (h : (Keyed.object members).keysDistinct = true)
    (hv : (textKeys members).get? key = some v) : v.keysDistinct = true := by
  obtain ⟨m, hm, -, rfl⟩ := exists_mem_of_get?_textKeys hv
  exact (keysDistinct_object.mp h).2 m hm

theorem mem_entryTypesBelow :
    t' ∈ entryTypesBelow members ↔
      ∃ m ∈ members, Conflict.isOwnKey m.1.spelling = false ∧ t' ∈ m.2.entryTypes := by
  induction members with
  | nil => simp [entryTypesBelow]
  | cons m members ih =>
    obtain ⟨key, v⟩ := m
    rw [entryTypesBelow, List.mem_append, ih]
    cases hown : Conflict.isOwnKey key.spelling with
    | true => simp [hown]
    | false => simp [hown]

theorem mem_entryTypesBelow_of_entry (hown : Conflict.isOwnKey key = false)
    (hv : (textKeys members).get? key = some v) (h : t' ∈ v.entryTypes) :
    t' ∈ entryTypesBelow members := by
  obtain ⟨m, hm, rfl, rfl⟩ := exists_mem_of_get?_textKeys hv
  exact mem_entryTypesBelow.mpr ⟨m, hm, hown, h⟩

/-! ### Members of entries with texts for keys -/

/-- What a member of a group becomes when the keys below it are written as texts. -/
def respelledMember (key : String) (v : Keyed) : Keyed :=
  if Conflict.isOwnKey key then v else v.respelled

theorem respelledMember_own (h : Conflict.isOwnKey key = true) : respelledMember key v = v :=
  if_pos h

theorem respelledMember_entry (h : Conflict.isOwnKey key = false) :
    respelledMember key v = v.respelled := by
  rw [respelledMember, h]
  rfl

def respelledTable (t : Table String Keyed) : Table String Keyed :=
  t.map fun m => (m.1, respelledMember m.1 m.2)

theorem keys_respelledTable (t : Table String Keyed) : (respelledTable t).keys = t.keys :=
  Table.keys_map respelledMember

theorem get?_respelledTable (t : Table String Keyed) (key : String) :
    (respelledTable t).get? key = (t.get? key).map (respelledMember key) :=
  Table.get?_map respelledMember

theorem get?_respelledTable_own (h : Conflict.isOwnKey key = true) :
    (respelledTable t).get? key = t.get? key := by
  rw [get?_respelledTable]
  cases t.get? key with
  | none => rfl
  | some v => exact congrArg some (respelledMember_own h)

theorem respelledMembers_eq :
    Table.ofPairs (respelledMembers members) = respelledTable (textKeys members) := by
  have hmap : respelledMembers members =
      (members.map fun m => (m.1.spelling, m.2)).map fun m => (m.1, respelledMember m.1 m.2) := by
    rw [List.map_map]
    induction members with
    | nil => rw [respelledMembers, List.map_nil]
    | cons m members ih =>
      obtain ⟨key, v⟩ := m
      rw [respelledMembers, List.map_cons, ih]
      rfl
  rw [hmap, Table.ofPairs_map]
  rfl

theorem respelled_token (h : Table.has members (.text valueKey) = true) :
    (Keyed.object members).respelled = .object members := by
  rw [respelled, if_pos h]

theorem respelled_group (h : Table.has members (.text valueKey) = false) :
    (Keyed.object members).respelled = ofTable (respelledTable (textKeys members)) := by
  rw [respelled, h, respelledMembers_eq]
  rfl

theorem withTextKeys_object :
    (Keyed.object members).withTextKeys = ofTable (respelledTable (textKeys members)) :=
  congrArg ofTable respelledMembers_eq

theorem has_respelledTable_value : (respelledTable t).has valueKey = t.has valueKey := by
  rw [Table.has, get?_respelledTable_own Merge.isOwnKey_valueKey]
  rfl

theorem respelled_ofTable (hkeys : t.keys.Nodup) (h : t.has valueKey = false) :
    (ofTable t).respelled = ofTable (respelledTable t) := by
  have hgroup : Table.has (t.map fun m => (Key.text m.1, m.2)) (.text valueKey) = false :=
    (isToken_ofTable t).trans h
  rw [ofTable, respelled_group hgroup, textKeys_map_text hkeys]

/-- Texts are written as they are. -/
theorem respelled_respelled (v : Keyed) : v.respelled.respelled = v.respelled := by
  induction v using inductionOn with
  | object members ih =>
    cases hvalue : Table.has members (.text valueKey) with
    | true => rw [respelled_token hvalue, respelled_token hvalue]
    | false =>
      have hkeys := nodup_keys_textKeys members
      rw [respelled_group hvalue, respelled_ofTable]
      · refine congrArg ofTable (Table.ext_get? (keys_respelledTable _) ?_ fun key _ => ?_)
        · rwa [keys_respelledTable, keys_respelledTable]
        rw [get?_respelledTable]
        cases hget : (respelledTable (textKeys members)).get? key with
        | none => rfl
        | some w =>
          rw [get?_respelledTable, Option.map_eq_some_iff] at hget
          obtain ⟨x, hx, rfl⟩ := hget
          obtain ⟨m, hm, -, rfl⟩ := exists_mem_of_get?_textKeys hx
          refine congrArg some ?_
          cases hown : Conflict.isOwnKey key with
          | true => exact respelledMember_own hown
          | false => rw [respelledMember_entry hown, respelledMember_entry hown, ih m hm]
      · rwa [keys_respelledTable]
      · rw [has_respelledTable_value, has_textKeys_value, hvalue]
  | _ => rfl

theorem isToken_respelled (v : Keyed) : v.respelled.isToken = v.isToken := by
  cases v with
  | object members =>
    cases hvalue : Table.has members (.text valueKey) with
    | true => rw [respelled_token hvalue]
    | false =>
      rw [respelled_group hvalue, isToken_ofTable, has_respelledTable_value, has_textKeys_value]
      rfl
  | _ => rfl

theorem isGroup_respelled (v : Keyed) : v.respelled.isGroup = v.isGroup := by
  cases v with
  | object members =>
    cases hvalue : Table.has members (.text valueKey) with
    | true => rw [respelled_token hvalue]
    | false =>
      have htoken := isToken_respelled (.object members)
      rw [respelled_group hvalue] at htoken ⊢
      exact congrArg (!·) htoken
  | _ => rfl

/-! ### Keys that are texts -/

theorem textKeysBelow_iff :
    textKeysBelow members = true ↔
      ∀ m ∈ members, m.1 = .text m.1.spelling ∧
        (Conflict.isOwnKey m.1.spelling = false → m.2.entryHasTextKeys = true) := by
  induction members with
  | nil => simp [textKeysBelow]
  | cons m members ih =>
    obtain ⟨key, v⟩ := m
    rw [textKeysBelow, Bool.and_eq_true, Bool.and_eq_true, decide_eq_true_eq, ih,
      List.forall_mem_cons]
    cases Conflict.isOwnKey key.spelling <;> simp

/-- Members under texts are the same members, if nothing changes below them. -/
theorem ofTable_respelledTable (hkeys : (Table.keys members).Nodup)
    (htexts : ∀ m ∈ members, m.1 = .text m.1.spelling)
    (hentries : ∀ m ∈ members, Conflict.isOwnKey m.1.spelling = false → m.2.respelled = m.2) :
    ofTable (respelledTable (textKeys members)) = .object members := by
  have hback : (members.map fun m => (m.1.spelling, m.2)).map (fun m => (Key.text m.1, m.2)) =
      members := by
    rw [List.map_map]
    refine (List.map_congr_left (g := id) fun m hm => ?_).trans (List.map_id members)
    exact Prod.ext (htexts m hm).symm rfl
  have htable : textKeys members = members.map fun m => (m.1.spelling, m.2) := by
    refine Table.ofPairs_eq_self (List.Nodup.of_map Key.text ?_)
    rw [← hback] at hkeys
    simpa [Table.keys, List.map_map, Function.comp_def] using hkeys
  have hsame : respelledTable (textKeys members) = textKeys members := by
    refine (List.map_congr_left (g := id) fun m hm => ?_).trans (List.map_id _)
    rw [htable] at hm
    obtain ⟨n, hn, rfl⟩ := List.mem_map.mp hm
    rw [respelledMember]
    split
    · rfl
    · rename_i hown
      rw [hentries n hn (by simpa using hown)]
      rfl
  rw [hsame, htable, ofTable, hback]

theorem respelled_of_entryHasTextKeys (hkeys : v.keysDistinct = true)
    (h : v.entryHasTextKeys = true) : v.respelled = v := by
  induction v using inductionOn with
  | object members ih =>
    obtain ⟨hnodup, hbelow⟩ := keysDistinct_object.mp hkeys
    cases hvalue : Table.has members (.text valueKey) with
    | true => exact respelled_token hvalue
    | false =>
      rw [entryHasTextKeys, hvalue, Bool.false_or, textKeysBelow_iff] at h
      rw [respelled_group hvalue]
      exact ofTable_respelledTable hnodup (fun m hm => (h m hm).1)
        fun m hm hown => ih m hm (hbelow m hm) ((h m hm).2 hown)
  | _ => rfl

theorem withTextKeys_of_hasTextKeys (hv : v.IsDocument) (h : v.hasTextKeys = true) :
    v.withTextKeys = v := by
  obtain ⟨⟨members, rfl⟩, hkeys⟩ := hv
  obtain ⟨hnodup, hbelow⟩ := keysDistinct_object.mp hkeys
  rw [hasTextKeys, Keyed.members, textKeysBelow_iff] at h
  rw [withTextKeys_object]
  exact ofTable_respelledTable hnodup (fun m hm => (h m hm).1)
    fun m hm hown => respelled_of_entryHasTextKeys (hbelow m hm) ((h m hm).2 hown)

end Keyed

end DesignTokens
