import Mathlib.Data.List.Infix
import DesignTokens.Proofs.Merge.Entries

/-!
# The walk through two documents, place by place

`Value.entryPlaces` lists the places of the entries of a document in its order, each once.  The walk
through two documents looks at each place of the first one once, in this order (`walk_eq`): there is
a conflict at a place if a token meets a group there (`clashAt`), or if two tokens of different
types meet (`mismatchAt`).  Either way groups meet groups on the way there.

Two documents hand down one type together: of the groups above a place the nearest pair in which a
type is stated counts, and in it the second document's.  A token without a type of its own has that
type, on whichever side it stands.
-/

namespace DesignTokens

/-- The places above a place, the nearest first. -/
def Place.above (place : Place) : List Place := place.inits.dropLast.reverse

@[simp] theorem Place.above_nil : Place.above [] = [] := rfl

theorem Place.above_cons (key : String) (place : Place) :
    Place.above (key :: place) = (Place.above place).map (key :: ·) ++ [[]] := by
  have hne : place.inits.map (key :: ·) ≠ [] := by
    cases place <;> simp
  rw [above, above, List.inits_cons, List.dropLast_cons_of_ne_nil hne, List.reverse_cons,
    ← List.map_dropLast, List.map_reverse]

namespace Value

mutual

/-- The places of the entries of a document, in its order.  First stands the document. -/
def entryPlaces : Value → List Place
  | .object members => [] :: if Table.has members valueKey then [] else entryPlacesBelow members
  | _ => [[]]

def entryPlacesBelow : List (String × Value) → List Place
  | [] => []
  | (key, v) :: members =>
    (if Conflict.isOwnKey key then [] else v.entryPlaces.map (key :: ·)) ++
      entryPlacesBelow members

end

/-- The type that the entry at a place states. -/
def typeAt (v : Value) (place : Place) : Option Value := (v.entryAt? place).bind Conflict.typeOf

variable {members : Table String Value} {place front : Place} {key : String} {v w : Value}

theorem entryPlaces_token (h : members.has valueKey = true) :
    (Value.object members).entryPlaces = [[]] := by
  rw [entryPlaces, if_pos h]

theorem entryPlaces_group (h : members.has valueKey = false) :
    (Value.object members).entryPlaces = [] :: entryPlacesBelow members := by
  rw [entryPlaces, h]
  rfl

theorem entryPlaces_of_not_object (h : v.isObject = false) : v.entryPlaces = [[]] := by
  cases v with
  | object members => cases h
  | _ => rfl

theorem mem_entryPlacesBelow {members : List (String × Value)} :
    place ∈ entryPlacesBelow members ↔
      ∃ m ∈ members, Conflict.isOwnKey m.1 = false ∧
        ∃ rest ∈ m.2.entryPlaces, m.1 :: rest = place := by
  induction members with
  | nil => simp [entryPlacesBelow]
  | cons m members ih =>
    obtain ⟨key, v⟩ := m
    rw [entryPlacesBelow, List.mem_append, ih]
    by_cases hown : Conflict.isOwnKey key = true
    · simp [hown]
    · simp [hown]

theorem nil_mem_entryPlaces (v : Value) : [] ∈ v.entryPlaces := by
  cases v with
  | object members => rw [entryPlaces]; exact List.mem_cons_self
  | _ => exact List.mem_singleton.mpr rfl

/-- The places of the entries are those at which there is one. -/
theorem mem_entryPlaces (h : v.KeysDistinct) :
    place ∈ v.entryPlaces ↔ ∃ w, v.entryAt? place = some w := by
  induction place generalizing v with
  | nil => exact ⟨fun _ => ⟨v, rfl⟩, fun _ => nil_mem_entryPlaces v⟩
  | cons key rest ih =>
    constructor
    · intro hmem
      cases v with
      | object members =>
        by_cases htoken : Table.has members valueKey = true
        · rw [entryPlaces_token htoken] at hmem
          cases List.mem_singleton.mp hmem
        · have hgroup : Table.has members valueKey = false := by simpa using htoken
          rw [entryPlaces_group hgroup] at hmem
          obtain ⟨m, hm, hkey, below, hbelow, he⟩ :=
            mem_entryPlacesBelow.mp (List.mem_of_ne_of_mem (List.cons_ne_nil _ _) hmem)
          cases he
          obtain ⟨w, hw⟩ := (ih ((keysDistinct_object.mp h).2 m hm)).mp hbelow
          refine ⟨w, ?_⟩
          rw [entryAt?_cons, entryUnder?_group hgroup hkey, Table.get?_of_mem h.nodup hm]
          exact hw
      | _ =>
        rw [entryPlaces_of_not_object rfl] at hmem
        cases List.mem_singleton.mp hmem
    · rintro ⟨w, hw⟩
      obtain ⟨u, hu, hrest⟩ := entryAt?_cons_eq_some.mp hw
      obtain ⟨members, rfl, hgroup, hkey, hget⟩ := entryUnder?_eq_some hu
      rw [entryPlaces_group hgroup]
      refine List.mem_cons_of_mem _ (mem_entryPlacesBelow.mpr ?_)
      exact ⟨(key, u), Table.mem_of_get? hget, hkey, rest, (ih (h.member hget)).mpr ⟨w, hrest⟩, rfl⟩

theorem nodup_entryPlacesBelow {members : List (String × Value)}
    (hkeys : (Table.keys members).Nodup) (h : ∀ m ∈ members, m.2.entryPlaces.Nodup) :
    (entryPlacesBelow members).Nodup := by
  induction members with
  | nil => simp [entryPlacesBelow]
  | cons m members ih =>
    obtain ⟨key, v⟩ := m
    obtain ⟨hv, hmembers⟩ := List.forall_mem_cons.mp h
    obtain ⟨hnew, hrest⟩ := List.nodup_cons.mp hkeys
    rw [entryPlacesBelow, List.nodup_append']
    refine ⟨?_, ih hrest hmembers, ?_⟩
    · by_cases hown : Conflict.isOwnKey key = true
      · simp [hown]
      · simpa [hown] using hv.map List.cons_injective
    · -- a place on the left begins with the key, one on the right with a later key
      intro place hleft hright
      obtain ⟨n, hn, -, rest, -, rfl⟩ := mem_entryPlacesBelow.mp hright
      by_cases hown : Conflict.isOwnKey key = true
      · simp [hown] at hleft
      · have hkey : key = n.1 := by
          have hsame : ∃ front ∈ v.entryPlaces, key = n.1 ∧ front = rest := by
            simpa [hown] using hleft
          obtain ⟨-, -, hkey, -⟩ := hsame
          exact hkey
        exact hnew (List.mem_map.mpr ⟨n, hn, hkey.symm⟩)

theorem nodup_entryPlaces (h : v.KeysDistinct) : v.entryPlaces.Nodup := by
  induction v using Value.inductionOn with
  | object members ih =>
    by_cases htoken : Table.has members valueKey = true
    · rw [entryPlaces_token htoken]
      exact List.nodup_singleton []
    · rw [entryPlaces_group (by simpa using htoken), List.nodup_cons]
      refine ⟨fun hmem => ?_, nodup_entryPlacesBelow h.nodup fun m hm =>
        ih m hm ((keysDistinct_object.mp h).2 m hm)⟩
      obtain ⟨m, -, -, rest, -, he⟩ := mem_entryPlacesBelow.mp hmem
      cases he
  | _ =>
    rw [entryPlaces_of_not_object rfl]
    exact List.nodup_singleton []

theorem exists_groupAt_above (hw : v.entryAt? place = some w) (hfront : front <+: place)
    (hne : front ≠ place) : ∃ members, v.GroupAt front members := by
  obtain ⟨rest, rfl⟩ := hfront
  rw [entryAt?_append] at hw
  obtain ⟨u, hu, hrest⟩ := Option.bind_eq_some_iff.mp hw
  cases rest with
  | nil => exact absurd (List.append_nil front).symm hne
  | cons key rest =>
    obtain ⟨x, hx, -⟩ := entryAt?_cons_eq_some.mp hrest
    obtain ⟨members, rfl, hgroup, -⟩ := entryUnder?_eq_some hx
    exact ⟨members, hu, hgroup⟩

theorem typeAt_cons (h : v.entryUnder? key = some w) :
    v.typeAt (key :: place) = w.typeAt place := by
  rw [typeAt, entryAt?_cons, h]
  rfl

theorem firstStated_append (front rest : List (Option Value)) :
    firstStated (front ++ [firstStated rest]) = firstStated (front ++ rest) := by
  have hlast : firstStated [firstStated rest] = firstStated rest := by
    cases ht : firstStated rest with
    | none => rfl
    | some t =>
      have hstated := (firstStated_cases ht).2
      simp [firstStated, hstated]
  unfold firstStated at hlast ⊢
  rw [List.findSome?_append, List.findSome?_append, hlast]

theorem firstStated_cons_append (type : Option Value) (front rest : List (Option Value)) :
    firstStated (type :: (front ++ [firstStated rest])) = firstStated (type :: (front ++ rest)) :=
  firstStated_append (type :: front) rest

end Value

namespace Conflict

def isTypeMismatch (c : Conflict) : Bool :=
  match c.mismatch with
  | .types _ _ => true
  | .tokenAndGroup _ => false

/-- The types that two documents hand down to a place, the nearest first and in each pair of
groups that of the second document first.  Last stands what is handed down to them. -/
def typesAbove (outer : Option Value) (a b : Value) (place : Place) : List (Option Value) :=
  ((Place.above place).flatMap fun front => [b.typeAt front, a.typeAt front]) ++ [outer]

/-- The type mismatch at a place below a path, if there is one. -/
def mismatchAt (path : String) (outer : Option Value) (a b : Value) (place : Place) :
    Option Conflict := do
  let v ← (a.entryAt? place).filter Value.isToken
  let w ← (b.entryAt? place).filter Value.isToken
  let s ← Value.firstStated (a.typeAt place :: typesAbove outer a b place)
  let t ← Value.firstStated (b.typeAt place :: typesAbove outer a b place)
  if s.same t then none
  else some ⟨displayPath (place.foldl joinPath path), .types s t, v, w⟩

def isClash (c : Conflict) : Bool :=
  match c.mismatch with
  | .tokenAndGroup _ => true
  | .types _ _ => false

/-- The conflict of a token and a group at a place below a path, if there is one. -/
def clashAt (path : String) (a b : Value) (place : Place) : Option Conflict := do
  let v ← a.entryAt? place
  let w ← b.entryAt? place
  if (v.isToken && w.isGroup) || (v.isGroup && w.isToken) then
    some ⟨displayPath (place.foldl joinPath path), .tokenAndGroup v.isToken, v, w⟩
  else none

/-- The conflict at a place below a path, if there is one. -/
def conflictAt (path : String) (outer : Option Value) (a b : Value) (place : Place) :
    Option Conflict := (clashAt path a b place).or (mismatchAt path outer a b place)

/-- At a place a token meets a group, and on the way there groups meet groups. -/
structure Clashes (a b : Value) (place : Place) : Prop where
  above : ∀ front, front <+: place → front ≠ place →
    (∃ members, a.GroupAt front members) ∧ ∃ members, b.GroupAt front members
  here : ((∃ members, a.TokenAt place members) ∧ ∃ members, b.GroupAt place members) ∨
    (∃ members, a.GroupAt place members) ∧ ∃ members, b.TokenAt place members

theorem Clashes.symm {a b : Value} {place : Place} (h : Clashes a b place) : Clashes b a place where
  above front hfront hne := (h.above front hfront hne).symm
  here := h.here.symm.imp And.symm And.symm

variable {outer : Option Value} {old members others : Table String Value} {a b v w : Value}
  {path key : String} {place front : Place} {c : Conflict}

theorem mismatchAt_eq_some_iff :
    mismatchAt path outer a b place = some c ↔
      ∃ old members s t, a.TokenAt place old ∧ b.TokenAt place members ∧
        Value.firstStated (a.typeAt place :: typesAbove outer a b place) = some s ∧
          Value.firstStated (b.typeAt place :: typesAbove outer a b place) = some t ∧
            s.same t = false ∧ c = ⟨displayPath (place.foldl joinPath path), .types s t,
              .object old, .object members⟩ := by
  have hsplit : mismatchAt path outer a b place = some c ↔
      ∃ v, (a.entryAt? place).filter Value.isToken = some v ∧
        ∃ w, (b.entryAt? place).filter Value.isToken = some w ∧
          ∃ s, Value.firstStated (a.typeAt place :: typesAbove outer a b place) = some s ∧
            ∃ t, Value.firstStated (b.typeAt place :: typesAbove outer a b place) = some t ∧
              s.same t = false ∧
                ⟨displayPath (place.foldl joinPath path), .types s t, v, w⟩ = c := by
    simp only [mismatchAt, Option.bind_eq_bind, Option.bind_eq_some_iff]
    simp
  rw [hsplit]
  constructor
  · rintro ⟨v, hv, w, hw, s, hs, t, ht, hne, rfl⟩
    obtain ⟨hv, htoken⟩ := Option.filter_eq_some_iff.mp hv
    obtain ⟨hw, htoken'⟩ := Option.filter_eq_some_iff.mp hw
    obtain ⟨old, rfl, hold⟩ := Value.eq_object_of_isToken htoken
    obtain ⟨members, rfl, hmembers⟩ := Value.eq_object_of_isToken htoken'
    exact ⟨old, members, s, t, ⟨hv, hold⟩, ⟨hw, hmembers⟩, hs, ht, hne, rfl⟩
  · rintro ⟨old, members, s, t, ⟨hv, hold⟩, ⟨hw, hmembers⟩, hs, ht, hne, rfl⟩
    exact ⟨.object old, Option.filter_eq_some_iff.mpr ⟨hv, hold⟩, .object members,
      Option.filter_eq_some_iff.mpr ⟨hw, hmembers⟩, s, hs, t, ht, hne, rfl⟩

/-- Two tokens that meet at the start of a walk. -/
theorem mismatchAt_nil (hold : old.has valueKey = true) (hmembers : members.has valueKey = true) :
    [[]].filterMap (mismatchAt path outer (.object old) (.object members)) =
      ofTokens (.object old) (.object members) path outer := by
  have hv : Option.filter Value.isToken (some (Value.object old)) = some (.object old) :=
    Option.filter_eq_some_iff.mpr ⟨rfl, hold⟩
  have hw : Option.filter Value.isToken (some (Value.object members)) = some (.object members) :=
    Option.filter_eq_some_iff.mpr ⟨rfl, hmembers⟩
  have hstart : mismatchAt path outer (.object old) (.object members) [] =
      (Value.firstStated [typeOf (.object old), outer]).bind fun s =>
        (Value.firstStated [typeOf (.object members), outer]).bind fun t =>
          if s.same t then none
          else some ⟨displayPath path, .types s t, .object old, .object members⟩ := by
    simp only [mismatchAt, Value.entryAt?, hv, hw]
    rfl
  rw [List.filterMap_cons, hstart, ofTokens]
  cases Value.firstStated [typeOf (.object old), outer] with
  | none => rfl
  | some s =>
    cases Value.firstStated [typeOf (.object members), outer] with
    | none => rfl
    | some t =>
      by_cases hsame : s.same t = true
      · simp [hsame]
      · simp [hsame]

theorem typesAbove_cons (hv : a.entryUnder? key = some v) (hw : b.entryUnder? key = some w) :
    typesAbove outer a b (key :: place) =
      ((Place.above place).flatMap fun front => [w.typeAt front, v.typeAt front]) ++
        [typeOf b, typeOf a, outer] := by
  have hbelow : ∀ front, [b.typeAt (key :: front), a.typeAt (key :: front)] =
      [w.typeAt front, v.typeAt front] := by
    intro front
    rw [Value.typeAt_cons hv, Value.typeAt_cons hw]
  rw [typesAbove, Place.above_cons, List.flatMap_append, List.flatMap_map, List.append_assoc]
  simp only [hbelow]
  rfl

theorem mismatchAt_cons (hv : a.entryUnder? key = some v) (hw : b.entryUnder? key = some w) :
    mismatchAt path outer a b (key :: place) =
      mismatchAt (joinPath path key) (Value.firstStated [typeOf b, typeOf a, outer]) v w place := by
  simp only [mismatchAt, Value.entryAt?_cons, hv, hw, Option.bind_some, Value.typeAt_cons hv,
    Value.typeAt_cons hw, typesAbove_cons hv hw, List.foldl_cons]
  simp only [typesAbove, Value.firstStated_cons_append]

theorem clashAt_eq_some_iff :
    clashAt path a b place = some c ↔
      Clashes a b place ∧ ∃ v w, a.entryAt? place = some v ∧ b.entryAt? place = some w ∧
        c = ⟨displayPath (place.foldl joinPath path), .tokenAndGroup v.isToken, v, w⟩ := by
  have hsplit : clashAt path a b place = some c ↔
      ∃ v, a.entryAt? place = some v ∧ ∃ w, b.entryAt? place = some w ∧
        (v.isToken = true ∧ w.isGroup = true ∨ v.isGroup = true ∧ w.isToken = true) ∧
          ⟨displayPath (place.foldl joinPath path), .tokenAndGroup v.isToken, v, w⟩ = c := by
    simp only [clashAt, Option.bind_eq_bind, Option.bind_eq_some_iff]
    simp
  rw [hsplit]
  constructor
  · rintro ⟨v, hv, w, hw, hmeet, rfl⟩
    refine ⟨⟨fun front hfront hne => ⟨Value.exists_groupAt_above hv hfront hne,
      Value.exists_groupAt_above hw hfront hne⟩, ?_⟩, v, w, hv, hw, rfl⟩
    rcases hmeet with ⟨htoken, hgroup⟩ | ⟨hgroup, htoken⟩
    · obtain ⟨old, rfl, hold⟩ := Value.eq_object_of_isToken htoken
      obtain ⟨members, rfl, hmembers⟩ := Value.eq_object_of_isGroup hgroup
      exact Or.inl ⟨⟨old, hv, hold⟩, members, hw, hmembers⟩
    · obtain ⟨old, rfl, hold⟩ := Value.eq_object_of_isGroup hgroup
      obtain ⟨members, rfl, hmembers⟩ := Value.eq_object_of_isToken htoken
      exact Or.inr ⟨⟨old, hv, hold⟩, members, hw, hmembers⟩
  · rintro ⟨hclash, v, w, hv, hw, rfl⟩
    refine ⟨v, hv, w, hw, ?_, rfl⟩
    rcases hclash.here with ⟨⟨old, hold⟩, members, hmembers⟩ | ⟨⟨old, hold⟩, members, hmembers⟩
    · cases hv.symm.trans hold.1
      cases hw.symm.trans hmembers.1
      exact Or.inl ⟨hold.2, by simp [hmembers.2]⟩
    · cases hv.symm.trans hold.1
      cases hw.symm.trans hmembers.1
      exact Or.inr ⟨by simp [hold.2], hmembers.2⟩

/-! ### One place after the other -/

theorem clashAt_cons (hv : a.entryUnder? key = some v) (hw : b.entryUnder? key = some w) :
    clashAt path a b (key :: place) = clashAt (joinPath path key) v w place := by
  simp only [clashAt, Value.entryAt?_cons, hv, hw, Option.bind_some, List.foldl_cons]

theorem conflictAt_cons (hv : a.entryUnder? key = some v) (hw : b.entryUnder? key = some w) :
    conflictAt path outer a b (key :: place) =
      conflictAt (joinPath path key) (Value.firstStated [typeOf b, typeOf a, outer]) v w place := by
  rw [conflictAt, clashAt_cons hv hw, mismatchAt_cons hv hw]
  rfl

/-- Where there is a conflict two objects meet, and not two groups. -/
theorem exists_of_conflictAt (h : conflictAt path outer a b place = some c) :
    ∃ old members : Table String Value, a.entryAt? place = some (.object old) ∧
      b.entryAt? place = some (.object members) ∧
        (old.has valueKey = true ∨ members.has valueKey = true) ∧
          c.path = displayPath (place.foldl joinPath path) := by
  rcases Option.or_eq_some_iff.mp h with h | ⟨-, h⟩
  · obtain ⟨hclash, v, w, hv, hw, rfl⟩ := clashAt_eq_some_iff.mp h
    rcases hclash.here with ⟨⟨old, hold⟩, members, hmembers⟩ | ⟨⟨old, hold⟩, members, hmembers⟩
    · exact ⟨old, members, hold.1, hmembers.1, Or.inl hold.2, rfl⟩
    · exact ⟨old, members, hold.1, hmembers.1, Or.inr hmembers.2, rfl⟩
  · obtain ⟨old, members, s, t, hold, hmembers, -, -, -, rfl⟩ := mismatchAt_eq_some_iff.mp h
    exact ⟨old, members, hold.1, hmembers.1, Or.inl hold.2, rfl⟩

theorem conflictAt_of_none (h : b.entryAt? place = none) :
    conflictAt path outer a b place = none := by
  rw [Option.eq_none_iff_forall_ne_some]
  intro c hc
  obtain ⟨-, members, -, hmembers, -⟩ := exists_of_conflictAt hc
  cases h.symm.trans hmembers

theorem conflictAt_of_not_object (h : a.isObject = false ∨ b.isObject = false) :
    conflictAt path outer a b [] = none := by
  rw [Option.eq_none_iff_forall_ne_some]
  intro c hc
  obtain ⟨old, members, hold, hmembers, -⟩ := exists_of_conflictAt hc
  cases hold
  cases hmembers
  simp [Value.isObject] at h

theorem conflictAt_of_groups (ha : a.isGroup = true) (hb : b.isGroup = true) :
    conflictAt path outer a b [] = none := by
  rw [Option.eq_none_iff_forall_ne_some]
  intro c hc
  obtain ⟨old, members, hold, hmembers, hvalue, -⟩ := exists_of_conflictAt hc
  cases hold
  cases hmembers
  simp only [Value.isGroup_object, Bool.not_eq_true'] at ha hb
  rcases hvalue with hvalue | hvalue
  · cases hvalue.symm.trans ha
  · cases hvalue.symm.trans hb

/-- The walk that starts at anything but two groups ends there. -/
theorem walk_of_not_groups (h : (a.isGroup && b.isGroup) = false) :
    walk b path outer a = [[]].filterMap (conflictAt path outer a b) := by
  by_cases hobjects : a.isObject = false ∨ b.isObject = false
  · rw [walk_of_not_object hobjects, List.filterMap_cons, conflictAt_of_not_object hobjects]
    rfl
  · cases a with
    | object old =>
      cases b with
      | object members =>
        by_cases hold : Table.has old valueKey = true
        · by_cases hmembers : Table.has members valueKey = true
          · have hclash : clashAt path (.object old) (.object members) [] = none := by
              simp [clashAt, Value.entryAt?, hold, hmembers]
            rw [walk_of_tokens hold hmembers, ← mismatchAt_nil hold hmembers]
            refine List.filterMap_congr fun place hplace => ?_
            rw [List.mem_singleton.mp hplace, conflictAt, hclash, Option.none_or]
          · rw [walk]
            simp [hold, hmembers, conflictAt, clashAt, Value.entryAt?]
        · have hmembers : Table.has members valueKey = true := by simpa [hold] using h
          rw [walk]
          simp [hold, hmembers, conflictAt, clashAt, Value.entryAt?]
      | _ => exact absurd (Or.inr rfl) hobjects
    | _ => exact absurd (Or.inl rfl) hobjects

/-- The walk through the children that two groups share finds the conflicts below them if it
does so for each of the children. -/
theorem walkMembers_eq (hold : old.has valueKey = false) (hothers : others.has valueKey = false)
    {members : List (String × Value)} (hget : ∀ m ∈ members, old.get? m.1 = some m.2)
    (ih : ∀ m ∈ members, ∀ w,
      walk w (joinPath path m.1) (Merge.pairType old others outer) m.2 =
        m.2.entryPlaces.filterMap
          (conflictAt (joinPath path m.1) (Merge.pairType old others outer) m.2 w)) :
    walkMembers others path (Merge.pairType old others outer) members =
      (Value.entryPlacesBelow members).filterMap
        (conflictAt path outer (.object old) (.object others)) := by
  induction members with
  | nil => simp [walkMembers, Value.entryPlacesBelow]
  | cons m members ihlist =>
    obtain ⟨key, v⟩ := m
    obtain ⟨hv, hget⟩ := List.forall_mem_cons.mp hget
    obtain ⟨ihv, ih⟩ := List.forall_mem_cons.mp ih
    rw [walkMembers, Value.entryPlacesBelow, List.filterMap_append, ihlist hget ih]
    congr 1
    by_cases hown : isOwnKey key = true
    · simp [hown]
    · have hkey : isOwnKey key = false := by simpa using hown
      simp only [hkey, Bool.false_eq_true, if_false, List.filterMap_map]
      cases hother : others.get? key with
      | none =>
        have hnone : ∀ place ∈ v.entryPlaces,
            conflictAt path outer (.object old) (.object others) (key :: place) = none := by
          intro place _
          apply conflictAt_of_none
          rw [Value.entryAt?_cons, Value.entryUnder?_group hothers hkey, hother]
          rfl
        exact (List.filterMap_eq_nil_iff.mpr hnone).symm
      | some w =>
        have hunder := (Value.entryUnder?_group hold hkey).trans hv
        have hunder' := (Value.entryUnder?_group hothers hkey).trans hother
        simp only [ihv w]
        refine List.filterMap_congr fun place _ => ?_
        exact (conflictAt_cons hunder hunder').symm

/-- The walk from a pair of entries looks at each place below them once, in the order of the
first document. -/
theorem walk_eq (h : a.KeysDistinct) :
    walk b path outer a = a.entryPlaces.filterMap (conflictAt path outer a b) := by
  induction a using Value.inductionOn generalizing b path outer with
  | object members ih =>
    by_cases hgroups : ((Value.object members).isGroup && b.isGroup) = true
    · obtain ⟨ha, hb⟩ := Bool.and_eq_true_iff.mp hgroups
      have hmembers : Table.has members valueKey = false := by simpa using ha
      have hnone : conflictAt path outer _ b [] = none := conflictAt_of_groups ha hb
      obtain ⟨others, rfl, hothers⟩ := Value.eq_object_of_isGroup hb
      rw [walk_of_groups hmembers hothers, Value.entryPlaces_group hmembers,
        List.filterMap_cons_none hnone]
      apply walkMembers_eq hmembers hothers
      · intro m hm
        exact Table.get?_of_mem h.nodup hm
      · intro m hm w
        exact ih m hm ((Value.keysDistinct_object.mp h).2 m hm)
    · rw [walk_of_not_groups (by simpa using hgroups)]
      by_cases htoken : Table.has members valueKey = true
      · rw [Value.entryPlaces_token htoken]
      · have hmembers : Table.has members valueKey = false := by simpa using htoken
        have hb : b.isGroup = false := by simpa [hmembers] using hgroups
        have hnone : ∀ place ∈ Value.entryPlacesBelow members,
            conflictAt path outer (.object members) b place = none := by
          intro place hplace
          obtain ⟨m, -, -, rest, -, rfl⟩ := Value.mem_entryPlacesBelow.mp hplace
          apply conflictAt_of_none
          simp [Value.entryAt?_cons, Value.entryUnder?, hb]
        have hsplit : (Value.object members).entryPlaces =
            [[]] ++ Value.entryPlacesBelow members := Value.entryPlaces_group hmembers
        rw [hsplit, List.filterMap_append, List.filterMap_eq_nil_iff.mpr hnone, List.append_nil]
  | _ =>
    rw [walk_of_not_groups rfl, Value.entryPlaces_of_not_object rfl]

theorem filter_isClash_conflictAt (path : String) (outer : Option Value) (a b : Value)
    (place : Place) :
    (conflictAt path outer a b place).filter isClash = clashAt path a b place := by
  rw [conflictAt]
  cases hclash : clashAt path a b place with
  | some c =>
    obtain ⟨-, v, w, -, -, rfl⟩ := clashAt_eq_some_iff.mp hclash
    rfl
  | none =>
    rw [Option.none_or, Option.filter_eq_none_iff]
    intro c hc
    obtain ⟨-, -, -, -, -, -, -, -, -, rfl⟩ := mismatchAt_eq_some_iff.mp hc
    simp [isClash]

theorem filter_isTypeMismatch_conflictAt (path : String) (outer : Option Value) (a b : Value)
    (place : Place) :
    (conflictAt path outer a b place).filter isTypeMismatch = mismatchAt path outer a b place := by
  rw [conflictAt]
  cases hclash : clashAt path a b place with
  | some c =>
    -- where a token meets a group there are no two tokens
    obtain ⟨hmeet, v, w, -, -, rfl⟩ := clashAt_eq_some_iff.mp hclash
    refine Eq.trans rfl (Option.eq_none_iff_forall_ne_some.mpr fun d hd => ?_).symm
    obtain ⟨old, members, -, -, hold, hmembers, -⟩ := mismatchAt_eq_some_iff.mp hd
    rcases hmeet.here with ⟨-, others, hothers⟩ | ⟨⟨others, hothers⟩, -⟩
    · cases hmembers.1.symm.trans hothers.1
      cases hmembers.2.symm.trans hothers.2
    · cases hold.1.symm.trans hothers.1
      cases hold.2.symm.trans hothers.2
  | none =>
    rw [Option.none_or]
    cases hmismatch : mismatchAt path outer a b place with
    | none => rfl
    | some c =>
      obtain ⟨-, -, -, -, -, -, -, -, -, rfl⟩ := mismatchAt_eq_some_iff.mp hmismatch
      rfl

end Conflict

end DesignTokens
