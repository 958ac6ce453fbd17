import DesignTokens.Proofs.Reference.Occurrences
import DesignTokens.Proofs.Text.Joining
import DesignTokens.Token.Build

/-!
# Paths and places

`pathAt` is the path of what is built at a place, and `Group.placeOf` the place that
a path names.  Going from a path to a place and back gives the path again, unless
it begins with a dot (`pathAt_splitOn`); so it is for the path of an alias, whose
segments are not empty (`hasSegments_of_aliasOf_mem`).  The other way round a place
can get lost: a key without characters at the front of a place leaves no trace in
its path, and a dot in a key reads like two keys.
-/

namespace DesignTokens

def pathAt (place : Place) : String := place.foldl childPath ""

namespace Text

/-- A character at the end of a text goes to the end of its last part. -/
theorem exists_splitOn_concat {separator c : Char} (hc : c ≠ separator) (cs : List Char) :
    ∃ init last, splitOn separator cs = init ++ [last] ∧
      splitOn separator (cs ++ [c]) = init ++ [last ++ [c]] := by
  induction cs with
  | nil => exact ⟨[], [], rfl, by simp [splitOn, hc]⟩
  | cons d rest ih =>
    obtain ⟨init, last, hold, hnew⟩ := ih
    rw [List.cons_append, splitOn, splitOn, hold, hnew]
    by_cases hd : d = separator
    · rw [if_pos hd, if_pos hd]
      exact ⟨[] :: init, last, rfl, rfl⟩
    · rw [if_neg hd, if_neg hd]
      cases init with
      | nil => exact ⟨[], d :: last, rfl, rfl⟩
      | cons first init => exact ⟨(d :: first) :: init, last, rfl, rfl⟩

theorem joinOn_append_cons (separator : Char) (first second : List Char)
    (parts : List (List Char)) :
    joinOn separator ((first ++ separator :: second) :: parts) =
      joinOn separator (first :: second :: parts) := by
  cases parts with
  | nil => rfl
  | cons part parts => simp [joinOn]

end Text

/-! ### From a path to a place and back -/

theorem foldl_childPath {above : String} (h : above ≠ "") (place : Place) :
    (place.foldl childPath above).toList =
      Text.joinOn '.' (above.toList :: place.map String.toList) := by
  induction place generalizing above with
  | nil => rfl
  | cons key place ih =>
    have hchild : childPath above key = above ++ "." ++ key := if_neg h
    have hne : above ++ "." ++ key ≠ "" := by
      intro he
      have hlist := congrArg String.toList he
      simp at hlist
    rw [List.foldl_cons, hchild, ih hne, List.map_cons, ← Text.joinOn_append_cons]
    simp [String.toList_append]

theorem pathAt_cons_of_ne {key : String} (h : key ≠ "") (place : Place) :
    (pathAt (key :: place)).toList = Text.joinOn '.' (key.toList :: place.map String.toList) :=
  foldl_childPath h place

/-- A path that does not begin with a dot is the path of the place that it names. -/
theorem pathAt_splitOn {path : String} (h : path.toList.head? ≠ some '.') :
    pathAt ((Text.splitOn '.' path.toList).map String.ofList) = path := by
  have hjoin := Text.joinOn_splitOn '.' path.toList
  cases hs : Text.splitOn '.' path.toList with
  | nil => exact absurd hs (Text.splitOn_ne_nil '.' _)
  | cons segment segments =>
    rw [hs] at hjoin
    rw [← String.toList_inj, List.map_cons]
    cases segment with
    | nil =>
      cases segments with
      | nil => exact hjoin
      | cons next segments =>
        rw [← hjoin] at h
        exact absurd rfl h
    | cons c segment =>
      have hne : String.ofList (c :: segment) ≠ "" := fun he => by
        have hlist := congrArg String.toList he
        rw [String.toList_ofList] at hlist
        cases hlist
      rw [pathAt_cons_of_ne hne, String.toList_ofList, List.map_map]
      have hid : (segments.map (String.toList ∘ String.ofList)) = segments :=
        (List.map_congr_left fun part _ => String.toList_ofList).trans (List.map_id _)
      rw [hid]
      exact hjoin

/-- The path of a place whose keys hold no dot does not begin with one. -/
theorem head?_pathAt {place : Place} (h : ∀ key ∈ place, '.' ∉ key.toList) :
    (pathAt place).toList.head? ≠ some '.' := by
  induction place with
  | nil => simp [pathAt]
  | cons key place ih =>
    obtain ⟨hkey, hplace⟩ := List.forall_mem_cons.mp h
    by_cases he : key = ""
    · rw [he]
      exact ih hplace
    · have hne : key.toList ≠ [] := fun hl => he (String.toList_inj.mp hl)
      rw [pathAt_cons_of_ne he, Text.head?_joinOn hne]
      intro hd
      exact hkey (List.mem_of_head? hd)

/-! ### The paths of aliases -/

namespace Alias

/-- A path without empty segments. -/
def HasSegments (path : String) : Prop := ∀ segment ∈ Text.splitOn '.' path.toList, segment ≠ []

theorem HasSegments.head? {path : String} (h : HasSegments path) :
    path.toList.head? ≠ some '.' := by
  cases hp : path.toList with
  | nil => simp
  | cons c rest =>
    rintro hc
    rw [List.head?_cons, Option.some.injEq] at hc
    unfold HasSegments at h
    rw [hp, Text.splitOn, if_pos hc] at h
    exact h [] List.mem_cons_self rfl

theorem HasSegments.ne_empty {path : String} (h : HasSegments path) : path ≠ "" := by
  rintro rfl
  exact h [] List.mem_cons_self rfl

theorem hasSegments_of_isPath {cs : List Char} (h : isPath cs = true) :
    ∀ segment ∈ Text.splitOn '.' cs, segment ≠ [] := by
  intro segment hs he
  have hsegment := List.all_eq_true.mp h segment hs
  rw [he] at hsegment
  cases hsegment

theorem hasSegments_of_isWellFormed {cs : List Char} (h : isWellFormed cs = true) :
    HasSegments (String.ofList cs) := by
  unfold HasSegments
  rw [String.toList_ofList]
  unfold isWellFormed withoutLineEnd at h
  cases ht : Text.beforeTail? ['\n'] cs with
  | none =>
    rw [ht] at h
    exact hasSegments_of_isPath h
  | some front =>
    rw [ht] at h
    have hsegments := hasSegments_of_isPath h
    have hcs : cs = front ++ ['\n'] := Text.beforeTail?_eq_some_iff.mp ht
    obtain ⟨init, last, hold, hnew⟩ :=
      Text.exists_splitOn_concat (show '\n' ≠ '.' by decide) front
    rw [hcs, hnew]
    intro segment hm
    rcases List.mem_append.mp hm with hm | hm
    · exact hsegments segment (hold ▸ List.mem_append_left _ hm)
    · rw [List.mem_singleton] at hm
      rw [hm]
      simp

end Alias

theorem Occurrence.hasSegments_of_mem_ofText {s a : String} (h : .aliasOf a ∈ ofText s) :
    Alias.HasSegments a := by
  rcases cases_of_mem_ofText h with ⟨inner, -, hwell, he⟩ | ⟨m, he⟩
  · cases he
    exact Alias.hasSegments_of_isWellFormed hwell
  · cases he

/-- The segments of an alias are not empty. -/
theorem Value.hasSegments_of_aliasOf_mem {v : Value} {a : String}
    (h : .aliasOf a ∈ v.occurrences) : Alias.HasSegments a := by
  induction v using inductionOn with
  | text s => exact Occurrence.hasSegments_of_mem_ofText h
  | list items ih =>
    obtain ⟨v, hv, h⟩ := mem_occurrences_list.mp h
    exact ih v hv h
  | object members ih =>
    rcases mem_occurrences_object.mp h with ⟨ref, -, he⟩ | ⟨m, hm, -, h⟩
    · cases he
    · exact ih m hm h
  | _ => exact absurd h List.not_mem_nil

end DesignTokens
