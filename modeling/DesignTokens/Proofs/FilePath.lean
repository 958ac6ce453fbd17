import DesignTokens.Proofs.FilePath.Normal

/-!
# Paths that only differ in their last part

What is written behind the last slash of a path is its last part (`exists_last_part`), so paths that
go on differently from the same text lead to different files (`below_inj`).  A text without slashes
is the key of the file that it names (`fileKey_of_plain`).
-/

namespace DesignTokens

theorem Text.exists_last (separator : Char) (cs : List Char) :
    ∃ front last, ∀ tail, separator ∉ tail →
      Text.splitOn separator (cs ++ tail) = front ++ [last ++ tail] := by
  induction cs with
  | nil => exact ⟨[], [], fun tail htail => Text.splitOn_of_not_mem separator htail⟩
  | cons c cs ih =>
    obtain ⟨front, last, h⟩ := ih
    by_cases hc : c = separator
    · refine ⟨[] :: front, last, fun tail htail => ?_⟩
      rw [List.cons_append, Text.splitOn, if_pos hc, h tail htail]
      rfl
    · cases front with
      | nil =>
        refine ⟨[], c :: last, fun tail htail => ?_⟩
        rw [List.cons_append, Text.splitOn, if_neg hc, h tail htail]
        rfl
      | cons part front =>
        refine ⟨(c :: part) :: front, last, fun tail htail => ?_⟩
        rw [List.cons_append, Text.splitOn, if_neg hc, h tail htail]
        rfl

namespace FilePath

theorem filter_part {part : List Char} (hne : part ≠ []) (hdot : part ≠ ['.']) :
    [part].filter (fun part => !(part.isEmpty || part == ['.'])) = [part] :=
  List.filter_cons_of_pos (by simp [hne, hdot])

/-- What follows the last slash is the last part of a path. -/
theorem exists_last_part (base : List Char) :
    ∃ last, ∀ tail, '/' ∉ tail → 2 ≤ tail.length →
      (partsOf (base ++ tail)).getLast? = some (String.ofList (last ++ tail)) := by
  obtain ⟨front, last, h⟩ := Text.exists_last '/' base
  refine ⟨last, fun tail htail hlength => ?_⟩
  have hlong : 2 ≤ (last ++ tail).length := by rw [List.length_append]; omega
  unfold partsOf
  rw [h tail htail, List.filter_append, filter_part, List.map_append, List.map_singleton,
    List.getLast?_concat]
  · intro he
    rw [he] at hlong
    cases hlong
  · intro he
    rw [he] at hlong
    exact absurd hlong (by decide)

/-- Files below one directory are told apart by what their names go on with. -/
theorem below_inj {directory : FilePath} {base tail other : String} (htail : '/' ∉ tail.toList)
    (hother : '/' ∉ other.toList) (hlength : 2 ≤ tail.length) (hlength' : 2 ≤ other.length)
    (h : directory.below (ofText (base ++ tail)) = directory.below (ofText (base ++ other))) :
    tail = other := by
  obtain ⟨last, hlast⟩ := exists_last_part base.toList
  have hparts : ∀ text : String, '/' ∉ text.toList → 2 ≤ text.length →
      (directory.below (ofText (base ++ text))).parts.getLast? =
        some (String.ofList (last ++ text.toList)) := by
    intro text hslash hlong
    have hhere : (ofText (base ++ text)).parts.getLast? =
        some (String.ofList (last ++ text.toList)) := by
      unfold ofText ofChars
      rw [String.toList_append]
      exact hlast text.toList hslash (by rwa [String.length_toList])
    unfold below
    split
    · exact hhere
    · show (directory.parts ++ (ofText (base ++ text)).parts).getLast? = _
      rw [List.getLast?_append, hhere]
      rfl
  have hsame := (hparts tail htail hlength).symm.trans ((h ▸ hparts other hother hlength'))
  have hchars := congrArg String.toList (Option.some.inj hsame)
  rw [String.toList_ofList, String.toList_ofList] at hchars
  exact String.toList_inj.mp (List.append_cancel_left hchars)

theorem fileKey_of_plain {name : String} (hslash : '/' ∉ name.toList)
    (hback : '\\' ∉ name.toList) (hne : name ≠ "") (hdot : name ≠ ".") (hdots : name ≠ "..") :
    fileKey name none = name := by
  have hpart : IsPart name :=
    ⟨fun h => hne (String.toList_inj.mp h), fun h => hdot (String.toList_inj.mp h), hslash, hback⟩
  have hnormal : (⟨0, [name]⟩ : FilePath).Normal :=
    ⟨Nat.zero_le 2, fun part hmem => List.mem_singleton.mp hmem ▸ hpart,
      ⟨0, [name], rfl, fun hmem => hdots (List.mem_singleton.mp hmem).symm, fun _ => rfl⟩⟩
  have hkey : (⟨0, [name]⟩ : FilePath).key = name := String.toList_inj.mp (toList_key _)
  rw [← hkey]
  exact hnormal.fileKey_key

end FilePath

end DesignTokens
