/-! # Parts of a text

Cutting a text at a character and putting the parts together again.  `joinOn_splitOn` says that
nothing is lost, `splitOn_joinOn` that parts without the character come back.
-/

namespace DesignTokens.Text

/-- The parts between the places where a character stands.  There is always at least one. -/
def splitOn (separator : Char) : List Char → List (List Char)
  | [] => [[]]
  | c :: rest =>
    if c = separator then [] :: splitOn separator rest
    else
      match splitOn separator rest with
      | [] => [[c]]
      | part :: parts => (c :: part) :: parts

def joinOn (separator : Char) : List (List Char) → List Char
  | [] => []
  | [part] => part
  | part :: parts => part ++ separator :: joinOn separator parts

theorem splitOn_ne_nil (separator : Char) (cs : List Char) : splitOn separator cs ≠ [] := by
  induction cs with
  | nil => simp [splitOn]
  | cons c rest ih =>
    by_cases h : c = separator
    · simp [splitOn, h]
    · cases hs : splitOn separator rest with
      | nil => exact absurd hs ih
      | cons part parts => simp [splitOn, h, hs]

theorem joinOn_splitOn (separator : Char) (cs : List Char) :
    joinOn separator (splitOn separator cs) = cs := by
  induction cs with
  | nil => rfl
  | cons c rest ih =>
    cases hs : splitOn separator rest with
    | nil => exact absurd hs (splitOn_ne_nil separator rest)
    | cons part parts =>
      rw [hs] at ih
      by_cases h : c = separator
      · simp [splitOn, h, hs, joinOn, ih]
      · cases parts with
        | nil => simpa [splitOn, h, hs, joinOn] using ih
        | cons next more => simpa [splitOn, h, hs, joinOn] using ih

theorem splitOn_append (separator : Char) {part : List Char} (rest : List Char)
    (h : separator ∉ part) :
    splitOn separator (part ++ separator :: rest) = part :: splitOn separator rest := by
  induction part with
  | nil => simp [splitOn]
  | cons c part ih =>
    have hc : c ≠ separator := fun e => h (by simp [e])
    have hp : separator ∉ part := fun e => h (by simp [e])
    simp [splitOn, hc, ih hp]

theorem splitOn_of_not_mem (separator : Char) {part : List Char} (h : separator ∉ part) :
    splitOn separator part = [part] := by
  induction part with
  | nil => rfl
  | cons c part ih =>
    have hc : c ≠ separator := fun e => h (by simp [e])
    have hp : separator ∉ part := fun e => h (by simp [e])
    simp [splitOn, hc, ih hp]

theorem splitOn_joinOn (separator : Char) {parts : List (List Char)} (hne : parts ≠ [])
    (h : ∀ part ∈ parts, separator ∉ part) :
    splitOn separator (joinOn separator parts) = parts := by
  induction parts with
  | nil => exact absurd rfl hne
  | cons part rest ih =>
    cases rest with
    | nil => simpa [joinOn] using splitOn_of_not_mem separator (h part (by simp))
    | cons next more =>
      have hr : ∀ p ∈ next :: more, separator ∉ p := fun p hp => h p (by simp [hp])
      rw [joinOn, splitOn_append separator _ (h part (by simp)), ih (by simp) hr]
      simp

/-- The parts of a text between the places where a character stands. -/
def split (separator : Char) (s : String) : List String :=
  (splitOn separator s.toList).map String.ofList

def join (separator : Char) (parts : List String) : String :=
  String.ofList (joinOn separator (parts.map String.toList))

def joinWith (separator : String) : List String → String
  | [] => ""
  | [part] => part
  | part :: parts => part ++ separator ++ joinWith separator parts

/-- What stands before the first place of a character, and what follows it if there is one. -/
def cut (separator : Char) (cs : List Char) : List Char × Option (List Char) :=
  match splitOn separator cs with
  | part :: next :: more => (part, some (joinOn separator (next :: more)))
  | _ => (cs, none)

/-- What is left of a text after the front that it starts with. -/
def afterFront? : (front cs : List Char) → Option (List Char)
  | [], cs => some cs
  | _ :: _, [] => none
  | f :: front, c :: cs => if f = c then afterFront? front cs else none

/-- What is left of a text before the tail that it ends with. -/
def beforeTail? (tail cs : List Char) : Option (List Char) :=
  (afterFront? tail.reverse cs.reverse).map List.reverse

def replaceChar (old new : Char) (cs : List Char) : List Char :=
  cs.map fun c => if c = old then new else c

end DesignTokens.Text
