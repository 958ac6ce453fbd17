import DesignTokens.Proofs.Reference.Occurrences
import DesignTokens.Reference.Resolution
import Mathlib.Data.List.Forall2

/-!
# What it means to replace the aliases of a value

`Replaced means v w` says of two values that `w` is `v` with its aliases replaced,
where `means a x` says that the alias `a` stands for `x`.  A text that is one alias,
perhaps with a line end after it (`Alias.IsOneRun`), stands for what the alias means;
in a longer text every run gives way to the text of what it means
(`Alias.Filled`).  Everything else stays.

The relation does not mention how a text is cut: `isWhole_iff_isOneRun` and
`filled_of_substitutePieces` are what links it to the pieces.
-/

namespace DesignTokens

namespace Alias

/-- A text that is one braced run, perhaps with a line end after it. -/
def IsOneRun (cs inner : List Char) : Prop :=
  NoBraces inner ∧ (cs = withBraces inner ∨ cs = withBraces inner ++ ['\n'])

/-- A text whose runs are replaced by words and whose other characters stay. -/
inductive Filled (word : List Char → List Char → Prop) : List Char → List Char → Prop
  | nil : Filled word [] []
  | plain {c : Char} {cs ds : List Char} : c ≠ '{' → c ≠ '}' → Filled word cs ds →
      Filled word (c :: cs) (c :: ds)
  | run {inner w cs ds : List Char} : NoBraces inner → word inner w → Filled word cs ds →
      Filled word (withBraces inner ++ cs) (w ++ ds)

def runPath (inner : List Char) : String := String.ofList (pathOf (withBraces inner))

theorem piecesFrom_some_append {read inner : List Char} (rest : List Char) (h : NoBraces inner) :
    piecesFrom (some read) (inner ++ '}' :: rest) =
      .braced (read.reverse ++ inner) :: piecesFrom none rest := by
  induction inner generalizing read with
  | nil => rw [List.nil_append, piecesFrom, if_pos rfl, List.append_nil]
  | cons c inner ih =>
    obtain ⟨hc, hinner⟩ := noBraces_cons.mp h
    rw [List.cons_append, piecesFrom, if_neg hc.2, if_neg hc.1, ih hinner]
    simp

theorem pieces_withBraces_append {inner : List Char} (rest : List Char) (h : NoBraces inner) :
    pieces (withBraces inner ++ rest) = .braced inner :: pieces rest := by
  show piecesFrom none ('{' :: (inner ++ ['}'] ++ rest)) = _
  rw [piecesFrom, if_pos rfl, List.append_assoc, List.singleton_append,
    piecesFrom_some_append rest h]
  rfl

theorem isWhole_iff_isOneRun {cs : List Char} : isWhole cs = true ↔ ∃ inner, IsOneRun cs inner := by
  rw [isWhole_iff]
  constructor
  · rintro ⟨inner, h | h⟩
    · refine ⟨inner, noBraces_of_braced_mem (h ▸ List.mem_cons_self), Or.inl ?_⟩
      have hflat := flatMap_chars_pieces cs
      rw [h] at hflat
      rw [← hflat]
      exact List.append_nil _
    · refine ⟨inner, noBraces_of_braced_mem (h ▸ List.mem_cons_self), Or.inr ?_⟩
      have hflat := flatMap_chars_pieces cs
      rw [h] at hflat
      exact hflat.symm
  · rintro ⟨inner, hinner, rfl | rfl⟩
    · refine ⟨inner, Or.inl ?_⟩
      have hp := pieces_withBraces_append [] hinner
      rw [List.append_nil] at hp
      exact hp
    · exact ⟨inner, Or.inr (pieces_withBraces_append ['\n'] hinner)⟩

theorem IsOneRun.mem_pieces {cs inner : List Char} (h : IsOneRun cs inner) :
    .braced inner ∈ pieces cs := by
  obtain ⟨hinner, rfl | rfl⟩ := h
  · have hp := pieces_withBraces_append [] hinner
    rw [List.append_nil] at hp
    rw [hp]
    exact List.mem_cons_self
  · rw [pieces_withBraces_append _ hinner]
    exact List.mem_cons_self

theorem IsOneRun.path_eq {s : String} {inner : List Char} (h : IsOneRun s.toList inner) :
    path s = runPath inner := by
  unfold path runPath
  rcases h.2 with he | he
  · rw [he]
  · rw [he, pathOf_withBraces_lineEnd]

end Alias

namespace Value

/-- The values that have a form inside a text. -/
def IsScalar : Value → Prop
  | .bool _ => True
  | .text _ => True
  | .int n => isWritable n
  | .real _ => True
  | _ => False

theorem textForm_ok_iff {x : Value} : (∃ form, x.textForm = .ok form) ↔ x.IsScalar := by
  cases x with
  | int n => cases hn : isWritable n <;> simp [textForm, IsScalar, hn]
  | _ => simp [textForm, IsScalar]

/-- What stands in the place of a run inside a longer text. -/
def WordOf (means : String → Value → Prop) (inner w : List Char) : Prop :=
  ∃ x form, means (Alias.runPath inner) x ∧ x.textForm = .ok form ∧ w = form.toList

/-- A value with its aliases replaced by what they stand for. -/
inductive Replaced (means : String → Value → Prop) : Value → Value → Prop
  | null : Replaced means .null .null
  | bool (b : Bool) : Replaced means (.bool b) (.bool b)
  | int (n : Int) : Replaced means (.int n) (.int n)
  | real (x : Binary64) : Replaced means (.real x) (.real x)
  | whole {s : String} {inner : List Char} {x : Value} : Alias.IsOneRun s.toList inner →
      means (Alias.runPath inner) x → Replaced means (.text s) x
  | text {s out : String} : (∀ inner, ¬ Alias.IsOneRun s.toList inner) →
      Alias.Filled (WordOf means) s.toList out.toList → Replaced means (.text s) (.text out)
  | list {items results : List Value} : List.Forall₂ (Replaced means) items results →
      Replaced means (.list items) (.list results)
  | object {members results : List (String × Value)} :
      members.map Prod.fst = results.map Prod.fst →
      List.Forall₂ (Replaced means) (members.map Prod.snd) (results.map Prod.snd) →
      Replaced means (.object members) (.object results)

/-- An alias inside a longer text of a value. -/
inductive Embeds (a : String) : Value → Prop
  | text {s : String} : Alias.isWhole s.toList = false → .aliasOf a ∈ Occurrence.ofText s →
      Embeds a (.text s)
  | item {items : List Value} {v : Value} : v ∈ items → Embeds a v → Embeds a (.list items)
  | member {members : List (String × Value)} {m : String × Value} : m ∈ members →
      Embeds a m.2 → Embeds a (.object members)

end Value

end DesignTokens
