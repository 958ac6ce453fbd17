import DesignTokens.Proofs.Assembly.Progress
import DesignTokens.Proofs.Assembly.Stability

/-!
# Tokens that an assembly leaves alone

An assembly begins the work at a token only if the token holds a pointer, at the places of
a file as well as behind a pointer.  So every token without pointers is the same in the end
(`untouched_assembleFile`), also when the work ends early, and a token that counts as
resolved then holds no pointer (`bare_assembleFile`).

What a token is known to refer to is never forgotten, whatever its value becomes
(`remembering_assembleFile`).
-/

namespace DesignTokens

theorem Token.resolved_assembled (t : Token) (value : Value)
    (h : (t.assembled value).resolved = true) : (t.assembled value).pointers = [] := by
  simp only [Token.assembled, Bool.and_eq_true, List.isEmpty_iff] at h
  exact h.1.2

namespace Assembly

variable {base project : Project} {s : Assembly} {file other : String} {place : Place} {t : Token}

/-- Every token without pointers is what it was before. -/
def Untouched (base : Project) (s : Assembly) : Prop :=
  ∀ file place t, base.tokenAt? file place = some t → t.pointers = [] →
    s.tokenAt? file place = some t

theorem stable_untouched (base : Project) : Stable (Untouched base) where
  of_project_eq h he := by
    intro file place t ht hpointers
    rw [tokenAt?_congr he]
    exact h file place t ht hpointers
  assembled := by
    intro s earlier file place t h hearlier ht hpointers value other next u hu hnone
    rw [tokenAt?_modifyToken, if_neg]
    · exact h other next u hu hnone
    · rintro ⟨rfl, rfl⟩
      obtain rfl := Option.some.inj (ht.symm.trans (hearlier other next u hu hnone))
      exact hpointers hnone

/-- **A token without pointers is the same after one of the files is assembled.** -/
theorem untouched_assembleFile (ht : project.tokenAt? other place = some t)
    (hpointers : t.pointers = []) (file : String) (maxDepth : Int) :
    (project.assembleFile file maxDepth).1.tokenAt? other place = some t := by
  have hstart : Untouched project (start project maxDepth) := fun _ _ _ ht _ => ht
  exact ((stable_untouched project).storing.keeps_assembleFile file _ hstart).kept other place t ht
    hpointers

/-- No token of a file that counts as resolved holds a pointer. -/
def Bare (file : String) (s : Assembly) : Prop :=
  ∀ place t, s.tokenAt? file place = some t → t.resolved = true → t.pointers = []

theorem stable_bare (file : String) : Stable (Bare file) where
  of_project_eq h he := by
    intro place t ht
    rw [tokenAt?_congr he] at ht
    exact h place t ht
  assembled := by
    intro s earlier other place t h _ _ _ value next u hu hresolved
    rw [tokenAt?_modifyToken] at hu
    split at hu
    · obtain ⟨-, -, rfl⟩ := Option.map_eq_some_iff.mp hu
      exact Token.resolved_assembled t value hresolved
    · exact h next u hu hresolved

/-- **No token that counts as resolved holds a pointer after one of the files is assembled**, if
none did before. -/
theorem bare_assembleFile (h : ∀ place t, project.tokenAt? other place = some t →
    t.resolved = true → t.pointers = []) (file : String) (maxDepth : Int)
    (ht : (project.assembleFile file maxDepth).1.tokenAt? other place = some t)
    (hresolved : t.resolved = true) : t.pointers = [] := by
  have hstart : Bare other (start project maxDepth) := h
  exact ((stable_bare other).storing.keeps_assembleFile file _ hstart).kept place t ht hresolved

/-- Every token still has the aliases and the malformed texts that it had before. -/
def Remembering (base : Project) (s : Assembly) : Prop :=
  ∀ file place t u, base.tokenAt? file place = some t → s.tokenAt? file place = some u →
    t.references ⊆ u.references ∧ t.malformed ⊆ u.malformed

theorem stable_remembering (base : Project) : Stable (Remembering base) where
  of_project_eq h he := by
    intro file place t u ht hu
    rw [tokenAt?_congr he] at hu
    exact h file place t u ht hu
  assembled := by
    intro s earlier file place u h hearlier hu _ value other next t now ht hnow
    rw [tokenAt?_modifyToken] at hnow
    split at hnow
    · rename_i hsame
      obtain ⟨rfl, rfl⟩ := hsame
      obtain ⟨-, -, rfl⟩ := Option.map_eq_some_iff.mp hnow
      obtain ⟨hreferences, hmalformed⟩ := hearlier other next t u ht hu
      exact ⟨fun r hr => List.mem_eraseDups.mpr (List.mem_append_left _ (hreferences hr)),
        fun r hr => List.mem_append_left _ (hmalformed hr)⟩
    · exact h other next t now ht hnow

/-- **Aliases and malformed texts of a token stay known** when one of the files is assembled. -/
theorem remembering_assembleFile (ht : project.tokenAt? other place = some t) {u : Token}
    (file : String) (maxDepth : Int)
    (hu : (project.assembleFile file maxDepth).1.tokenAt? other place = some u) :
    t.references ⊆ u.references ∧ t.malformed ⊆ u.malformed := by
  have hstart : Remembering project (start project maxDepth) := by
    intro file place t u ht hu
    obtain rfl := Option.some.inj (ht.symm.trans hu)
    exact ⟨List.Subset.refl _, List.Subset.refl _⟩
  exact ((stable_remembering project).storing.keeps_assembleFile file _ hstart).kept other place t u
    ht hu

end Assembly

end DesignTokens
