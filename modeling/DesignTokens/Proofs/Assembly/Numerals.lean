import DesignTokens.Proofs.Assembly.Progress
import DesignTokens.Proofs.Assembly.Stability
import DesignTokens.Proofs.Reference.Numerals

/-!
# An assembly brings in no new integers

What a pointer is replaced by is a part of a value, so where all integers have numerals, they
have them after an assembly (`hasNumerals_assembleFile`).
-/

namespace DesignTokens.Assembly

/-- Every integer in a token has a numeral. -/
def Numbered (s : Assembly) : Prop :=
  ∀ file place t, s.tokenAt? file place = some t → t.HasNumerals

/-- Where the pointers are replaced by values with numerals, the whole value has numerals. -/
theorem keeps_hasNumerals {I : Assembly → Prop} {replace : String → AssemblyM (Option Value)}
    (hreplace : ∀ ref, Keeps I (replace ref) fun r => ∀ w, r = some w → w.HasNumerals)
    {v : Value} (hv : v.HasNumerals) : Keeps I (expand replace v) Value.HasNumerals := by
  have hkeeps : Keeps I (expand replace v) fun w => v.HasNumerals → w.HasNumerals := by
    refine keeps_expand (Q := fun v w => v.HasNumerals → w.HasNumerals) (fun _ => id)
      (fun hresults hitems => ?_) (fun _ hresults hmembers => ?_) (fun ref _ members _ => ?_)
    · refine Value.hasNumerals_list.mpr fun w hw => ?_
      obtain ⟨v, hm, hvw⟩ := Value.exists_mem_of_forall₂ hresults hw
      exact hvw (Value.hasNumerals_list.mp hitems v hm)
    · refine Value.hasNumerals_object.mpr fun n hn => ?_
      obtain ⟨m, hm, -, hmn⟩ := Value.exists_mem_of_forall₂ hresults hn
      exact hmn (Value.hasNumerals_object.mp hmembers m hm)
    · refine (hreplace ref).imp fun r hr hmembers => ?_
      cases r with
      | none => exact hmembers
      | some w => exact hr w rfl
  exact hkeeps.imp fun _ h => h hv

theorem storing_numbered : Storing Value.HasNumerals Numbered where
  of_project_eq h he _ _ file place t ht := h file place t (tokenAt?_congr he file place ▸ ht)
  limit _ _ := trivial
  answer h hlocate _ ready := by
    obtain ⟨-, -, -, -, ht⟩ := locate_eq_ok_iff.mp hlocate
    exact keeps_answer_of_parts (h _ _ _ ht).value (fun s hs u hu => (hs _ _ u hu).value)
      (fun v w hv hw => hv.descend hw) ready
  expand h ht _ hreplace :=
    keeps_hasNumerals (fun ref => hreplace ref trivial) (h _ _ _ ht).value
  assembled {s _ file place t value} h _ _ _ _ hvalue := by
    intro other next u hu
    rw [tokenAt?_modifyToken] at hu
    split at hu
    · obtain ⟨-, -, rfl⟩ := Option.map_eq_some_iff.mp hu
      exact Token.hasNumerals_assembled hvalue
    · exact h other next u hu

/-- **All integers have numerals after one of the files is assembled**, if they had before. -/
theorem hasNumerals_assembleFile {project : Project}
    (h : ∀ file place t, project.tokenAt? file place = some t → t.HasNumerals) (file : String)
    (maxDepth : Int) {other : String} {place : Place} {t : Token}
    (ht : (project.assembleFile file maxDepth).1.tokenAt? other place = some t) : t.HasNumerals :=
  (storing_numbered.keeps_assembleFile file (start project maxDepth) h).kept other place t ht

end DesignTokens.Assembly
