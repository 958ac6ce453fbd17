import DesignTokens.Proofs.Assembly.Completion
import DesignTokens.Proofs.Value.Structure

/-!
# Replacing pointers, where some may stay

`Value.Followed` is what becomes of a value when some of its outermost pointers are
replaced by their parts.  A part has no pointers, so the outermost pointers of the new
value are those that stay; if there are none, every pointer is replaced.

`ends_expandFollowed` is the rule for doing so, in which the pointers that stay are noted.
-/

namespace DesignTokens

namespace Value

variable {part : String → Option Value} {items results : List Value}
  {members others : List (String × Value)} {ref : String} {v w : Value}

theorem noRefs_of_outerPointers (hv : v.RefsAreTexts) (h : v.outerPointers = []) : v.NoRefs := by
  have hfree : (v.including fun _ => none).NoRefs :=
    noRefs_including hv fun ref href => absurd (h ▸ href) List.not_mem_nil
  rwa [including_none] at hfree

theorem NoRefs.outerPointers (h : v.NoRefs) : v.outerPointers = [] :=
  outerPointers_eq_nil h.refsAreTexts h.scan_pointers

/-- A value in which some of the outermost pointers of another are replaced by their parts: all of
them if none is left, and one without a part is left. -/
structure Followed (part : String → Option Value) (v w : Value) : Prop where
  refsAreTexts : w.RefsAreTexts
  whole : w.outerPointers = [] → w = v.including part
  left : ∀ ref ∈ v.outerPointers, part ref = none → ref ∈ w.outerPointers

namespace Followed

theorem self (hv : v.RefsAreTexts) : v.Followed part v where
  refsAreTexts := hv
  whole h := (including_eq_self h).symm
  left _ href _ := href

theorem replaced (hp : pointerOf? members = some ref) (hw : part ref = some w) (hfree : w.NoRefs) :
    (Value.object members).Followed part w where
  refsAreTexts := hfree.refsAreTexts
  whole _ := by rw [including_pointer hp, hw, Option.getD_some]
  left other hother hnone := by
    rw [outerPointers_pointer hp, List.mem_singleton] at hother
    rw [hother, hw] at hnone
    cases hnone

theorem list (h : List.Forall₂ (Followed part) items results) :
    (Value.list items).Followed part (.list results) where
  refsAreTexts := everyObject_list.mpr fun w hw => by
    obtain ⟨v, -, hv⟩ := exists_mem_of_forall₂ h hw
    exact hv.refsAreTexts
  whole hnone := by
    rw [outerPointers_list, List.flatMap_eq_nil_iff] at hnone
    rw [including_list]
    refine congrArg Value.list ?_
    induction h with
    | nil => rfl
    | cons hv _ ih =>
      obtain ⟨hfirst, hothers⟩ := List.forall_mem_cons.mp hnone
      rw [List.map_cons, hv.whole hfirst, ← ih hothers]
  left ref href hnone := by
    rw [outerPointers_list, List.mem_flatMap] at href ⊢
    obtain ⟨v, hv, href⟩ := href
    obtain ⟨w, hw, hfollowed⟩ := exists_mem_of_forall₂ h.flip hv
    exact ⟨w, hw, hfollowed.left ref href hnone⟩

theorem object (hp : pointerOf? members = none) (hp' : pointerOf? others = none)
    (hkeys : ∀ n ∈ others, n.1 ≠ pointerKey)
    (h : List.Forall₂ (fun m n => m.1 = n.1 ∧ Followed part m.2 n.2) members others) :
    (Value.object members).Followed part (.object others) where
  refsAreTexts := everyObject_object.mpr ⟨fun n hn hkey => absurd hkey (hkeys n hn), fun n hn => by
    obtain ⟨m, -, -, hm⟩ := exists_mem_of_forall₂ h hn
    exact hm.refsAreTexts⟩
  whole hnone := by
    rw [outerPointers_object hp', List.flatMap_eq_nil_iff] at hnone
    rw [including_object hp]
    refine congrArg Value.object ?_
    clear hp hp' hkeys
    induction h with
    | nil => rfl
    | cons hm _ ih =>
      obtain ⟨hfirst, hothers⟩ := List.forall_mem_cons.mp hnone
      rw [List.map_cons, ← ih hothers, hm.1, ← hm.2.whole hfirst]
  left ref href hnone := by
    rw [outerPointers_object hp, List.mem_flatMap] at href
    rw [outerPointers_object hp', List.mem_flatMap]
    obtain ⟨m, hm, href⟩ := href
    obtain ⟨n, hn, -, hfollowed⟩ := exists_mem_of_forall₂ h.flip hm
    exact ⟨n, hn, hfollowed.left ref href hnone⟩

end Followed

end Value

namespace Assembly

/-! ### Replacing pointers, where those that stay are noted -/

section

variable {replace : String → AssemblyM (Option Value)} {part : String → Option Value}
  {J : List String → Assembly → Prop}

theorem ends_expandItems_followed {items : List Value}
    (h : ∀ v ∈ items, ∀ noted, Ends (J noted) (expand replace v) fun w s =>
      v.Followed part w ∧ J (noted ++ w.outerPointers) s) (noted : List String) :
    Ends (J noted) (expandItems replace items) fun results s =>
      List.Forall₂ (Value.Followed part) items results ∧
        J (noted ++ results.flatMap Value.outerPointers) s := by
  induction items generalizing noted with
  | nil =>
    rw [expandItems]
    refine .pure fun s hs => ⟨.nil, ?_⟩
    rwa [List.flatMap_nil, List.append_nil]
  | cons v items ih =>
    obtain ⟨hv, hitems⟩ := List.forall_mem_cons.mp h
    rw [expandItems]
    refine (hv noted).bind fun first => .fact fun hfirst => ?_
    refine (ih hitems _).bind fun others => .fact fun hothers => ?_
    refine .pure fun s hs => ⟨.cons hfirst hothers, ?_⟩
    rwa [List.flatMap_cons, ← List.append_assoc]

theorem ends_expandMembers_followed {members : List (String × Value)}
    (h : ∀ m ∈ members, ∀ noted, Ends (J noted) (expand replace m.2) fun w s =>
      m.2.Followed part w ∧ J (noted ++ w.outerPointers) s) (noted : List String) :
    Ends (J noted) (expandMembers replace members) fun results s =>
      List.Forall₂ (fun m n => m.1 = n.1 ∧ Value.Followed part m.2 n.2) members results ∧
        J (noted ++ results.flatMap fun n => n.2.outerPointers) s := by
  induction members generalizing noted with
  | nil =>
    rw [expandMembers]
    refine .pure fun s hs => ⟨.nil, ?_⟩
    rwa [List.flatMap_nil, List.append_nil]
  | cons m members ih =>
    obtain ⟨key, v⟩ := m
    obtain ⟨hv, hmembers⟩ := List.forall_mem_cons.mp h
    rw [expandMembers]
    refine (hv noted).bind fun first => .fact fun hfirst => ?_
    refine (ih hmembers _).bind fun others => .fact fun hothers => ?_
    refine .pure fun s hs => ⟨.cons ⟨rfl, hfirst⟩ hothers, ?_⟩
    rwa [List.flatMap_cons, ← List.append_assoc]

/-- If every outermost pointer is replaced by its part, or stays and is noted, then all pointers
that are left in the value are noted. -/
theorem ends_expandFollowed {v : Value} (hv : v.RefsAreTexts)
    (hparts : ∀ ref ∈ v.outerPointers, ∀ w, part ref = some w → w.NoRefs)
    (h : ∀ ref ∈ v.outerPointers, ∀ noted, Ends (J noted) (replace ref) fun r s =>
      (∃ w, r = some w ∧ part ref = some w ∧ J noted s) ∨ (r = none ∧ J (noted ++ [ref]) s))
    (noted : List String) :
    Ends (J noted) (expand replace v) fun w s =>
      v.Followed part w ∧ J (noted ++ w.outerPointers) s := by
  induction v using Value.inductionOn generalizing noted with
  | list items ih =>
    rw [expand]
    rw [Value.outerPointers_list] at hparts h
    refine (ends_expandItems_followed (fun v hm noted => ih v hm (Value.everyObject_list.mp hv v hm)
      (fun ref href => hparts ref (List.mem_flatMap.mpr ⟨v, hm, href⟩))
      (fun ref href => h ref (List.mem_flatMap.mpr ⟨v, hm, href⟩)) noted) noted).bind
        fun results => .fact fun hresults => .pure fun s hs => ⟨.list hresults, ?_⟩
    rwa [Value.outerPointers_list]
  | object members ih =>
    obtain ⟨hhere, hbelow⟩ := Value.everyObject_object.mp hv
    rw [expand]
    cases hp : Value.pointerOf? members with
    | some ref =>
      rw [Value.outerPointers_pointer hp] at hparts h
      refine (h ref List.mem_cons_self noted).bind fun r => ?_
      rintro s (⟨w, rfl, hw, hs⟩ | ⟨rfl, hs⟩)
      · have hfree := hparts ref List.mem_cons_self w hw
        refine ⟨w, s, rfl, .replaced hp hw hfree, ?_⟩
        rwa [hfree.outerPointers, List.append_nil]
      · refine ⟨.object members, s, rfl, .self hv, ?_⟩
        rwa [Value.outerPointers_pointer hp]
    | none =>
      rw [Value.outerPointers_object hp] at hparts h
      refine (ends_expandMembers_followed (fun m hm noted => ih m hm (hbelow m hm)
        (fun ref href => hparts ref (List.mem_flatMap.mpr ⟨m, hm, href⟩))
        (fun ref href => h ref (List.mem_flatMap.mpr ⟨m, hm, href⟩)) noted) noted).bind
          fun results => .fact fun hresults => .pure fun s hs => ?_
      have hkeys : ∀ n ∈ results, n.1 ≠ pointerKey := by
        intro n hn
        obtain ⟨m, hm, hkey, -⟩ := Value.exists_mem_of_forall₂ hresults hn
        exact hkey ▸ Value.ne_pointerKey hhere hp hm
      have hp' : Value.pointerOf? results = none := by
        refine Option.not_isSome_iff_eq_none.mp fun hsome => ?_
        obtain ⟨v, hget, -⟩ := Option.bind_eq_some_iff.mp (Option.get_mem hsome)
        exact hkeys _ (Table.mem_of_get? hget) rfl
      refine ⟨.object hp hp' hkeys hresults, ?_⟩
      rwa [Value.outerPointers_object hp']
  | _ =>
    simp only [expand]
    refine .pure fun s hs => ⟨.self hv, ?_⟩
    rwa [Value.outerPointers, List.append_nil] <;> (intros; contradiction)

end

end Assembly

end DesignTokens
