import DesignTokens.Proofs.Assembly.Coverage
import Mathlib.Data.Set.Finite.List
import Mathlib.Order.WellFoundedSet

/-!
# What inclusion brings in

What a token expands to refers to nothing that no token refers to: each reference in it stood in the
value of some token before (`Project.Expands.exists_occurrence`).  So a token that is assembled has
its own aliases and malformed texts, and those in what it expands to (`Project.Included`); that is
what every token of a file has become if all tokens are good and the limit allows as many hops as
there are tokens (`Project.exists_included`).

Tokens are good if hops form no cycle and each follows from those at which it aims, as there are
only finitely many (`Project.induction_of_acyclic`).
-/

namespace DesignTokens

/-- Every reference of a part stands in the whole, if no `$ref` member does. -/
theorem Pointer.occurrences_of_descend {raw : String} {segments : List String} {v w : Value}
    (hv : v.NoRefs) (h : descend raw v segments = .ok (.ok w)) {o : Occurrence}
    (ho : o ∈ w.occurrences) : o ∈ v.occurrences := by
  induction segments generalizing v with
  | nil =>
    have he : v = w := by
      cases v <;> exact Except.ok.inj (Except.ok.inj h)
    exact he ▸ ho
  | cons segment rest ih =>
    cases v with
    | object members =>
      obtain ⟨hhere, hbelow⟩ := Value.everyObject_object.mp hv
      rw [descend] at h
      split at h
      · rename_i u hu
        have hm := Table.mem_of_get? hu
        exact Value.mem_occurrences_object.mpr
          (Or.inr ⟨_, hm, hhere _ hm, ih (hbelow _ hm) h⟩)
      · cases Except.ok.inj h
    | list items =>
      rw [descend] at h
      split at h
      · cases Except.ok.inj h
      · cases h
      · split at h
        · rename_i u hu
          have hm := List.mem_of_getElem? hu
          exact Value.mem_occurrences_list.mpr ⟨u, hm, ih (Value.everyObject_list.mp hv u hm) h⟩
        · cases Except.ok.inj h
    | _ => cases Except.ok.inj h

/-- A reference of a value with its parts stood in the value or stands in a part. -/
theorem Value.mem_occurrences_of_including {part : String → Option Value} {v : Value}
    {o : Occurrence} (hv : v.RefsAreTexts) (ho : o ∈ (v.including part).occurrences) :
    o ∈ v.occurrences ∨ ∃ ref ∈ v.outerPointers, ∃ w, part ref = some w ∧ o ∈ w.occurrences := by
  induction v using inductionOn with
  | list items ih =>
    rw [including_list, mem_occurrences_list] at ho
    obtain ⟨w, hw, ho⟩ := ho
    obtain ⟨v, hm, rfl⟩ := List.mem_map.mp hw
    refine (ih v hm (everyObject_list.mp hv v hm) ho).imp (fun ho => ?_) ?_
    · exact mem_occurrences_list.mpr ⟨v, hm, ho⟩
    · rintro ⟨ref, href, w, hw, ho⟩
      rw [outerPointers_list]
      exact ⟨ref, List.mem_flatMap.mpr ⟨v, hm, href⟩, w, hw, ho⟩
  | object members ih =>
    obtain ⟨hhere, hbelow⟩ := everyObject_object.mp hv
    cases hp : pointerOf? members with
    | some ref =>
      rw [including_pointer hp] at ho
      cases hw : part ref with
      | none =>
        rw [hw] at ho
        exact Or.inl ho
      | some w =>
        rw [hw, Option.getD_some] at ho
        rw [outerPointers_pointer hp]
        exact Or.inr ⟨ref, List.mem_cons_self, w, hw, ho⟩
    | none =>
      rw [including_object hp, mem_occurrences_object] at ho
      rcases ho with ⟨ref, href, -⟩ | ⟨n, hn, hkey, ho⟩
      · obtain ⟨w, hget, -⟩ := Option.bind_eq_some_iff.mp href
        obtain ⟨m, hm, he⟩ := List.mem_map.mp (Table.mem_of_get? hget)
        have hkey : m.1 ≠ pointerKey := ne_pointerKey hhere hp hm
        exact absurd (congrArg Prod.fst he) hkey
      · obtain ⟨m, hm, rfl⟩ := List.mem_map.mp hn
        refine (ih m hm (hbelow m hm) ho).imp (fun ho => ?_) ?_
        · exact mem_occurrences_object.mpr (Or.inr ⟨m, hm, hkey, ho⟩)
        · rintro ⟨ref, href, w, hw, ho⟩
          rw [outerPointers_object hp]
          exact ⟨ref, List.mem_flatMap.mpr ⟨m, hm, href⟩, w, hw, ho⟩
  | _ =>
    rw [including] at ho
    · exact Or.inl ho
    all_goals intros; contradiction

namespace Token

variable {t : Token} {v : Value}

theorem mem_references_assembled {a : String} :
    a ∈ (t.assembled v).references ↔ a ∈ t.references ∨ .aliasOf a ∈ v.occurrences := by
  unfold assembled
  rw [List.mem_eraseDups, List.mem_append, Value.mem_aliases_iff]

theorem mem_malformed_assembled {text : String} :
    text ∈ (t.assembled v).malformed ↔ text ∈ t.malformed ∨ .malformed text ∈ v.occurrences := by
  unfold assembled
  rw [List.mem_append, List.mem_filter, List.mem_eraseDups, Value.mem_malformed_iff]
  by_cases h : text ∈ t.malformed
  · simp [h]
  · simp [h]

end Token

namespace Project

variable {p : Project} {file ref : String} {place : Place} {t u : Token} {v : Value}
  {o : Occurrence}

/-- Every reference of what a token expands to stands in the value of a token to which it leads. -/
theorem Expands.exists_occurrence (hp : p.Sound) (h : p.Expands file place v)
    (ho : o ∈ v.occurrences) :
    ∃ x t, Relation.ReflTransGen p.Leads (file, place) x ∧ p.tokenAt? x.1 x.2 = some t ∧
      o ∈ t.value.occurrences := by
  induction h with
  | @intro file place t target spot rest whole part ht haims hexpands hdescend ih =>
    rcases Value.mem_occurrences_of_including (hp.refsAreTexts file place t ht) ho with
      ho | ⟨ref, href, w, hw, ho⟩
    · exact ⟨(file, place), t, .refl, ht, ho⟩
    · obtain rfl := Option.some.inj hw
      have hfree := (hexpands ref href).noRefs hp.refsAreTexts
      obtain ⟨x, u, hreaches, hu, ho⟩ :=
        ih ref href (Pointer.occurrences_of_descend hfree (hdescend ref href) ho)
      exact ⟨x, u, hreaches.head ⟨t, ht, ref, href, rest ref, haims ref href⟩, hu, ho⟩

/-- What holds of a token if it holds of those at which it aims holds of all, if the hops between
tokens form no cycle and lead to finitely many places. -/
theorem induction_of_acyclic {places : Set (String × Place)} (hfinite : places.Finite)
    (hplaces : ∀ x y, p.Leads x y → y ∈ places)
    (hacyclic : ∀ x, ¬ Relation.TransGen p.Leads x x) {P : String × Place → Prop}
    (step : ∀ x, (∀ y, p.Leads x y → P y) → P x) (x : String × Place) : P x := by
  have : IsStrictOrder (String × Place) (flip (Relation.TransGen p.Leads)) :=
    { irrefl := hacyclic
      trans := fun _ _ _ h h' => h'.trans h }
  have hwell : places.WellFoundedOn (flip (Relation.TransGen p.Leads)) := hfinite.wellFoundedOn
  refine step x fun y hy => hwell.induction (hplaces x y hy) fun z _ ih => step z fun u hu => ?_
  exact ih u (hplaces z u hu) (.single hu)

/-- A token that has become another one by inclusion: no pointer is left, and its references are its
own and those in what it expands to. -/
structure Included (p : Project) (file : String) (place : Place) (t u : Token) : Prop where
  path : u.path = t.path
  pointers : u.pointers = []
  references : ∀ a ∈ u.references,
    a ∈ t.references ∨ ∃ v, p.Expands file place v ∧ .aliasOf a ∈ v.occurrences
  malformed : ∀ text ∈ u.malformed,
    text ∈ t.malformed ∨ ∃ v, p.Expands file place v ∧ .malformed text ∈ v.occurrences

theorem included_assembled (hp : p.Sound) (hv : p.Expands file place v) :
    p.Included file place t (t.assembled v) where
  path := rfl
  pointers := (hv.noRefs hp.refsAreTexts).scan_pointers
  references := fun _ ha => (Token.mem_references_assembled.mp ha).imp_right fun ha => ⟨v, hv, ha⟩
  malformed := fun _ hs => (Token.mem_malformed_assembled.mp hs).imp_right fun hs => ⟨v, hv, hs⟩

/-- After the assembly of a file in which every token is good, every token of the file has become
one without pointers. -/
theorem exists_included (hp : p.Sound) {keys : List TokenKey} {maxDepth : Int}
    (hkeys : ∀ file place t, p.tokenAt? file place = some t → (file, t.path) ∈ keys)
    (hbound : keys.length ≤ Assembly.hopsWithin maxDepth)
    (hgood : ∀ place t, p.tokenAt? file place = some t → p.Good file place)
    (hu : (p.assembleFile file maxDepth).1.tokenAt? file place = some u) :
    ∃ t, p.tokenAt? file place = some t ∧ p.Included file place t u := by
  obtain ⟨⟨⟩, s, hrun, hs⟩ := Assembly.ends_assembleFile hp hkeys hbound file ∅ _
    (Assembly.idle_start hp maxDepth)
  unfold assembleFile at hu
  rw [finish_of_run hrun] at hu
  obtain ⟨t, ht, rfl⟩ := hs.steady.exists_token hu
  refine ⟨t, ht, ?_⟩
  by_cases hdone : (file, t.path) ∈ s.done
  · rw [Assembly.current_of_mem hdone]
    exact included_assembled hp ((expands_iff ht).mpr ⟨(good_iff ht).mp (hgood place t ht), rfl⟩)
  · rw [Assembly.current_of_not_mem hdone]
    refine ⟨rfl, ?_, fun _ ha => Or.inl ha, fun _ hs => Or.inl hs⟩
    by_contra hpointers
    exact hdone (hs.finished file place t (Or.inr rfl) ht hpointers)

end Project

end DesignTokens
