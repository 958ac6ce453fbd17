import DesignTokens.Manifest.Upft
import DesignTokens.Proofs.Value.Integers

/-!
# Read or rejected

Reading a manifest that stands in no file comes to one of three ends: a result, a rejection that
lists what is wrong with it, or an integer of the data that a fault would show and that has no
numeral.  `Judged` says so of a piece of the reading.  The texts that describe a manifest and the
plain form are read this way whatever the data hold.
-/

namespace DesignTokens

variable {α β : Type} {ns : List Int}

/-- Faults that show no other integers than those of a list. -/
def ShowsFrom (ns : List Int) (faults : List ManifestFault) : Prop :=
  ∀ f ∈ faults, ∀ v ∈ f.complaint.shown, v.integers ⊆ ns

namespace ShowsFrom

variable {place : String} {complaint : Complaint} {first others : List ManifestFault}

theorem nil : ShowsFrom ns [] := nofun

theorem append (h : ShowsFrom ns first) (h' : ShowsFrom ns others) :
    ShowsFrom ns (first ++ others) := fun f hf => (List.mem_append.mp hf).elim (h f) (h' f)

theorem single (h : ∀ v ∈ complaint.shown, v.integers ⊆ ns) : ShowsFrom ns [⟨place, complaint⟩] :=
  fun _ hf => List.mem_singleton.mp hf ▸ h

theorem plain (h : complaint.shown = []) : ShowsFrom ns [⟨place, complaint⟩] :=
  single fun v hv => by rw [h] at hv; cases hv

theorem flatten {lists : List (List ManifestFault)} (h : ∀ l ∈ lists, ShowsFrom ns l) :
    ShowsFrom ns lists.flatten := by
  intro f hf
  obtain ⟨l, hl, hmem⟩ := List.mem_flatten.mp hf
  exact h l hl f hmem

theorem flatMap {l : List α} {g : α → List ManifestFault} (h : ∀ a ∈ l, ShowsFrom ns (g a)) :
    ShowsFrom ns (l.flatMap g) := by
  intro f hf
  obtain ⟨a, ha, hmem⟩ := List.mem_flatMap.mp hf
  exact h a ha f hmem

theorem mapIdx {l : List α} {g : Nat → α → List ManifestFault}
    (h : ∀ index, ∀ a ∈ l, ShowsFrom ns (g index a)) : ShowsFrom ns (l.mapIdx g).flatten := by
  refine flatten fun faults hfaults => ?_
  obtain ⟨index, hindex, rfl⟩ := List.mem_mapIdx.mp hfaults
  exact h index _ (List.getElem_mem hindex)

theorem filterMap {l : List α} {g : α → Option ManifestFault}
    (h : ∀ a ∈ l, ∀ f, g a = some f → ShowsFrom ns [f]) : ShowsFrom ns (l.filterMap g) := by
  intro f hf
  obtain ⟨a, ha, hg⟩ := List.mem_filterMap.mp hf
  exact h a ha f hg f List.mem_cons_self

theorem ite {p : Prop} [Decidable p] (h : ShowsFrom ns first) (h' : ShowsFrom ns others) :
    ShowsFrom ns (if p then first else others) := by
  split
  · exact h
  · exact h'

end ShowsFrom

/-- A result, a rejection with at least one fault and without a file, or the end at an integer of a
list that has no numeral. -/
inductive Judged (ns : List Int) : Except Failure α → Prop
  | read (a : α) : Judged ns (.ok a)
  | rejected (title : String) (faults : List ManifestFault) (h : faults ≠ []) :
    Judged ns (.error (.manifest title faults none))
  | unwritable (n : Int) (hmem : n ∈ ns) (h : isWritable n = false) :
    Judged ns (.error (.numeral (.unwritable n)))

namespace Judged

theorem map (f : α → β) {r : Except Failure α} (h : Judged ns r) : Judged ns (r.map f) := by
  cases h with
  | read a => exact .read (f a)
  | rejected title faults hfaults => exact .rejected title faults hfaults
  | unwritable n hmem hn => exact .unwritable n hmem hn

theorem ofManifest (title : String) {faults : List ManifestFault} (hne : faults ≠ [])
    (h : ShowsFrom ns faults) :
    Judged ns (.error (.ofManifest title faults none) : Except Failure α) := by
  unfold Failure.ofManifest
  split
  · rename_i n hn
    obtain ⟨f, hf, hshown⟩ := List.exists_of_findSome?_eq_some hn
    obtain ⟨v, hv, hfound⟩ := List.exists_of_findSome?_eq_some hshown
    obtain ⟨hmem, hwritable⟩ := Value.of_unwritable? hfound
    exact .unwritable n (h f hf v hv hmem) hwritable
  · exact .rejected title faults hne

theorem iff {r : Except Failure α} :
    Judged ns r ↔ (∃ a, r = .ok a) ∨
      (∃ title faults, faults ≠ [] ∧ r = .error (.manifest title faults none)) ∨
        ∃ n ∈ ns, isWritable n = false ∧ r = .error (.numeral (.unwritable n)) := by
  constructor
  · rintro (⟨a⟩ | ⟨title, faults, h⟩ | ⟨n, hmem, h⟩)
    · exact .inl ⟨a, rfl⟩
    · exact .inr (.inl ⟨title, faults, h, rfl⟩)
    · exact .inr (.inr ⟨n, hmem, h, rfl⟩)
  · rintro (⟨a, rfl⟩ | ⟨title, faults, h, rfl⟩ | ⟨n, hmem, h, rfl⟩)
    · exact .read a
    · exact .rejected title faults h
    · exact .unwritable n hmem h

end Judged

namespace Manifest

variable {m read : Manifest} {data : Table String Value} {version : Option Value}
  {source : Option String}

theorem showsFrom_describingText (key : String) (v : Option Value) :
    ShowsFrom ns (describingText key v).2 := by
  unfold describingText
  split
  · exact .nil
  · exact .plain rfl

theorem withDescription_judged (m : Manifest) (data : Table String Value)
    (version : Option Value) : Judged ns (m.withDescription data version none) := by
  unfold withDescription
  dsimp only
  split
  · exact .read _
  · rename_i hfaults
    refine .ofManifest _ (fun h => hfaults (List.isEmpty_iff.mpr h)) ?_
    exact ((showsFrom_describingText _ _).append (showsFrom_describingText _ _)).append
      (showsFrom_describingText _ _)

theorem eq_of_withDescription (h : m.withDescription data version source = .ok read) :
    ∃ name description version, read = { m with name, description, version, source } := by
  unfold withDescription at h
  dsimp only at h
  split at h
  · cases h
    exact ⟨_, _, _, rfl⟩
  · cases h

theorem of_withDescription (h : m.withDescription data version source = .ok read) :
    read.modifiers = m.modifiers ∧ read.generate = m.generate ∧ read.maxDepth = m.maxDepth := by
  obtain ⟨name, description, version, rfl⟩ := eq_of_withDescription h
  exact ⟨rfl, rfl, rfl⟩

end Manifest

namespace Upft

variable {place : String} {options : List String} {raw : Table String Value}

/-! ### What the faults of the plain form show -/

theorem showsFrom_setFaults (index : Nat) (raw : Value) : ShowsFrom ns (setFaults index raw) := by
  unfold setFaults
  dsimp only
  split
  · refine .append ?_ ?_
    · unfold filesFaults
      split
      · exact .plain rfl
      · exact .plain rfl
      · exact .ite .nil (.plain rfl)
    · unfold nameFaults
      split
      · exact .nil
      · exact .nil
      · exact .nil
      · exact .plain rfl
  · exact .plain rfl

theorem showsFrom_valuesFaults (v : Option Value) :
    ShowsFrom ns (valuesFaults place options v) := by
  unfold valuesFaults
  split
  · exact .nil
  · exact .flatMap fun _ _ => .append (.ite .nil (.plain rfl)) (.ite .nil (.plain rfl))
  · exact .plain rfl

theorem showsFrom_defaultFaults {isOneOf : Bool} {v : Option Value}
    (h : ∀ w, v = some w → w.integers ⊆ ns) :
    ShowsFrom ns (defaultFaults place isOneOf options v) := by
  unfold defaultFaults
  split
  · exact .nil
  · rename_i w
    refine .ite (.ite .nil (.single fun u hu => ?_)) (.plain rfl)
    rw [List.mem_singleton.mp hu]
    exact h w rfl

theorem showsFrom_kindFaults {isOneOf : Bool} (h : (Value.object raw).integers ⊆ ns) :
    ShowsFrom ns (kindFaults place raw isOneOf) := by
  unfold kindFaults
  dsimp only
  split
  · exact .plain rfl
  · refine .append (.append (.ite (.plain rfl) .nil) (showsFrom_valuesFaults _)) ?_
    exact showsFrom_defaultFaults fun w hw =>
      List.Subset.trans (Value.integers_get?_subset hw) h

theorem showsFrom_modifierFaults {entry : String × Value} (h : entry.2.integers ⊆ ns) :
    ShowsFrom ns (modifierFaults entry) := by
  obtain ⟨name, v⟩ := entry
  cases v with
  | object members => exact .ite (.plain rfl) (showsFrom_kindFaults h)
  | _ => exact .plain rfl

theorem showsFrom_generateFaults (modifiers : Table String Value) (index : Nat) (raw : Value) :
    ShowsFrom ns (generateFaults modifiers index raw) := by
  unfold generateFaults
  dsimp only
  split
  · refine .flatMap fun entry _ => ?_
    unfold generateMemberFaults
    exact .ite (.ite .nil (.plain rfl)) (.ite (.ite .nil (.plain rfl))
      (.ite (.ite .nil (.plain rfl)) (.plain rfl)))
  · exact .plain rfl

theorem showsFrom_faults (data : Table String Value) :
    ShowsFrom (Value.object data).integers (faults data) := by
  refine .append (.append (.append ?_ ?_) ?_) ?_
  · unfold setsFaults
    split
    · exact .plain rfl
    · exact .plain rfl
    · exact .mapIdx fun index raw _ => showsFrom_setFaults index raw
    · exact .plain rfl
  · cases hmodifiers : data.get? "modifiers" with
    | none => exact .plain rfl
    | some v =>
      have hv := Value.integers_get?_subset hmodifiers
      cases v with
      | object members =>
        exact .flatMap fun entry hentry =>
          showsFrom_modifierFaults (List.Subset.trans (Value.integers_member_subset hentry) hv)
      | _ => exact .plain rfl
  · unfold generateListFaults
    split
    · exact .nil
    · exact .mapIdx fun index raw _ => showsFrom_generateFaults _ index raw
    · exact .plain rfl
  · unfold optionsFaults
    split
    · exact .nil
    · exact .nil
    · exact .plain rfl

theorem showsFrom_setting? {options : Table String Value} {names : List String}
    {read : Value → Except SettingFault α} {default : α} :
    ShowsFrom ns (setting? options names read default).2 := by
  unfold setting?
  split
  · exact .nil
  · split
    · exact .nil
    · exact .plain rfl

theorem parse_judged (data : Table String Value) :
    Judged (Value.object data).integers (parse data none) := by
  unfold parse
  split
  · rename_i hfaults
    exact .ofManifest _ (List.cons_ne_nil _ _) (hfaults ▸ showsFrom_faults data)
  · dsimp only
    split
    · rename_i hsettings
      refine .ofManifest _ (List.cons_ne_nil _ _) ?_
      rw [← hsettings]
      exact showsFrom_setting?.append showsFrom_setting?
    · exact (Manifest.withDescription_judged _ _ _).map _

end Upft

end DesignTokens
