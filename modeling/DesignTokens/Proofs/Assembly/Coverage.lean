import DesignTokens.Proofs.Assembly.Visit
import DesignTokens.Proofs.Graph.Components
import Mathlib.Data.Set.Basic

/-!
# An assembly reaches every token

After the places of a file are assembled, the tokens there that have pointers are done
(`ends_assembleFile`), and the files that are assembled are all files of the project
(`Project.mem_assemblyOrder`).  What a token has become then is read off the invariant
(`Idle.filled`), and it does not depend on what was assembled besides
(`Project.outcome_assemble`, `Project.outcome_assembleFile`).
-/

namespace DesignTokens

/-- What a token of a file has become after an assembly: the pointers that stand for something
are replaced and the others are reported, and no pointer is left exactly if the token is good. -/
structure Project.Filled (p : Project) (file : String) (place : Place) (t u : Token)
    (problems : List Problem) : Prop where
  parts : ∃ part : String → Option Value, (∀ ref w, part ref = some w ↔ p.Stands file ref w) ∧
    u.value = t.value.including part ∧
    reportedOn problems file t.path = (Assembly.failing part t.value.outerPointers).map some
  good : p.Good file place → u.pointers = [] ∧ p.Expands file place u.value
  bad : ¬ p.Good file place → u.pointers ≠ []

namespace Assembly

variable {base : Project} {limit : Int} {s : Assembly} {file : String} {place : Place} {t : Token}
  {about : TokenKey → List (Option String)} {finished : Set (String × Place)}
  {stack : List TokenKey}

/-! ### What a token has become -/

namespace Running

theorem mono (h : Running base limit stack about finished s) {others : Set (String × Place)}
    (hothers : ∀ file place t, (file, place) ∈ others → base.tokenAt? file place = some t →
      t.pointers ≠ [] → (file, place) ∈ finished) :
    Running base limit stack about others s where
  steady := h.steady
  inProgress := h.inProgress
  about := h.about
  finished := fun file place t hmem ht hpointers =>
    h.finished file place t (hothers file place t hmem ht hpointers) ht hpointers

theorem insert (h : Running base limit stack about finished s)
    (hdone : ∀ t, base.tokenAt? file place = some t → t.pointers ≠ [] → (file, t.path) ∈ s.done) :
    Running base limit stack about (insert (file, place) finished) s where
  steady := h.steady
  inProgress := h.inProgress
  about := h.about
  finished := fun other spot u hmem hu hpointers => by
    rcases hmem with he | hmem
    · cases he
      exact hdone u hu hpointers
    · exact h.finished other spot u hmem hu hpointers

end Running

/-- No token is in progress. -/
abbrev Idle (base : Project) (limit : Int) (finished : Set (String × Place)) : Assembly → Prop :=
  Running base limit [] (fun _ => []) finished

theorem Idle.filled (hbase : base.Sound) (h : Idle base limit finished s)
    (hmem : (file, place) ∈ finished) (ht : base.tokenAt? file place = some t) :
    ∃ u, s.tokenAt? file place = some u ∧ u.value = t.value.including (base.part file) ∧
      base.Filled file place t u s.problems := by
  have hnow := h.steady.tokenAt ht
  have hidle : (file, t.path) ∉ s.inProgress := by
    rw [h.inProgress]
    exact List.not_mem_nil
  have hreports := h.steady.reports file place t ht hidle
  have hafter : ∃ u, s.tokenAt? file place = some u ∧
      u.value = t.value.including (base.part file) ∧
      (u.pointers = [] ↔ base.Good file place) ∧
      reportedOn s.problems file t.path =
        (failing (base.part file) t.value.outerPointers).map some := by
    by_cases hdone : (file, t.path) ∈ s.done
    · rw [current_of_mem hdone] at hnow
      rw [if_pos hdone] at hreports
      exact ⟨_, hnow, rfl, hbase.pointers_eq_nil_iff ht, hreports⟩
    · have hpointers : t.pointers = [] := by
        by_contra hpointers
        exact hdone (h.finished file place t hmem ht hpointers)
      have houter : t.value.outerPointers = [] :=
        Value.outerPointers_eq_nil (hbase.refsAreTexts file place t ht)
          ((hbase.tracked ht).pointers ▸ hpointers)
      rw [current_of_not_mem hdone] at hnow
      rw [if_neg hdone] at hreports
      refine ⟨t, hnow, (Value.including_eq_self houter).symm, ?_, ?_⟩
      · rw [Project.good_iff ht, houter]
        exact iff_of_true hpointers rfl
      · rw [hreports, houter]
        rfl
  obtain ⟨u, hu, hvalue, hpointers, hreported⟩ := hafter
  refine ⟨u, hu, hvalue, ⟨base.part file, fun _ _ => Project.part_eq_some_iff, hvalue, hreported⟩,
    fun hgood => ⟨hpointers.mpr hgood, ?_⟩, fun hbad hnone => hbad (hpointers.mp hnone)⟩
  exact (Project.expands_iff ht).mpr ⟨(Project.good_iff ht).mp hgood, hvalue⟩

/-! ### All tokens -/

theorem idle_start (hbase : base.Sound) (limit : Int) :
    Idle base limit ∅ (start base limit) where
  steady :=
    { maxDepth := rfl
      fileOf := fun _ _ => rfl
      keysDistinct := fun file tree htree => (hbase.prepared file tree htree).keysDistinct
      tokens := fun file place => by
        have hcurrent : current base [] file = id :=
          funext fun t => current_of_not_mem List.not_mem_nil
        show base.tokenAt? file place = (base.tokenAt? file place).map (current base [] file)
        rw [hcurrent, Option.map_id]
        rfl
      running := fun key hkey => absurd hkey List.not_mem_nil
      reports := fun file place t ht _ => rfl
      marked := fun file path hreported => absurd rfl hreported
      failed := fun file place t ht hhas => by cases hhas }
  inProgress := rfl
  about := fun key hkey => absurd hkey List.not_mem_nil
  finished := fun file place t hmem => absurd hmem (Set.notMem_empty _)

section

variable {keys : List TokenKey}

/-- The place of a token that is assembled while no other is in progress is finished. -/
theorem ends_assembleToken_idle (hbase : base.Sound)
    (hkeys : ∀ file place t, base.tokenAt? file place = some t → (file, t.path) ∈ keys)
    (hbound : keys.length ≤ hopsWithin limit) (ht : base.tokenAt? file place = some t)
    (finished : Set (String × Place)) :
    Ends (Idle base limit finished) (assembleToken (hopsWithin limit) file place)
      fun _ => Idle base limit (insert (file, place) finished) := by
  refine (ends_assembleToken hbase hkeys ht List.nodup_nil
    (fun key hkey => absurd hkey List.not_mem_nil) hbound).imp (fun _ hr => hr) ?_
  rintro ready r ⟨hr, -, hdone⟩
  refine hr.insert fun t' ht' _ => ?_
  obtain rfl := Option.some.inj (ht.symm.trans ht')
  exact hdone.resolve_right List.not_mem_nil

theorem mem_insert_place {front : List Place} {x : String × Place}
    (h : x ∈ finished ∪ {x | x.1 = file ∧ x.2 ∈ front ++ [place]}) :
    x ∈ insert (file, place) (finished ∪ {x | x.1 = file ∧ x.2 ∈ front}) := by
  rcases h with h | ⟨hfile, hplace⟩
  · exact Or.inr (Or.inl h)
  · rcases List.mem_append.mp hplace with hplace | hplace
    · exact Or.inr (Or.inr ⟨hfile, hplace⟩)
    · exact Or.inl (Prod.ext hfile (List.mem_singleton.mp hplace))

theorem ends_assemblePlaces (hbase : base.Sound)
    (hkeys : ∀ file place t, base.tokenAt? file place = some t → (file, t.path) ∈ keys)
    (hbound : keys.length ≤ hopsWithin limit) (file : String) (places : List Place)
    (finished : Set (String × Place)) :
    Ends (Idle base limit finished) (assemblePlaces file places)
      fun _ => Idle base limit (finished ∪ {x | x.1 = file ∧ x.2 ∈ places}) := by
  refine (ends_places (J := fun front =>
    Idle base limit (finished ∪ {x | x.1 = file ∧ x.2 ∈ front}))
    [] places (fun _ s hs => hs.steady.maxDepth) ?_ ?_).imp
      (fun s hs => hs.mono fun other spot t hmem _ _ => ?_) fun _ _ h => h
  · intro front place rest s _ hs hnone
    refine (hs.insert fun t ht hsome => ?_).mono fun other spot t hmem _ _ => mem_insert_place hmem
    by_contra hdone
    have hnow := hs.steady.tokenAt ht
    rw [current_of_not_mem hdone] at hnow
    exact hsome (hnone t hnow)
  · intro front place rest _ s ⟨hs, u, hu, _⟩
    obtain ⟨t, ht, -⟩ := hs.steady.exists_token hu
    refine ((ends_assembleToken_idle hbase hkeys hbound ht _).imp (fun _ h => h)
      fun _ s hs => hs.mono fun other spot t hmem _ _ => ?_) s hs
    exact mem_insert_place hmem
  · exact hmem.elim id fun hnone => absurd hnone.2 List.not_mem_nil

theorem ends_assembleFile (hbase : base.Sound)
    (hkeys : ∀ file place t, base.tokenAt? file place = some t → (file, t.path) ∈ keys)
    (hbound : keys.length ≤ hopsWithin limit) (file : String) (finished : Set (String × Place)) :
    Ends (Idle base limit finished) (assembleFile file)
      fun _ => Idle base limit (finished ∪ {x | x.1 = file}) := by
  unfold assembleFile
  refine .get_bind fun s hs => ?_
  cases htree : s.project.tree? file with
  | none =>
    refine .pure ?_
    rintro _ rfl
    refine hs.mono fun other spot t hmem ht _ => hmem.elim id fun he => ?_
    obtain rfl : other = file := he
    have hnow := hs.steady.tokenAt ht
    rw [tokenAt?, htree] at hnow
    cases hnow
  | some tree =>
    refine (ends_assemblePlaces hbase hkeys hbound file _ finished).imp ?_ fun _ r hr => ?_
    · rintro _ rfl
      exact hs
    · refine hr.mono fun other spot t hmem ht _ => hmem.imp id fun he => ⟨he, ?_⟩
      obtain rfl : other = file := he
      have hnow := hs.steady.tokenAt ht
      rw [tokenAt?, htree] at hnow
      have hm := (Group.mem_placedTokens_iff (hs.steady.keysDistinct other tree htree)).mpr hnow
      exact List.mem_map.mpr ⟨_, hm, rfl⟩

theorem ends_assembleFiles (hbase : base.Sound)
    (hkeys : ∀ file place t, base.tokenAt? file place = some t → (file, t.path) ∈ keys)
    (hbound : keys.length ≤ hopsWithin limit) (files : List String)
    (finished : Set (String × Place)) :
    Ends (Idle base limit finished) (assembleFiles files)
      fun _ => Idle base limit (finished ∪ {x | x.1 ∈ files}) := by
  induction files generalizing finished with
  | nil =>
    rw [assembleFiles]
    refine .pure fun s hs => hs.mono fun other spot t hmem _ _ => ?_
    exact hmem.elim id fun hnone => absurd hnone List.not_mem_nil
  | cons file files ih =>
    rw [assembleFiles]
    refine (ends_assembleFile hbase hkeys hbound file finished).bind fun _ => ?_
    refine (ih _).imp (fun _ hs => hs) fun _ s hs => hs.mono fun other spot t hmem _ _ => ?_
    rcases hmem with hmem | hmem
    · exact Or.inl (Or.inl hmem)
    · rcases List.mem_cons.mp hmem with rfl | hmem
      · exact Or.inl (Or.inr rfl)
      · exact Or.inr hmem

end

end Assembly

namespace Project

variable {p : Project} {keys : List TokenKey} {maxDepth : Int}

theorem mem_assemblyOrder {file : String} (h : file ∈ p.files.keys) : file ∈ p.assemblyOrder := by
  unfold assemblyOrder
  cases horder : p.fileOrder.order with
  | none => exact h
  | some order =>
    obtain ⟨f, hf, rfl⟩ := List.mem_map.mp h
    refine List.mem_filter.mpr ⟨(Graph.mem_order_iff horder).mpr ?_,
      (Table.has_iff_mem_keys _ _).mpr h⟩
    exact ⟨_, List.mem_map.mpr ⟨f, hf, rfl⟩, Or.inl rfl⟩

theorem mem_keys_of_mem_assemblyOrder {file : String} (h : file ∈ p.assemblyOrder) :
    file ∈ p.files.keys := by
  unfold assemblyOrder at h
  split at h
  · exact (Table.has_iff_mem_keys _ _).mp (List.mem_filter.mp h).2
  · exact h

theorem mem_keys_of_tokenAt? {file : String} {place : Place} {t : Token}
    (h : p.tokenAt? file place = some t) : file ∈ p.files.keys := by
  obtain ⟨tree, htree, -⟩ := Option.bind_eq_some_iff.mp h
  obtain ⟨f, hf, -⟩ := Option.map_eq_some_iff.mp htree
  exact List.mem_map.mpr ⟨_, Table.mem_of_get? hf, rfl⟩

theorem finish_of_run {m : AssemblyM Unit} {s t : Assembly} (h : m.run.run s = (.ok (), t)) :
    finish (m.run.run s) = (t.project, .ok t.problems) := by
  rw [h]
  rfl

/-- What holds once the places of a file have had their turn holds when the assembly of the file has
come to its end. -/
theorem exists_assembled (hp : p.Sound) {file : String} {J : List Place → Assembly → Prop}
    (hstart : J [] (Assembly.start p maxDepth))
    (h : ∀ tree, p.tree? file = some tree →
      Assembly.Ends (J []) (Assembly.assemblePlaces file (tree.placedTokens.map Prod.fst))
        fun _ => J (tree.placedTokens.map Prod.fst)) :
    ∃ (s : Assembly) (places : List Place),
      p.assembleFile file maxDepth = (s.project, .ok s.problems) ∧
      (∀ place t, p.tokenAt? file place = some t → place ∈ places) ∧ J places s := by
  unfold assembleFile
  cases htree : p.tree? file with
  | none =>
    refine ⟨Assembly.start p maxDepth, [], ?_, fun place t ht => ?_, hstart⟩
    · apply finish_of_run
      exact Assembly.run_assembleFile_none htree
    · rw [tokenAt?, htree] at ht
      cases ht
  | some tree =>
    obtain ⟨⟨⟩, s, hrun, hs⟩ := h tree htree _ hstart
    refine ⟨s, tree.placedTokens.map Prod.fst, ?_, fun place t ht => ?_, hs⟩
    · apply finish_of_run
      exact (Assembly.run_assembleFile_some htree).trans hrun
    · rw [tokenAt?, htree] at ht
      have hm := (Group.mem_placedTokens_iff (hp.prepared file tree htree).keysDistinct).mpr ht
      exact List.mem_map.mpr ⟨_, hm, rfl⟩

def valueAt? (p : Project) (file : String) (place : Place) : Option Value :=
  (p.tokenAt? file place).map Token.value

/-- What a project and its problems are after an assembly of some places. -/
structure Outcome (p : Project) (finished : Set (String × Place))
    (result : Project × Except NumeralFault (List Problem)) : Prop where
  values : ∀ file place, (file, place) ∈ finished →
    result.1.valueAt? file place = (p.valueAt? file place).map fun v => v.including (p.part file)
  filled : ∃ problems, result.2 = .ok problems ∧
    ∀ file place t, (file, place) ∈ finished → p.tokenAt? file place = some t →
      ∃ u, result.1.tokenAt? file place = some u ∧ p.Filled file place t u problems

theorem outcome_of_idle {finished : Set (String × Place)} {s : Assembly} (hp : p.Sound)
    (h : Assembly.Idle p maxDepth finished s) :
    p.Outcome finished (s.project, .ok s.problems) where
  values := fun file place hmem => by
    show (s.tokenAt? file place).map Token.value = _
    unfold valueAt?
    cases ht : p.tokenAt? file place with
    | none =>
      have hnow := h.steady.tokens file place
      rw [ht] at hnow
      rw [hnow]
      rfl
    | some t =>
      obtain ⟨u, hu, hvalue, -⟩ := h.filled hp hmem ht
      rw [hu]
      exact congrArg some hvalue
  filled := ⟨s.problems, rfl, fun file place t hmem ht => by
    obtain ⟨u, hu, -, hfilled⟩ := h.filled hp hmem ht
    exact ⟨u, hu, hfilled⟩⟩

theorem outcome_assembleFile (hp : p.Sound)
    (hkeys : ∀ file place t, p.tokenAt? file place = some t → (file, t.path) ∈ keys)
    (hbound : keys.length ≤ Assembly.hopsWithin maxDepth) (file : String) :
    p.Outcome {x | x.1 = file} (p.assembleFile file maxDepth) := by
  obtain ⟨⟨⟩, s, hrun, hs⟩ := Assembly.ends_assembleFile hp hkeys hbound file ∅ _
    (Assembly.idle_start hp maxDepth)
  unfold assembleFile
  rw [finish_of_run hrun]
  exact outcome_of_idle hp (hs.mono fun _ _ _ hmem _ _ => Or.inr hmem)

theorem outcome_assemble (hp : p.Sound)
    (hkeys : ∀ file place t, p.tokenAt? file place = some t → (file, t.path) ∈ keys)
    (hbound : keys.length ≤ Assembly.hopsWithin maxDepth) :
    p.Outcome Set.univ (p.assemble maxDepth) := by
  obtain ⟨⟨⟩, s, hrun, hs⟩ := Assembly.ends_assembleFiles hp hkeys hbound p.assemblyOrder ∅ _
    (Assembly.idle_start hp maxDepth)
  unfold assemble
  rw [finish_of_run hrun]
  refine outcome_of_idle hp (hs.mono fun file place t _ ht _ => Or.inr ?_)
  exact mem_assemblyOrder (mem_keys_of_tokenAt? ht)

end Project

end DesignTokens
