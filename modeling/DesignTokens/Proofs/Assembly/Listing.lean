import DesignTokens.Proofs.Assembly.Unfollowed

/-!
# An assembly lists what it cannot follow

The invariant `Assembly.Noted` is carried through a whole assembly: a pointer is replaced
by what it stands for, or it stays and is listed (`ends_replacement_noted`), so a token is
finished with all pointers that are left in it listed (`ends_assembleToken_noted`).

`Project.assembleFile_listed` is the result.  It holds for every limit that can be written, with
cycles of pointers and with pointers that lead nowhere.
-/

namespace DesignTokens.Assembly

variable {base : Project} {limit : Int} {before : List Problem} {finished : Set (String × Place)}
  {stack : List TokenKey} {s : Assembly} {file ref target : String} {place spot : Place}
  {t u : Token} {rest : List String}

/-- The answer that a token is ready: no pointer is left in it. -/
def ReadyAnswer (file : String) (place : Place) (ready : Bool) (s : Assembly) : Prop :=
  ready = true → ∃ u, s.tokenAt? file place = some u ∧ u.pointers = []

/-! ### Following -/

theorem ends_answer_noted (haims : base.Aims file ref target spot rest)
    (hreadable : ∀ segment ∈ rest, Pointer.index segment ≠ .unreadable) (ready : Bool) :
    Ends (fun s => Noted base limit before finished stack s ∧ ReadyAnswer target spot ready s)
      (answer ref target spot u rest ready) fun r s =>
        Noted base limit before finished stack s ∧
          ∀ w, r = .ok w → base.part file ref = some w := by
  refine ends_answer (R := fun ready s => Noted base limit before finished stack s ∧
    ReadyAnswer target spot ready s) (fun s hs => ?_) (fun s cause hs => ⟨hs.1, nofun⟩) ready
  obtain ⟨v, hv, hpointers⟩ := hs.2 rfl
  obtain ⟨t, ht⟩ := hs.1.present target spot v hv
  obtain ⟨v', hv', hfate⟩ := hs.1.tokens target spot t ht
  obtain rfl := Option.some.inj (hv.symm.trans hv')
  obtain ⟨result, hresult⟩ := @Pointer.exists_descend ref _ hreadable v.value
  refine ⟨v, result, hv, hresult, hs.1, fun w hw => ?_⟩
  cases result with
  | ok part =>
    obtain rfl := Except.ok.inj hw
    exact Project.part_eq_some_iff.mpr
      ⟨target, spot, rest, v.value, haims, hfate.expands ht hpointers, hresult⟩
  | error cause => cases hw

/-- What is asked of the way in which other tokens are assembled. -/
def Assembling (base : Project) (limit : Int) (finished : Set (String × Place))
    (stack : List TokenKey) (assemble : String → Place → AssemblyM Bool) : Prop :=
  ∀ before target spot t, base.tokenAt? target spot = some t →
    Ends (Noted base limit before finished stack) (assemble target spot) fun ready s =>
      Noted base limit before finished stack s ∧ ReadyAnswer target spot ready s

section

variable {assemble : String → Place → AssemblyM Bool}

/-- A pointer that is followed leads to what it stands for. -/
theorem ends_follow_noted (hbase : base.Sound) (ht : base.tokenAt? file place = some t)
    (href : ref ∈ t.value.outerPointers)
    (hassemble : Assembling base limit finished stack assemble) :
    Ends (Noted base limit before finished stack) (follow assemble file ref) fun r s =>
      Noted base limit before finished stack s ∧
        ∀ w, r = .ok w → base.part file ref = some w := by
  refine ends_follow (fun s fault hs _ => ⟨hs, nofun⟩) fun s target spot u rest hs hlocate => ?_
  obtain ⟨q, hq, htarget, hsegments, hu⟩ := locate_eq_ok_iff.mp hlocate
  obtain ⟨v, hv⟩ := hs.present target spot u hu
  have haims : base.Aims file ref target spot rest :=
    ⟨⟨q, hq, hs.fileOf q file ▸ htarget, hsegments⟩, v, hv⟩
  refine ⟨fun ready s => Noted base limit before finished stack s ∧ ReadyAnswer target spot ready s,
    fun hpointers => ⟨hs, fun _ => ⟨u, hu, hpointers⟩⟩, fun _ => ?_,
    ends_answer_noted haims (readable_rest hbase ht href haims)⟩
  refine (hassemble before target spot v hv).imp ?_ fun _ _ h => h
  rintro _ rfl
  exact hs

/-- A pointer is replaced by what it stands for, or it stays and is listed. -/
theorem ends_replacement_noted (hbase : base.Sound) (ht : base.tokenAt? file place = some t)
    (href : ref ∈ t.value.outerPointers)
    (hassemble : Assembling base limit finished stack assemble) (noted : List String) :
    Ends (fun s => Noted base limit before finished stack s ∧
        ∀ ref ∈ noted, Listed s.problems file t.path ref)
      (replacement assemble file t.path ref) fun r s =>
        (∃ w, r = some w ∧ base.part file ref = some w ∧
          Noted base limit before finished stack s ∧
            ∀ ref ∈ noted, Listed s.problems file t.path ref) ∨
        (r = none ∧ Noted base limit before finished stack s ∧
          ∀ other ∈ noted ++ [ref], Listed s.problems file t.path other) := by
  rintro s ⟨hs, hnoted⟩
  have hfollow : Ends (Noted base limit s.problems finished stack) (follow assemble file ref) _ :=
    ends_follow_noted hbase ht href hassemble
  refine ends_replacement (P := (· = s)) (hfollow.imp ?_ fun _ _ h => h) ?_ ?_ s rfl
  · rintro _ rfl
    exact hs.restart
  · rintro w r ⟨hr, hpart⟩
    exact Or.inl ⟨w, rfl, hpart w rfl, hr.since hs.kept, fun other hother =>
      (hnoted other hother).mono hr.kept⟩
  · rintro kind cause r ⟨hr, -⟩
    refine Or.inr ⟨rfl, (hr.since hs.kept).record t.path kind cause (some ref),
      fun other hother => ?_⟩
    rcases List.mem_append.mp hother with hother | hother
    · exact (hnoted other hother).mono fun e he => List.mem_append_left _ (hr.kept e he)
    · obtain rfl := List.mem_singleton.mp hother
      exact ⟨_, List.mem_append_right _ List.mem_cons_self, rfl, rfl, rfl⟩

end

/-! ### Assembling -/

/-- The rest of the work on a token: it is done, and ready if no pointer is left in it. -/
theorem ends_complete_noted (hbase : base.Sound) (ht : base.tokenAt? file place = some t)
    (hstack : (file, t.path) ∉ stack) {hops : Nat}
    (hassemble : Assembling base limit finished ((file, t.path) :: stack) (assembleToken hops)) :
    Ends (Noted base limit before finished ((file, t.path) :: stack))
      (complete hops file place t) fun ready s =>
        Noted base limit before finished stack s ∧ ReadyAnswer file place ready s ∧
          (file, t.path) ∈ s.done := by
  have htexts := hbase.refsAreTexts file place t ht
  have hparts : ∀ ref ∈ t.value.outerPointers, ∀ w, base.part file ref = some w → w.NoRefs :=
    fun ref _ w hw => (Project.part_eq_some_iff.mp hw).noRefs hbase.refsAreTexts
  have hexpand :=
    @ends_expandFollowed (replacement (assembleToken hops) file t.path) (base.part file)
    (fun noted s => Noted base limit before finished ((file, t.path) :: stack) s ∧
      ∀ ref ∈ noted, Listed s.problems file t.path ref) t.value htexts hparts
    (fun ref href noted => ends_replacement_noted hbase ht href hassemble noted) []
  have hstored : ∀ value s, (t.value.Followed (base.part file) value ∧
      Noted base limit before finished ((file, t.path) :: stack) s ∧
        ∀ ref ∈ [] ++ value.outerPointers, Listed s.problems file t.path ref) →
      Noted base limit before finished stack
          ((s.close (file, t.path)).modifyToken file place fun _ => t.assembled value) ∧
        (file, t.path) ∈
          ((s.close (file, t.path)).modifyToken file place fun _ => t.assembled value).done := by
    rintro value s ⟨hvalue, hs, hlisted⟩
    rw [done_modifyToken]
    exact ⟨hs.finish hbase ht hstack hvalue hlisted, List.mem_cons_self⟩
  refine ends_complete (hexpand.imp (fun _ hs => ⟨hs, nofun⟩) fun _ _ h => h) ?_ ?_
  · intro value s hs hnone
    obtain ⟨hnoted, hdone⟩ := hstored value s hs
    obtain ⟨u, hu, -⟩ := hs.2.1.tokens file place t ht
    exact ⟨hnoted, fun _ => ⟨_, tokenAt?_stored hu _, hnone⟩, hdone⟩
  · rintro value s hs - _ rfl
    obtain ⟨hnoted, hdone⟩ := hstored value s hs
    refine ⟨?_, nofun, hdone⟩
    exact hnoted.grow rfl rfl rfl rfl (fun _ hhas => Table.has_putNew.mpr (Or.inr hhas))
      (fun _ he => he) fun _ _ _ hlisted => Or.inl hlisted

theorem Noted.eq_of_waiting (h : Noted base limit before finished stack s)
    (ht : base.tokenAt? file place = some t) (hdone : (file, t.path) ∉ s.done) :
    s.tokenAt? file place = some t := by
  obtain ⟨u, hu, hfate⟩ := h.tokens file place t ht
  rw [hu, hfate.waiting hdone]

/-- A token has its turn if those to which it leads may have theirs. -/
theorem ends_turn_noted (hbase : base.Sound) (hlimit : isWritable limit = true) {hops : Nat}
    (ht : base.tokenAt? file place = some t)
    (hbelow : ∀ n, hops = n + 1 →
      Assembling base limit finished ((file, t.path) :: stack) (assembleToken n)) :
    Ends (Noted base limit before finished stack) (assembleToken hops file place) fun ready s =>
      Noted base limit before finished stack s ∧ ReadyAnswer file place ready s ∧
        ((file, t.path) ∈ s.done ∨ (file, t.path) ∈ stack ∨
          (hops = 0 ∧ TooDeep s.problems file t.path)) := by
  intro s hs
  obtain ⟨u, hu, hfate⟩ := hs.tokens file place t ht
  have hvisited := visited hops hu
  generalize (assembleToken hops file place).run.run s = out at hvisited ⊢
  rw [← hfate.path] at hbelow ⊢
  cases hvisited with
  | done hdone =>
    refine ⟨_, s, rfl, hs, fun hready => ⟨u, hu, ?_⟩, Or.inl hdone⟩
    by_contra hleft
    rw [hfate.path] at hdone hready
    rw [hfate.failed hdone hleft] at hready
    cases hready
  | running _ hrunning =>
    exact ⟨false, _, rfl, hs.fail _ _, nofun, Or.inr (Or.inl (hs.inProgress ▸ hrunning))⟩
  | late =>
    refine ⟨false, _, rfl, (hs.fail _ _).record u.path _ _ none, nofun, Or.inr (Or.inr ⟨rfl, ?_⟩)⟩
    exact ⟨_, List.mem_append_right _ List.mem_cons_self, rfl, rfl, rfl⟩
  | unwritable _ _ hnot =>
    rw [hs.maxDepth, hlimit] at hnot
    cases hnot
  | fresh hdone hrunning =>
    obtain rfl := hfate.waiting (hfate.path ▸ hdone)
    exact (ends_complete_noted hbase ht (hs.inProgress ▸ hrunning) (hbelow _ rfl)).imp
      (fun _ h => h) (fun ready s h => ⟨h.1, h.2.1, Or.inl h.2.2⟩) _ (hs.begin _)

/-- A token is assembled with some hops left: it is done, or in progress, or its depth is reported
since no hop is left. -/
theorem ends_assembleToken_noted (hbase : base.Sound) (hlimit : isWritable limit = true)
    {hops : Nat} (ht : base.tokenAt? file place = some t) :
    Ends (Noted base limit before finished stack) (assembleToken hops file place) fun ready s =>
      Noted base limit before finished stack s ∧ ReadyAnswer file place ready s ∧
        ((file, t.path) ∈ s.done ∨ (file, t.path) ∈ stack ∨
          (hops = 0 ∧ TooDeep s.problems file t.path)) := by
  induction hops generalizing file place t stack before with
  | zero => exact ends_turn_noted hbase hlimit ht nofun
  | succ hops ih =>
    refine ends_turn_noted hbase hlimit ht fun n hn before target spot v hv => ?_
    exact (Nat.succ.inj hn ▸ ih hv).imp (fun _ h => h) fun ready s h => ⟨h.1, h.2.1⟩

/-! ### All places of a file -/

/-- One place more has had its turn. -/
theorem Noted.turn {front : List Place}
    (h : Noted base limit before {x | x.1 = file ∧ x.2 ∈ front} stack s)
    (hturn : ∀ t, base.tokenAt? file place = some t → t.pointers ≠ [] →
      (file, t.path) ∈ s.done ∨ (limit < 0 ∧ TooDeep s.problems file t.path)) :
    Noted base limit before {x | x.1 = file ∧ x.2 ∈ front ++ [place]} stack s :=
  { h with
    finished := by
      rintro ⟨other, spot⟩ ⟨rfl, hmem⟩ t ht hpointers
      rcases List.mem_append.mp hmem with hmem | hmem
      · exact h.finished (other, spot) ⟨rfl, hmem⟩ t ht hpointers
      · obtain rfl := List.mem_singleton.mp hmem
        exact hturn t ht hpointers }

theorem ends_assemblePlaces_noted (hbase : base.Sound) (hlimit : isWritable limit = true)
    (file : String) (places : List Place) :
    Ends (Noted base limit before {x | x.1 = file ∧ x.2 ∈ []} []) (assemblePlaces file places)
      fun _ => Noted base limit before {x | x.1 = file ∧ x.2 ∈ places} [] := by
  refine ends_places (J := fun front => Noted base limit before {x | x.1 = file ∧ x.2 ∈ front} [])
    [] places (fun _ s hs => hs.maxDepth) ?_ ?_
  · intro front place rest s _ hs hnone
    refine hs.turn fun t ht hsome => Or.inl ?_
    by_contra hdone
    exact hsome (hnone t (hs.eq_of_waiting ht hdone))
  · rintro front place rest _ s ⟨hs, u, hu, -⟩
    obtain ⟨t, ht⟩ := hs.present file place u hu
    obtain ⟨ready, r, hrun, hr, -, hturn⟩ := ends_assembleToken_noted hbase hlimit ht s hs
    refine ⟨ready, r, hrun, hr.turn fun t' ht' _ => ?_⟩
    obtain rfl := Option.some.inj (ht.symm.trans ht')
    refine hturn.imp_right fun hlate => ?_
    obtain ⟨hzero, hdeep⟩ := hlate.resolve_left List.not_mem_nil
    unfold hopsWithin at hzero
    exact ⟨by omega, hdeep⟩

theorem noted_start (hbase : base.Sound) (limit : Int) :
    Noted base limit [] {x | x.1 = file ∧ x.2 ∈ []} [] (start base limit) where
  maxDepth := rfl
  fileOf _ _ := rfl
  inProgress := rfl
  tokens file place t ht := ⟨t, ht, fate_self hbase ht List.not_mem_nil⟩
  present file place u hu := ⟨u, hu⟩
  finished x hx := absurd hx.2 List.not_mem_nil
  marked file path ref hlisted := by
    obtain ⟨e, he, -⟩ := hlisted
    cases he
  kept e he := absurd he List.not_mem_nil

end DesignTokens.Assembly

namespace DesignTokens.Project

variable {p : Project}

/-- What a token of a file has become after an assembly with a limit: every pointer that stands for
nothing is left, and every pointer that is left is listed; or the limit is negative, the token is as
it was, and its depth is reported. -/
def Lists (p : Project) (file : String) (limit : Int) (problems : List Problem) (t u : Token) :
    Prop :=
  ((∀ ref ∈ t.value.outerPointers, (∀ w, ¬ p.Stands file ref w) → ref ∈ u.value.outerPointers) ∧
      ∀ ref ∈ u.value.outerPointers, Listed problems file t.path ref) ∨
    (limit < 0 ∧ u = t ∧ TooDeep problems file t.path)

/-- **An assembly of any project comes to its end and lists every pointer that it leaves**, with
every limit that can be written. -/
theorem assembleFile_listed (hp : p.Sound) (file : String) {maxDepth : Int}
    (hlimit : isWritable maxDepth = true) :
    ∃ q problems, p.assembleFile file maxDepth = (q, .ok problems) ∧
      ∀ place t, p.tokenAt? file place = some t →
        ∃ u, q.tokenAt? file place = some u ∧ p.Lists file maxDepth problems t u := by
  obtain ⟨s, places, hrun, hplaces, hs⟩ := exists_assembled hp
    (J := fun places => Assembly.Noted p maxDepth [] {x | x.1 = file ∧ x.2 ∈ places} [])
    (Assembly.noted_start hp maxDepth) fun tree _ =>
      Assembly.ends_assemblePlaces_noted hp hlimit file (tree.placedTokens.map Prod.fst)
  refine ⟨s.project, s.problems, hrun, fun place t ht => ?_⟩
  obtain ⟨u, hu, hfate⟩ := hs.tokens file place t ht
  refine ⟨u, hu, ?_⟩
  have hleft : ∀ ref ∈ t.value.outerPointers, (∀ w, ¬ p.Stands file ref w) →
      ref ∈ u.value.outerPointers := fun ref href hnone =>
    hfate.value.left ref href (part_eq_none hnone)
  by_cases hdone : (file, t.path) ∈ s.done
  · exact Or.inl ⟨hleft, hfate.listed hdone⟩
  · have hsame := hfate.waiting hdone
    by_cases hpointers : t.pointers = []
    · refine Or.inl ⟨hleft, fun ref href => ?_⟩
      have houter : t.value.outerPointers = [] := Value.outerPointers_eq_nil
        (hp.refsAreTexts file place t ht) ((hp.tracked ht).pointers ▸ hpointers)
      rw [hsame, houter] at href
      exact absurd href List.not_mem_nil
    · obtain ⟨hlimit, hdeep⟩ := (hs.finished (file, place) ⟨rfl, hplaces place t ht⟩ t ht
        hpointers).resolve_left hdone
      exact Or.inr ⟨hlimit, hsame, hdeep⟩

end DesignTokens.Project
