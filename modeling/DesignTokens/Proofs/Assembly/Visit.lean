import DesignTokens.Proofs.Assembly.Progress
import Mathlib.Data.List.Perm.Subperm
import Mathlib.Logic.Function.Basic

/-!
# Assembling one token

A token is assembled while others are in progress.  Each of these leads to it, so a
pointer to one of them closes a cycle, and the tokens on it are not good.  This is why
the order in which tokens are reached does not matter: what is said of a token is
whether it is good (`ends_assembleToken`), and nothing about the tokens in progress
enters the answer.

`Running` is the invariant while a stack of tokens is in progress.  A limit that is not
smaller than the number of tokens is never reached, since no token is in progress twice.
-/

namespace DesignTokens.Assembly

variable {base : Project} {limit : Int} {s : Assembly} {file target ref : String}
  {place spot : Place} {rest : List String} {t u : Token} {stack : List TokenKey}
  {about : TokenKey → List (Option String)} {finished : Set (String × Place)}

/-! ### Locating -/

namespace Steady

theorem aims_of_locate (h : Steady base limit s)
    (hlocate : s.locate file ref = .ok (target, place, u, rest)) :
    base.Aims file ref target place rest := by
  obtain ⟨q, hq, htarget, hsegments, hu⟩ := locate_eq_ok_iff.mp hlocate
  obtain ⟨t, ht, -⟩ := h.exists_token hu
  exact ⟨⟨q, hq, h.fileOf q file ▸ htarget, hsegments⟩, t, ht⟩

theorem part_of_locate_error (h : Steady base limit s) {fault : ProblemKind × Cause}
    (hlocate : s.locate file ref = .error fault) : base.part file ref = none := by
  refine Project.part_eq_none fun w hw => ?_
  obtain ⟨target, place, rest, whole, ⟨⟨q, hq, htarget, hsegments⟩, t, ht⟩, -, -⟩ := hw
  rw [← h.fileOf] at htarget
  have hfound := locate_eq_ok_iff.mpr ⟨q, hq, htarget, hsegments, h.tokenAt ht⟩
  rw [hlocate] at hfound
  cases hfound

end Steady

/-! ### Following -/

/-- What holds while the tokens of a stack are in progress: what is reported on them so far,
and of which places the tokens are done. -/
structure Running (base : Project) (limit : Int) (stack : List TokenKey)
    (about : TokenKey → List (Option String)) (finished : Set (String × Place)) (s : Assembly) :
    Prop where
  steady : Steady base limit s
  inProgress : s.inProgress = stack
  about : ∀ key ∈ stack, reportedOn s.problems key.1 key.2 = about key
  finished : ∀ file place t, (file, place) ∈ finished → base.tokenAt? file place = some t →
    t.pointers ≠ [] → (file, t.path) ∈ s.done

/-- The answer to whether a token is ready: its value is what it expands to, or it is not
good. -/
structure Answers (base : Project) (file : String) (place : Place) (ready : Bool)
    (s : Assembly) : Prop where
  expands : ready = true → ∃ u, s.tokenAt? file place = some u ∧ base.Expands file place u.value
  bad : ready = false → ¬ base.Good file place

theorem readable_rest (hbase : base.Sound) (ht : base.tokenAt? file place = some t)
    (href : ref ∈ t.value.outerPointers) (haims : base.Aims file ref target spot rest) :
    ∀ segment ∈ rest, Pointer.index segment ≠ .unreadable := by
  obtain ⟨⟨q, hq, -, hsegments⟩, -⟩ := haims
  intro segment hsegment
  refine hbase.readable file place t ht ref href q hq segment ?_
  rcases hsegments with ⟨-, rfl⟩ | he
  · exact absurd hsegment List.not_mem_nil
  · rw [he]
    exact List.mem_append_right _ (List.mem_cons_of_mem _ hsegment)

/-- Once it is known whether the token at which a pointer aims is ready, the answer is what the
pointer stands for. -/
theorem ends_answer_running (haims : base.Aims file ref target spot rest)
    (hreadable : ∀ segment ∈ rest, Pointer.index segment ≠ .unreadable) (ready : Bool) :
    Ends (fun s => Running base limit stack about finished s ∧ Answers base target spot ready s)
      (answer ref target spot u rest ready) fun r s =>
        r.toOption = base.part file ref ∧ Running base limit stack about finished s := by
  refine ends_answer (R := fun ready s => Running base limit stack about finished s ∧
    Answers base target spot ready s) (fun s hs => ?_) (fun s cause hs => ⟨?_, hs.1⟩) ready
  · obtain ⟨v, hv, hexpands⟩ := hs.2.expands rfl
    obtain ⟨result, hresult⟩ := @Pointer.exists_descend ref _ hreadable v.value
    refine ⟨v, result, hv, hresult, ?_, hs.1⟩
    cases result with
    | ok w =>
      have hstands : base.Stands file ref w :=
        ⟨target, spot, rest, v.value, haims, hexpands, hresult⟩
      exact (Project.part_eq_some_iff.mpr hstands).symm
    | error cause =>
      refine (Project.part_eq_none fun w hw => ?_).symm
      obtain ⟨target', spot', rest', whole, haims', hexpands', hdescend⟩ := hw
      obtain ⟨rfl, rfl, rfl⟩ := haims.unique haims'
      rw [hexpands'.unique hexpands, hresult] at hdescend
      cases Except.ok.inj hdescend
  · refine (Project.part_eq_none fun w hw => hs.2.bad rfl ?_).symm
    obtain ⟨target', spot', rest', whole, haims', hexpands, -⟩ := hw
    obtain ⟨rfl, rfl, rfl⟩ := haims.unique haims'
    exact ⟨whole, hexpands⟩

section

variable {assemble : String → Place → AssemblyM Bool}

/-- A pointer is followed to what it stands for, if the tokens to which its token leads are
assembled as they should. -/
theorem ends_follow_running (hbase : base.Sound) (ht : base.tokenAt? file place = some t)
    (href : ref ∈ t.value.outerPointers)
    (hassemble : ∀ target spot, base.Leads (file, place) (target, spot) →
      Ends (Running base limit stack about finished) (assemble target spot) fun ready s =>
        Running base limit stack about finished s ∧ Answers base target spot ready s) :
    Ends (Running base limit stack about finished) (follow assemble file ref) fun r s =>
      r.toOption = base.part file ref ∧ Running base limit stack about finished s := by
  refine ends_follow (fun s fault hs hlocate => ⟨(hs.steady.part_of_locate_error hlocate).symm, hs⟩)
    fun s target spot u rest hs hlocate => ⟨fun ready s =>
      Running base limit stack about finished s ∧ Answers base target spot ready s, ?_, ?_, ?_⟩
  · intro hpointers
    obtain ⟨-, -, -, -, hu⟩ := locate_eq_ok_iff.mp hlocate
    exact ⟨hs, fun _ => ⟨u, hu, hs.steady.expands_of_pointers hbase hu hpointers⟩, nofun⟩
  · intro _
    have haims := hs.steady.aims_of_locate hlocate
    refine (hassemble target spot ⟨t, ht, ref, href, rest, haims⟩).imp ?_ fun _ _ h => h
    rintro _ rfl
    exact hs
  · have haims := hs.steady.aims_of_locate hlocate
    exact ends_answer_running haims (readable_rest hbase ht href haims)

/-- A problem of a token in progress is one more that is reported on it. -/
theorem Running.record (hbase : base.Sound) (ht : base.tokenAt? file place = some t)
    (href : ref ∈ t.value.outerPointers) (hnone : base.part file ref = none)
    (hmem : (file, t.path) ∈ stack) {failed : List String}
    (h : Running base limit stack (Function.update about (file, t.path) (failed.map some)) finished
      s) (kind : ProblemKind) (cause : Cause) :
    Running base limit stack
      (Function.update about (file, t.path) ((failed ++ [ref]).map some)) finished
      (s.record file t.path kind cause (some ref)) where
  steady := by
    refine h.steady.record hbase ht (fun hgood => ?_) (h.inProgress ▸ hmem) kind cause (some ref)
    have hfails := (Project.good_iff ht).mp hgood
    rw [failing, List.filter_eq_nil_iff] at hfails
    exact hfails ref href (Option.isNone_iff_eq_none.mpr hnone)
  inProgress := h.inProgress
  about := fun key hkey => by
    show reportedOn (s.problems ++ _) key.1 key.2 = _
    rw [reportedOn_append, h.about key hkey]
    by_cases he : (file, t.path) = key
    · rw [← he, Function.update_self, Function.update_self, reportedOn_same, List.map_append]
      rfl
    · rw [reportedOn_other he, List.append_nil, Function.update_of_ne (Ne.symm he),
        Function.update_of_ne (Ne.symm he)]
  finished := h.finished

/-- A pointer is replaced by its part or reported. -/
theorem ends_replacement_running (hbase : base.Sound) (ht : base.tokenAt? file place = some t)
    (href : ref ∈ t.value.outerPointers) (hmem : (file, t.path) ∈ stack)
    (hassemble : ∀ about target spot, base.Leads (file, place) (target, spot) →
      Ends (Running base limit stack about finished) (assemble target spot) fun ready s =>
        Running base limit stack about finished s ∧ Answers base target spot ready s)
    (failed : List String) :
    Ends
      (Running base limit stack (Function.update about (file, t.path) (failed.map some)) finished)
      (replacement assemble file t.path ref) fun r s =>
        r = base.part file ref ∧ Running base limit stack
          (Function.update about (file, t.path)
            ((failed ++ failing (base.part file) [ref]).map some)) finished s := by
  refine ends_replacement (ends_follow_running hbase ht href (hassemble _)) ?_ ?_
  · rintro w s ⟨hpart, hs⟩
    rw [failing_of_some hpart.symm, List.append_nil]
    exact ⟨hpart, hs⟩
  · rintro kind cause s ⟨hpart, hs⟩
    rw [failing_of_none hpart.symm]
    exact ⟨hpart, hs.record hbase ht href hpart.symm hmem kind cause⟩

end

/-! ### Assembling -/

namespace Running

theorem begin (h : Running base limit stack about finished s)
    (ht : base.tokenAt? file place = some t) (hdone : (file, t.path) ∉ s.done)
    (hstack : (file, t.path) ∉ stack) :
    Running base limit ((file, t.path) :: stack) (Function.update about (file, t.path) []) finished
      { s with inProgress := (file, t.path) :: s.inProgress } where
  steady := h.steady.begin hdone
  inProgress := congrArg _ h.inProgress
  about := by
    refine List.forall_mem_cons.mpr ⟨?_, fun key hkey => ?_⟩
    · have hreports := h.steady.reports file place t ht (h.inProgress ▸ hstack)
      rw [if_neg hdone] at hreports
      rw [Function.update_self]
      exact hreports
    · have hne : key ≠ (file, t.path) := fun he => hstack (he ▸ hkey)
      rw [Function.update_of_ne hne]
      exact h.about key hkey
  finished := h.finished

theorem finish (hbase : base.Sound) (ht : base.tokenAt? file place = some t)
    (hstack : (file, t.path) ∉ stack)
    (h : Running base limit ((file, t.path) :: stack) (Function.update about (file, t.path)
      ((failing (base.part file) t.value.outerPointers).map some)) finished s) :
    Running base limit stack about finished ((s.close (file, t.path)).modifyToken file place
      fun _ => t.assembled (t.value.including (base.part file))) where
  steady := by
    refine h.steady.finish hbase ht ?_
    have hreported := h.about _ List.mem_cons_self
    rwa [Function.update_self] at hreported
  inProgress := by
    rw [inProgress_modifyToken]
    exact inProgress_close h.inProgress hstack
  about := fun key hkey => by
    rw [problems_modifyToken]
    have hne : key ≠ (file, t.path) := fun he => hstack (he ▸ hkey)
    have hreported := h.about key (List.mem_cons_of_mem _ hkey)
    rwa [Function.update_of_ne hne] at hreported
  finished := fun other spot u hmem hu hpointers => by
    rw [done_modifyToken]
    exact List.mem_cons_of_mem _ (h.finished other spot u hmem hu hpointers)

theorem failNew (hbase : base.Sound) (ht : base.tokenAt? file place = some t)
    (hbad : ¬ base.Good file place) (h : Running base limit stack about finished s)
    (kind : ProblemKind) :
    Running base limit stack about finished
      { s with failed := s.failed.putNew (file, t.path) kind } where
  steady := h.steady.failNew hbase ht hbad kind
  inProgress := h.inProgress
  about := h.about
  finished := h.finished

theorem fail (hbase : base.Sound) (ht : base.tokenAt? file place = some t)
    (hbad : ¬ base.Good file place) (h : Running base limit stack about finished s)
    (kind : ProblemKind) :
    Running base limit stack about finished
      { s with failed := s.failed.put (file, t.path) kind } where
  steady := h.steady.fail hbase ht hbad kind
  inProgress := h.inProgress
  about := h.about
  finished := h.finished

end Running

/-- The rest of the work on a token: if the tokens to which it leads are assembled as they
should, it is done, and ready if it is good. -/
theorem ends_complete_running (hbase : base.Sound) (ht : base.tokenAt? file place = some t)
    (hstack : (file, t.path) ∉ stack) {hops : Nat}
    (hassemble : ∀ about target spot, base.Leads (file, place) (target, spot) →
      Ends (Running base limit ((file, t.path) :: stack) about finished)
        (assembleToken hops target spot) fun ready s =>
          Running base limit ((file, t.path) :: stack) about finished s ∧
            Answers base target spot ready s) :
    Ends (Running base limit ((file, t.path) :: stack)
        (Function.update about (file, t.path) []) finished)
      (complete hops file place t) fun ready s =>
        Running base limit stack about finished s ∧ Answers base file place ready s ∧
          (file, t.path) ∈ s.done := by
  have hexpand := @ends_expand _ (base.part file)
    (fun failed s => Running base limit ((file, t.path) :: stack)
      (Function.update about (file, t.path) (failed.map some)) finished s) t.value
    (fun ref href => ends_replacement_running hbase ht href List.mem_cons_self hassemble) []
  have hdone : ∀ s : Assembly, (file, t.path) ∈ ((s.close (file, t.path)).modifyToken file place
      fun _ => t.assembled (t.value.including (base.part file))).done := by
    intro s
    rw [done_modifyToken]
    exact List.mem_cons_self
  have hpointers : (t.assembled (t.value.including (base.part file))).pointers = [] ↔
      base.Good file place := hbase.pointers_eq_nil_iff ht
  refine ends_complete hexpand ?_ ?_
  · rintro _ s ⟨rfl, hs⟩ hnone
    have hfinished := hs.finish hbase ht hstack
    refine ⟨hfinished, ⟨fun _ => ⟨_, hfinished.steady.tokenAt ht, ?_⟩, nofun⟩, hdone s⟩
    rw [current_of_mem (hdone s)]
    exact (Project.expands_iff ht).mpr ⟨(Project.good_iff ht).mp (hpointers.mp hnone), rfl⟩
  · rintro _ s ⟨rfl, hs⟩ hsome _ rfl
    have hbad : ¬ base.Good file place := fun hgood => hsome (hpointers.mpr hgood)
    exact ⟨(hs.finish hbase ht hstack).failNew hbase ht hbad _, ⟨nofun, fun _ => hbad⟩, hdone s⟩

/-- Every token of a stack leads to a token. -/
def LedTo (base : Project) (stack : List TokenKey) (x : String × Place) : Prop :=
  ∀ key ∈ stack, ∃ spot u, base.tokenAt? key.1 spot = some u ∧ u.path = key.2 ∧
    Relation.TransGen base.Leads (key.1, spot) x

theorem LedTo.cons (h : LedTo base stack (file, place)) (ht : base.tokenAt? file place = some t)
    {x : String × Place} (hedge : base.Leads (file, place) x) :
    LedTo base ((file, t.path) :: stack) x := by
  refine List.forall_mem_cons.mpr ⟨⟨place, t, ht, rfl, .single hedge⟩, fun key hkey => ?_⟩
  obtain ⟨spot, u, hu, hpath, hpaths⟩ := h key hkey
  exact ⟨spot, u, hu, hpath, hpaths.tail hedge⟩

theorem not_good_of_mem (hbase : base.Sound) (ht : base.tokenAt? file place = some t)
    (hleads : LedTo base stack (file, place)) (hmem : (file, t.path) ∈ stack) :
    ¬ base.Good file place := by
  obtain ⟨spot, u, hu, hpath, hback⟩ := hleads _ hmem
  obtain rfl := hbase.place_eq hu ht hpath
  rintro ⟨v, hv⟩
  exact hv.not_cycle hback

/-- A token that is done or in progress is not touched, and it is known whether it is good. -/
theorem ends_assembleToken_known (hbase : base.Sound) (ht : base.tokenAt? file place = some t)
    (hleads : LedTo base stack (file, place)) {hops : Nat} :
    Ends (fun s => Running base limit stack about finished s ∧
        ((file, t.path) ∈ s.done ∨ (file, t.path) ∈ stack))
      (assembleToken hops file place) fun ready s =>
        Running base limit stack about finished s ∧ Answers base file place ready s ∧
          ((file, t.path) ∈ s.done ∨ (file, t.path) ∈ stack) := by
  rintro s ⟨hs, hknown⟩
  have hnow := hs.steady.tokenAt ht
  by_cases hdone : (file, t.path) ∈ s.done
  · have hfailed := hs.steady.has_failed_iff ht hdone
    rw [← path_current base s.done] at hdone hfailed
    refine ⟨_, s, run_assembleToken_done hnow hdone, hs, ⟨fun hready => ?_, fun hready => ?_⟩,
      hknown⟩
    · have hgood : base.Good file place := by
        by_contra hbad
        rw [hfailed.mpr hbad] at hready
        cases hready
      rw [path_current] at hdone
      exact hs.steady.expands_of_done ht hdone hgood
    · refine hfailed.mp ?_
      cases hhas : s.failed.has (file, (current base s.done file t).path) with
      | true => rfl
      | false =>
        rw [hhas] at hready
        cases hready
  · have hstack := hknown.resolve_left hdone
    have hbad := not_good_of_mem hbase ht hleads hstack
    rw [current_of_not_mem hdone] at hnow
    refine ⟨_, _, run_assembleToken_running hnow hdone (hs.inProgress ▸ hstack), ?_⟩
    exact ⟨hs.fail hbase ht hbad _, ⟨nofun, fun _ => hbad⟩, Or.inr hstack⟩

/-- A token to which the tokens in progress lead is assembled: afterwards they are in progress
as before, and it is known whether the token is good. -/
theorem ends_assembleToken (hbase : base.Sound) {keys : List TokenKey}
    (hkeys : ∀ file place t, base.tokenAt? file place = some t → (file, t.path) ∈ keys)
    {hops : Nat} (ht : base.tokenAt? file place = some t) (hnodup : stack.Nodup)
    (hleads : LedTo base stack (file, place)) (hbound : keys.length ≤ hops + stack.length) :
    Ends (Running base limit stack about finished) (assembleToken hops file place) fun ready s =>
      Running base limit stack about finished s ∧ Answers base file place ready s ∧
        ((file, t.path) ∈ s.done ∨ (file, t.path) ∈ stack) := by
  induction hops generalizing file place t stack about with
  | zero =>
    intro s hs
    refine ends_assembleToken_known hbase ht hleads s ⟨hs, Or.inr ?_⟩
    -- No hop is left only when every token is in progress.
    by_contra hstack
    have hsubset : (file, t.path) :: stack ⊆ keys := by
      refine List.cons_subset.mpr ⟨hkeys file place t ht, fun key hkey => ?_⟩
      obtain ⟨spot, u, hu, hpath, -⟩ := hleads key hkey
      exact (Prod.ext rfl hpath : (key.1, u.path) = key) ▸ hkeys key.1 spot u hu
    have hlength :=
      (List.subperm_of_subset (List.nodup_cons.mpr ⟨hstack, hnodup⟩) hsubset).length_le
    rw [List.length_cons] at hlength
    omega
  | succ hops ih =>
    intro s hs
    by_cases hknown : (file, t.path) ∈ s.done ∨ (file, t.path) ∈ stack
    · exact ends_assembleToken_known hbase ht hleads s ⟨hs, hknown⟩
    · obtain ⟨hdone, hstack⟩ := not_or.mp hknown
      have hnow := hs.steady.tokenAt ht
      rw [current_of_not_mem hdone] at hnow
      rw [run_assembleToken_fresh hnow hdone (hs.inProgress ▸ hstack)]
      refine (ends_complete_running hbase ht hstack fun about target spot hedge => ?_).imp
        (fun _ h => h) (fun ready s h => ⟨h.1, h.2.1, Or.inl h.2.2⟩) _ (hs.begin ht hdone hstack)
      obtain ⟨u, hu⟩ := hedge.exists_token
      refine (ih hu (List.nodup_cons.mpr ⟨hstack, hnodup⟩) (hleads.cons ht hedge) ?_).imp
        (fun _ h => h) fun ready s h => ⟨h.1, h.2.1⟩
      rw [List.length_cons]
      omega

end DesignTokens.Assembly
