import DesignTokens.Proofs.Assembly.Mirror

/-!
# What is reported stays, and what is done stays done

A step that does not end the work only adds problems and tokens that are done, and nothing is in
progress after it that was not before (`Assembly.Onward`).  So, if the assembly of a project has
reported nothing, every token is done that had pointers: a token that is not taken up when its
turn comes is reported (`Assembly.Settled`).
-/

namespace DesignTokens.Assembly

variable {p : Project} {s r t : Assembly} {file ref target : String} {place spot : Place}
  {u v : Token} {rest : List String} {hops : Nat} {α β : Type} {m : AssemblyM α}

/-- What a step that does not end the work has made of a state. -/
structure Onward (s r : Assembly) : Prop where
  problems : s.problems <+: r.problems
  done : s.done ⊆ r.done
  inProgress : r.inProgress = s.inProgress

theorem Onward.refl (s : Assembly) : Onward s s := ⟨List.prefix_refl _, List.Subset.refl _, rfl⟩

theorem Onward.trans (h : Onward s t) (h' : Onward t r) : Onward s r where
  problems := h.problems.trans h'.problems
  done := List.Subset.trans h.done h'.done
  inProgress := h'.inProgress.trans h.inProgress

theorem Onward.problems_eq_nil (h : Onward s r) (hr : r.problems = []) : s.problems = [] :=
  List.prefix_nil.mp (hr ▸ h.problems)

/-- A step that only goes on, unless it ends the work. -/
def Advances (m : AssemblyM α) : Prop := ∀ s a r, m.run.run s = (.ok a, r) → Onward s r

theorem run_bind_eq_ok {next : α → AssemblyM β} {b : β}
    (h : (m >>= next).run.run s = (.ok b, r)) :
    ∃ a t, m.run.run s = (.ok a, t) ∧ (next a).run.run t = (.ok b, r) := by
  rw [ExceptT.run_bind, StateT.run_bind] at h
  generalize m.run.run s = out at h ⊢
  obtain ⟨e | a, t⟩ := out
  · cases h
  · exact ⟨a, t, rfl, h⟩

namespace Advances

theorem pure {a : α} : Advances (Pure.pure a : AssemblyM α) := by
  intro s b r h
  cases h
  exact .refl s

theorem bind {next : α → AssemblyM β} (hm : Advances m) (hnext : ∀ a, Advances (next a)) :
    Advances (m >>= next) := by
  intro s b r h
  obtain ⟨a, t, ht, hr⟩ := run_bind_eq_ok h
  exact (hm s a t ht).trans (hnext a t b r hr)

theorem get_bind {next : Assembly → AssemblyM β} (hnext : ∀ s, Advances (next s)) :
    Advances (get >>= next) := fun s b r h => hnext s s b r h

theorem modify {change : Assembly → Assembly} (h : ∀ s, Onward s (change s)) :
    Advances (modify change : AssemblyM PUnit) := by
  intro s a r hrun
  cases hrun
  exact h s

end Advances

theorem onward_record (s : Assembly) (path : String) (kind : ProblemKind) (cause : Cause)
    (reference : Option String) : Onward s (s.record file path kind cause reference) :=
  ⟨List.prefix_append _ _, List.Subset.refl _, rfl⟩

theorem advances_expand {replace : String → AssemblyM (Option Value)}
    (hreplace : ∀ ref, Advances (replace ref)) (v : Value) : Advances (expand replace v) :=
  expand_of_bind (C := Advances) (fun _ => .pure) .bind fun ref _ => hreplace ref

theorem advances_liftExcept (outcome : Except NumeralFault α) :
    Advances (follow.liftExcept outcome) := by
  cases outcome with
  | ok a => exact .pure
  | error e => exact fun _ _ _ h => by cases h

theorem advances_answer (ready : Bool) : Advances (answer ref target spot u rest ready) := by
  unfold answer
  cases ready with
  | true =>
    refine .get_bind fun s => (advances_liftExcept _).bind fun part => ?_
    cases part with
    | ok w => exact .pure
    | error cause => exact .pure
  | false => exact .get_bind fun s => .pure

section

variable {assemble : String → Place → AssemblyM Bool}
  (hassemble : ∀ file place, Advances (assemble file place))

include hassemble

theorem advances_follow (file ref : String) : Advances (follow assemble file ref) := by
  intro s a r h
  cases hlocate : s.locate file ref with
  | error fault =>
    rw [run_follow_error hlocate] at h
    cases h
    exact .refl s
  | ok found =>
    obtain ⟨target, spot, u, rest⟩ := found
    rw [run_follow_ok hlocate] at h
    refine Advances.bind ?_ (fun ready => advances_answer ready) s a r h
    split
    · exact .pure
    · exact hassemble target spot

theorem advances_replacement (file path ref : String) :
    Advances (replacement assemble file path ref) := by
  unfold replacement
  refine (advances_follow hassemble file ref).bind fun outcome => ?_
  cases outcome with
  | ok w => exact .pure
  | error fault => exact (Advances.modify fun s => onward_record s _ _ _ _).bind fun _ => .pure

end

/-- A token that is completed is done, and no longer in progress. -/
theorem onward_complete (hassemble : ∀ file place, Advances (assembleToken hops file place))
    (hrunning : (file, u.path) ∉ s.inProgress) {ready : Bool}
    (h : (complete hops file place u).run.run
      { s with inProgress := (file, u.path) :: s.inProgress } = (.ok ready, r)) :
    Onward s r ∧ (file, u.path) ∈ r.done := by
  obtain ⟨value, t, hexpand, hrest⟩ := run_bind_eq_ok h
  have honward := advances_expand (advances_replacement hassemble file u.path) u.value _ _ _ hexpand
  have hclosed := inProgress_close honward.inProgress hrunning
  -- What is stored and marked at the end touches none of the three.
  have hend : r.problems = t.problems ∧ r.done = (file, u.path) :: t.done ∧
      r.inProgress = (t.close (file, u.path)).inProgress := by
    rw [run_modify_bind, run_modify_bind] at hrest
    split at hrest
    · cases hrest
      exact ⟨problems_modifyToken _, done_modifyToken _, inProgress_modifyToken _⟩
    · cases hrest
      exact ⟨problems_modifyToken _, done_modifyToken _, inProgress_modifyToken _⟩
  obtain ⟨hproblems, hdone, hinProgress⟩ := hend
  refine ⟨⟨?_, ?_, hinProgress.trans hclosed⟩, hdone ▸ List.mem_cons_self⟩
  · rw [hproblems]
    exact honward.problems
  · rw [hdone]
    exact List.Subset.trans honward.done (List.subset_cons_self _ _)

/-- Work on a token goes on, and the token is done after it or something is reported, unless it
was in progress. -/
theorem onward_turn
    (hbelow : ∀ n, hops = n + 1 → ∀ file place, Advances (assembleToken n file place))
    {ready : Bool} (h : (assembleToken hops file place).run.run s = (.ok ready, r)) :
    Onward s r ∧ ∀ u, s.tokenAt? file place = some u → (file, u.path) ∉ s.inProgress →
      (file, u.path) ∈ r.done ∨ r.problems ≠ [] := by
  cases hu : s.tokenAt? file place with
  | none =>
    rw [assembleToken.eq_def, run_get_bind, hu] at h
    cases h
    exact ⟨.refl s, fun _ hv => by cases hv⟩
  | some u =>
    suffices hthis : Onward s r ∧ ((file, u.path) ∉ s.inProgress →
        (file, u.path) ∈ r.done ∨ r.problems ≠ []) from
      ⟨hthis.1, fun v hv => Option.some.inj hv ▸ hthis.2⟩
    have hvisited := visited hops hu
    rw [h] at hvisited
    generalize hout : (Except.ok ready, r) = out at hvisited
    cases hvisited with
    | done hdone =>
      cases hout
      exact ⟨.refl s, fun _ => Or.inl hdone⟩
    | running _ hrunning =>
      cases hout
      exact ⟨⟨List.prefix_refl _, List.Subset.refl _, rfl⟩, fun hnot => absurd hrunning hnot⟩
    | late =>
      cases hout
      exact ⟨⟨List.prefix_append _ _, List.Subset.refl _, rfl⟩, fun _ =>
        Or.inr (List.append_ne_nil_of_right_ne_nil _ (List.cons_ne_nil _ _))⟩
    | unwritable => cases hout
    | fresh _ hrunning =>
      obtain ⟨honward, hin⟩ := onward_complete (hbelow _ rfl) hrunning hout.symm
      exact ⟨honward, fun _ => Or.inl hin⟩

theorem advances_assembleToken (hops : Nat) (file : String) (place : Place) :
    Advances (assembleToken hops file place) := by
  induction hops generalizing file place with
  | zero =>
    exact fun s ready r h => (onward_turn (fun n hn => absurd hn.symm (Nat.succ_ne_zero n)) h).1
  | succ hops ih =>
    refine fun s ready r h => (onward_turn (fun n hn file place => ?_) h).1
    exact Nat.succ.inj hn ▸ ih file place

theorem done_of_assembleToken (hu : s.tokenAt? file place = some u)
    (hrunning : (file, u.path) ∉ s.inProgress) {ready : Bool}
    (h : (assembleToken hops file place).run.run s = (.ok ready, r)) (hquiet : r.problems = []) :
    (file, u.path) ∈ r.done :=
  ((onward_turn (fun n _ => advances_assembleToken n) h).2 u hu hrunning).resolve_right
    fun hne => hne hquiet

/-! ### Nothing is left over -/

theorem advances_assemblePlaces (file : String) (places : List Place) :
    Advances (assemblePlaces file places) := by
  induction places with
  | nil =>
    rw [assemblePlaces]
    exact .pure
  | cons place places ih =>
    rw [assemblePlaces]
    refine .get_bind fun s => ?_
    cases s.tokenAt? file place with
    | none => exact ih
    | some u =>
      dsimp only
      split
      · exact (advances_assembleToken _ file place).bind fun _ => ih
      · exact ih

theorem advances_assembleFile (file : String) : Advances (assembleFile file) := by
  unfold assembleFile
  refine .get_bind fun s => ?_
  cases s.project.tree? file with
  | none => exact .pure
  | some tree => exact advances_assemblePlaces file _

theorem advances_assembleFiles (files : List String) : Advances (assembleFiles files) := by
  induction files with
  | nil =>
    rw [assembleFiles]
    exact .pure
  | cons file files ih =>
    rw [assembleFiles]
    exact (advances_assembleFile file).bind fun _ => ih

/-- The token of a project at a place of a file has no pointers, or it is done. -/
def Settled (p : Project) (s : Assembly) (file : String) (place : Place) : Prop :=
  ∀ u, p.tokenAt? file place = some u → u.pointers = [] ∨ (file, u.path) ∈ s.done

theorem Settled.onward (h : Settled p s file place) (hr : Onward s r) : Settled p r file place :=
  fun u hu => (h u hu).imp_right fun hdone => hr.done hdone

theorem Beside.exists_token (hs : Beside p s) (hu : p.tokenAt? file place = some u) :
    ∃ v, s.tokenAt? file place = some v ∧ v.path = u.path ∧ ((file, u.path) ∉ s.done → v = u) := by
  obtain ⟨tree, htree, hat⟩ := Option.bind_eq_some_iff.mp hu
  have houtline := hs.outlined file
  rw [htree] at houtline
  obtain ⟨now, hnow, he⟩ := Option.map_eq_some_iff.mp houtline
  obtain ⟨v, hv, hsame⟩ := Group.exists_tokenAt?_of_outline he.symm hat
  have hpath := Token.path_eq_of_outline hsame
  have hfound : s.tokenAt? file place = some v := Option.bind_eq_some_iff.mpr ⟨now, hnow, hv⟩
  refine ⟨v, hfound, hpath.symm, fun hnew => ?_⟩
  exact Option.some.inj ((hs.waiting file place v hfound (hpath ▸ hnew)).symm.trans hu)

theorem Beside.tokenAt?_eq_none (hs : Beside p s) (h : p.tokenAt? file place = none) :
    s.tokenAt? file place = none := by
  refine Option.eq_none_iff_forall_ne_some.mpr fun v hv => ?_
  obtain ⟨tree, u, htree, hu, -⟩ := hs.outlined.exists_token hv
  cases h.symm.trans (Option.bind_eq_some_iff.mpr ⟨tree, htree, hu⟩)

/-- The token at a place has its turn before those at the others. -/
theorem exists_turn {places : List Place} (hs : Beside p s) (hidle : s.inProgress = [])
    (h : (assemblePlaces file (place :: places)).run.run s = (.ok (), r))
    (hquiet : r.problems = []) : ∃ t, Onward s t ∧ Beside p t ∧ Settled p t file place ∧
      (assemblePlaces file places).run.run t = (.ok (), r) := by
  rw [assemblePlaces, run_get_bind] at h
  cases hv : s.tokenAt? file place with
  | none =>
    rw [hv] at h
    refine ⟨s, .refl s, hs, fun u hu => ?_, h⟩
    obtain ⟨v, hfound, -⟩ := hs.exists_token hu
    cases hv.symm.trans hfound
  | some v =>
    rw [hv] at h
    dsimp only at h
    split at h
    · rename_i hpointers
      obtain ⟨ready, t, ht, hrest⟩ := run_bind_eq_ok h
      have hquiet' := (advances_assemblePlaces file places t () r hrest).problems_eq_nil hquiet
      have hkept := ((storing_beside p).turns_assembleToken (hopsWithin s.maxDepth) file place s v
        hs hv (by simpa using hpointers)).kept
      rw [ht] at hkept
      refine ⟨t, advances_assembleToken _ file place s ready t ht, hkept, fun u hu => ?_, hrest⟩
      obtain ⟨v', hv', hpath, -⟩ := hs.exists_token hu
      obtain rfl := Option.some.inj (hv.symm.trans hv')
      refine Or.inr (hpath ▸ done_of_assembleToken hv ?_ ht hquiet')
      rw [hidle]
      exact List.not_mem_nil
    · rename_i hpointers
      refine ⟨s, .refl s, hs, fun u hu => ?_, h⟩
      obtain ⟨v', hv', -, hwaiting⟩ := hs.exists_token hu
      obtain rfl := Option.some.inj (hv.symm.trans hv')
      refine or_iff_not_imp_right.mpr fun hnew => ?_
      rw [← hwaiting hnew]
      simpa using hpointers

theorem settled_assemblePlaces {places : List Place} (hs : Beside p s) (hidle : s.inProgress = [])
    (h : (assemblePlaces file places).run.run s = (.ok (), r)) (hquiet : r.problems = []) :
    ∀ place ∈ places, Settled p r file place := by
  induction places generalizing s with
  | nil => exact fun _ hmem => absurd hmem List.not_mem_nil
  | cons place places ih =>
    obtain ⟨t, hst, ht, hsettled, hrest⟩ := exists_turn hs hidle h hquiet
    refine List.forall_mem_cons.mpr ⟨?_, ih ht (hst.inProgress.trans hidle) hrest⟩
    exact hsettled.onward (advances_assemblePlaces file places t () r hrest)

theorem settled_assembleFile (hp : p.Keyed) (hs : Beside p s) (hidle : s.inProgress = [])
    (h : (assembleFile file).run.run s = (.ok (), r)) (hquiet : r.problems = []) (place : Place) :
    Settled p r file place := by
  intro u hu
  obtain ⟨v, hv, hpath, -⟩ := hs.exists_token hu
  obtain ⟨now, hnow, hat⟩ := Option.bind_eq_some_iff.mp hv
  obtain ⟨tree, htree, -⟩ := Option.bind_eq_some_iff.mp hu
  obtain ⟨g, hg, rfl⟩ := Option.map_eq_some_iff.mp htree
  have houtline := hs.outlined file
  rw [hnow, htree] at houtline
  have hdistinct : now.KeysDistinct :=
    (hp.distinct file g hg).of_outline (Option.some.inj houtline)
  have hmem : place ∈ now.placedTokens.map Prod.fst :=
    List.mem_map.mpr ⟨_, (Group.mem_placedTokens_iff hdistinct).mpr hat, rfl⟩
  rw [run_assembleFile_some hnow] at h
  exact settled_assemblePlaces hs hidle h hquiet place hmem u hu

/-- **Where nothing was reported, every token that had pointers is done.** -/
theorem settled_assembleFiles (hp : p.Keyed) {files : List String} (hs : Beside p s)
    (hidle : s.inProgress = []) (h : (assembleFiles files).run.run s = (.ok (), r))
    (hquiet : r.problems = []) : ∀ file ∈ files, ∀ place, Settled p r file place := by
  induction files generalizing s with
  | nil => exact fun _ hmem => absurd hmem List.not_mem_nil
  | cons file files ih =>
    rw [assembleFiles] at h
    obtain ⟨⟨⟩, t, ht, hrest⟩ := run_bind_eq_ok h
    have hst := advances_assembleFile file s () t ht
    have htr := advances_assembleFiles files t () r hrest
    have hkept := ((storing_beside p).keeps_assembleFile file s hs).kept
    rw [ht] at hkept
    refine List.forall_mem_cons.mpr ⟨fun place => ?_, ih hkept (hst.inProgress.trans hidle) hrest⟩
    exact (settled_assembleFile hp hs hidle ht (htr.problems_eq_nil hquiet) place).onward htr

end DesignTokens.Assembly
