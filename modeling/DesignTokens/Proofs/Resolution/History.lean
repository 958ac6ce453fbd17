import DesignTokens.Proofs.Assembly.Untouched
import DesignTokens.Proofs.Resolution.Finish

/-!
# Calls to one resolver

A resolver keeps the outcomes of the tokens from one call to the next, while an assembly may
change the tokens in between.  `Session` is a resolver with the project that it works on, and
`Session.answer` is what a call does to it.

`Pass.Accounted` is what every call keeps: a token that has succeeded is resolved, and a token that
has failed was reported by the call in which it failed, unless that call ended early.  So if a run
reports nothing, every token is resolved that no earlier call has reported or left behind as failed
(`Session.resolved_of_silent_run`).  What has failed once is not looked at again, even if nothing is
wrong with it any more (`Session.not_resolved_of_silent_run`).
-/

namespace DesignTokens

/-! ### Passes of one resolver -/

namespace Pass

/-- What is known of a tree and a resolver after some paths have been told. -/
structure Accounted (told : List String) (p : Pass) : Prop where
  keysDistinct : p.tree.KeysDistinct
  distinct : ∀ place other t u, p.tree.tokenAt? place = some t → p.tree.tokenAt? other = some u →
    t.path = u.path → place = other
  bare : ∀ place t, p.tree.tokenAt? place = some t → t.resolved = true → t.pointers = []
  settled : ∀ place t, p.tree.tokenAt? place = some t →
    p.resolver.outcomes.get? t.path = some none → t.resolved = true
  told : ∀ path kind, p.resolver.outcomes.get? path = some (some kind) →
    path ∈ told ++ p.problems.map Problem.path

namespace Accounted

variable {told more : List String} {p q : Pass} {place : Place} {t after : Token} {c : Check}

/-- **The step lemma**: a turn keeps what is known if it leaves a token without pointers, which is
resolved, or one that is not resolved and reported. -/
theorem advance (h : p.Accounted told) (ht : p.tree.tokenAt? place = some t)
    (hq : Advance p q place t.path after c) (hreports : c.Reports t.path)
    (hpath : after.path = t.path) (hbare : after.resolved = true → after.pointers = [])
    (hsuccess : c.failure = none → after.resolved = true) : q.Accounted told := by
  have hat : ∀ other u, q.tree.tokenAt? other = some u →
      (other = place ∧ u = after) ∨ (other ≠ place ∧ p.tree.tokenAt? other = some u) := by
    intro other u hu
    by_cases he : other = place
    · rw [he, hq.here] at hu
      exact Or.inl ⟨he, (Option.some.inj hu).symm⟩
    · exact Or.inr ⟨he, hq.elsewhere other he ▸ hu⟩
  have hbefore : ∀ other u, q.tree.tokenAt? other = some u →
      ∃ v, p.tree.tokenAt? other = some v ∧ v.path = u.path := by
    intro other u hu
    rcases hat other u hu with ⟨rfl, rfl⟩ | ⟨-, hu⟩
    · exact ⟨t, ht, hpath.symm⟩
    · exact ⟨u, hu, rfl⟩
  refine ⟨hq.keysDistinct h.keysDistinct, fun first second u v hu hv he => ?_,
    fun other u hu hresolved => ?_, fun other u hu ho => ?_, fun path kind ho => ?_⟩
  · obtain ⟨u', hu', hpath'⟩ := hbefore first u hu
    obtain ⟨v', hv', hpath''⟩ := hbefore second v hv
    exact h.distinct first second u' v' hu' hv' (hpath'.trans (he.trans hpath''.symm))
  · rcases hat other u hu with ⟨-, rfl⟩ | ⟨-, hu⟩
    · exact hbare hresolved
    · exact h.bare other u hu hresolved
  · rw [hq.outcomes] at ho
    rcases hat other u hu with ⟨-, rfl⟩ | ⟨he, hu⟩
    · rw [hpath, Table.get?_put_self] at ho
      exact hsuccess (Option.some.inj ho)
    · have hne : u.path ≠ t.path := fun hp => he (h.distinct other place u t hu ht hp)
      rw [Table.get?_put_of_ne _ _ hne] at ho
      exact h.settled other u hu ho
  · rw [hq.outcomes] at ho
    rw [hq.problems, List.map_append, ← List.append_assoc]
    by_cases hp : path = t.path
    · rw [hp, Table.get?_put_self] at ho
      have hfailed : c.failure ≠ none := by
        rw [Option.some.inj ho]
        exact Option.some_ne_none kind
      obtain ⟨e, he⟩ := List.exists_mem_of_ne_nil _ (mt hreports.failure_iff.mpr hfailed)
      rw [hp, ← hreports.path_eq e he]
      exact List.mem_append_right _ (List.mem_map_of_mem he)
    · rw [Table.get?_put_of_ne _ _ hp] at ho
      exact List.mem_append_left _ (h.told path kind ho)

theorem of_halts {fault : NumeralFault} (h : p.Accounted told) (hq : Halts p q fault) :
    q.Accounted told := by
  obtain ⟨hkeys, hdistinct, hbare, hsettled, htold⟩ := h
  constructor
  · exact hq.tree_eq ▸ hkeys
  · exact hq.tree_eq ▸ hdistinct
  · exact hq.tree_eq ▸ hbare
  · rw [hq.tree_eq, hq.outcomes]
    exact hsettled
  · rw [hq.problems, hq.outcomes]
    exact htold

theorem resolveToken (h : p.Accounted told) (place : Place) :
    (p.resolveToken place).Accounted told := by
  refine resolveToken_cases h (fun _ hhalts _ => h.of_halts hhalts)
    fun t after c ht hadvance hreports hcase => ?_
  cases hcase with
  | plain hresolved _ =>
    exact h.advance ht hadvance hreports rfl (h.bare place t ht) fun _ => hresolved
  | resolved _ hc _ =>
    refine h.advance ht hadvance hreports rfl (fun _ => ?_) fun _ => rfl
    exact (Check.failure_followed_iff.mp (Check.failure_checked_iff.mp hc).1).2.1
  | unfit =>
    exact h.advance ht hadvance hreports rfl nofun
      fun hnone => absurd hnone (Check.failure_fail _ _ _ _ _)
  | failed _ hf =>
    refine h.advance ht hadvance hreports rfl nofun fun hnone => ?_
    rw [hf] at hnone
    cases hnone

theorem failMember (h : p.Accounted told) (cycle : List String) (member : String) :
    (p.failMember cycle member).Accounted told := by
  unfold Pass.failMember
  split
  · exact h
  · refine ⟨h.keysDistinct, h.distinct, h.bare, fun place t ht ho => ?_, fun path kind ho => ?_⟩
    · dsimp only at ho
      by_cases hp : t.path = member
      · rw [hp, Table.get?_put_self] at ho
        cases Option.some.inj ho
      · rw [Table.get?_put_of_ne _ _ hp] at ho
        exact h.settled place t ht ho
    · dsimp only at ho ⊢
      rw [List.map_append, ← List.append_assoc]
      by_cases hp : path = member
      · exact List.mem_append_right _ (List.mem_singleton.mpr hp)
      · rw [Table.get?_put_of_ne _ _ hp] at ho
        exact List.mem_append_left _ (h.told path kind ho)

theorem mono (h : p.Accounted told) (hmore : ∀ path ∈ told, path ∈ more) : p.Accounted more := by
  refine ⟨h.keysDistinct, h.distinct, h.bare, h.settled, fun path kind ho => ?_⟩
  exact List.mem_append.mpr ((List.mem_append.mp (h.told path kind ho)).imp_left (hmore path))

end Accounted

end Pass

namespace Resolver

variable {r : Resolver} {g : Group} {told more : List String}

theorem accounted_pass (h : Pass.Accounted told ⟨g, r, [], none⟩) :
    Pass.Accounted (told ++ (r.pass g).problems.map Problem.path)
      ⟨(r.pass g).tree, (r.pass g).resolver, [], none⟩ := by
  have hend : (r.pass g).Accounted told :=
    pass_induction ⟨h.keysDistinct, h.distinct, h.bare, h.settled, h.told⟩
      (fun p cycle _ member h => h.failMember cycle member) fun p place h => h.resolveToken place
  refine ⟨hend.keysDistinct, hend.distinct, hend.bare, hend.settled, fun path kind ho => ?_⟩
  rw [List.map_nil, List.append_nil]
  exact hend.told path kind ho

/-- After a pass that came to its end every token is resolved that neither the pass nor an earlier
one has told of. -/
theorem resolved_of_pass (h : Pass.Accounted told ⟨g, r, [], none⟩)
    (hgoing : (r.pass g).halted = none) {place : Place} {u : Token}
    (hu : (r.pass g).tree.tokenAt? place = some u)
    (hnot : u.path ∉ told ++ (r.pass g).problems.map Problem.path) : u.resolved = true := by
  have hend := accounted_pass h
  obtain ⟨outcome, ho⟩ := Option.isSome_iff_exists.mp (has_pass h.keysDistinct hgoing hu)
  cases outcome with
  | none => exact hend.settled place u hu ho
  | some kind =>
    refine absurd (hend.told u.path kind ho) ?_
    rwa [List.map_nil, List.append_nil]

def failed (r : Resolver) : List String :=
  (r.outcomes.filter fun entry => entry.2.isSome).map Prod.fst

theorem mem_failed {path : String} {kind : ProblemKind}
    (h : r.outcomes.get? path = some (some kind)) : path ∈ r.failed :=
  List.mem_map.mpr ⟨(path, some kind), List.mem_filter.mpr ⟨Table.mem_of_get? h, rfl⟩, rfl⟩

theorem accounted_failed (h : Pass.Accounted more ⟨g, r, [], none⟩) (told : List String) :
    Pass.Accounted (told ++ r.failed) ⟨g, r, [], none⟩ := by
  refine ⟨h.keysDistinct, h.distinct, h.bare, h.settled, fun path kind ho => ?_⟩
  exact List.mem_append_left _ (List.mem_append_right _ (mem_failed ho))

end Resolver

/-! ### Calls -/

/-- What a resolver can be asked for. -/
inductive Call where
  | assemble
  | resolve
  | run
  deriving DecidableEq, Repr

/-- The paths that the answer to a call tells of.  What an assembly on its own reports is left
aside: no outcome is kept of it.  A call that ends early tells of nothing; the tokens that the
resolver keeps as failed then stand for it. -/
def Call.told : Call → Except NumeralFault (List Problem) → Resolver → List String
  | .assemble, _, _ => []
  | _, .ok problems, _ => problems.map Problem.path
  | _, .error _, r => r.failed

/-- A resolver with the project that it works on. -/
structure Session where
  project : Project
  resolver : Resolver

namespace Session

/-- A resolver that knows nothing, and a project. -/
def start (project : Project) (maxDepth : Int) : Session := ⟨project, Resolver.start maxDepth⟩

/-- The answer to a call for the tree of a file.  A call that ends early leaves what it has done
until then. -/
def answer (file : String) (s : Session) : Call → Session × Except NumeralFault (List Problem)
  | .assemble =>
    let (project, outcome) := s.project.assembleFile file s.resolver.maxDepth
    ({ s with project }, outcome)
  | .resolve =>
    match s.project.tree? file with
    | none => (s, .ok [])
    | some tree =>
      let (tree, resolver, outcome) := s.resolver.resolve tree
      (⟨s.project.setTree file tree, resolver⟩, outcome)
  | .run =>
    let (project, resolver, outcome) := s.resolver.run s.project file
    (⟨project, resolver⟩, outcome)

/-- A session after some calls, with the paths that these have told of. -/
def after (file : String) (s : Session) (calls : List Call) : Session × List String :=
  calls.foldl
    (fun x c =>
      let (s, outcome) := x.1.answer file c
      (s, x.2 ++ c.told outcome s.resolver)) (s, [])

/-- What is known of a session after some paths have been told: the tree has its outline, and its
tokens are accounted for. -/
def Accounted (file : String) (outline : Node) (told : List String) (s : Session) : Prop :=
  ∃ tree, s.project.tree? file = some tree ∧ tree.outline = outline ∧
    Pass.Accounted told ⟨tree, s.resolver, [], none⟩

variable {s : Session} {file : String} {outline : Node} {told : List String}

/-- An assembly touches no token that has succeeded, since that holds no pointer. -/
theorem Accounted.assembleFile (h : s.Accounted file outline told) (maxDepth : Int) :
    Accounted file outline told ⟨(s.project.assembleFile file maxDepth).1, s.resolver⟩ := by
  obtain ⟨tree, htree, houtline, haccounted⟩ := h
  have hkept := Assembly.outline_assembleFile s.project file maxDepth file
  rw [htree] at hkept
  obtain ⟨tree', htree', hsame⟩ := Option.map_eq_some_iff.mp hkept
  have hnow : ∀ place t, tree'.tokenAt? place = some t →
      (s.project.assembleFile file maxDepth).1.tokenAt? file place = some t :=
    fun place t ht => Option.bind_eq_some_iff.mpr ⟨tree', htree', ht⟩
  have hbefore : ∀ place t, tree.tokenAt? place = some t →
      s.project.tokenAt? file place = some t :=
    fun place t ht => Option.bind_eq_some_iff.mpr ⟨tree, htree, ht⟩
  have hbare : ∀ place t, s.project.tokenAt? file place = some t → t.resolved = true →
      t.pointers = [] := by
    intro place t ht
    obtain ⟨found, hfound, hat⟩ := Option.bind_eq_some_iff.mp ht
    obtain rfl := Option.some.inj (htree.symm.trans hfound)
    exact haccounted.bare place t hat
  refine ⟨tree', htree', hsame.trans houtline, ?_⟩
  refine ⟨.of_outline haccounted.keysDistinct hsame, fun place other t u ht hu hp => ?_,
    fun place t ht => Assembly.bare_assembleFile hbare file maxDepth (hnow place t ht),
    fun place t ht ho => ?_, haccounted.told⟩
  · obtain ⟨t', ht', hst⟩ := Group.exists_tokenAt?_of_outline hsame ht
    obtain ⟨u', hu', hsu⟩ := Group.exists_tokenAt?_of_outline hsame hu
    refine haccounted.distinct place other t' u' ht' hu' ?_
    rw [← Token.path_eq_of_outline hst, ← Token.path_eq_of_outline hsu, hp]
  · obtain ⟨u, hu, hst⟩ := Group.exists_tokenAt?_of_outline hsame ht
    rw [Token.path_eq_of_outline hst] at ho
    have hresolved := haccounted.settled place u hu ho
    have hsame' := Assembly.untouched_assembleFile (hbefore place u hu)
      (haccounted.bare place u hu hresolved) file maxDepth
    rw [hnow place t ht] at hsame'
    rw [Option.some.inj hsame']
    exact hresolved

theorem Accounted.pass {tree : Group} (htree : s.project.tree? file = some tree)
    (h : s.Accounted file outline told) :
    Accounted file outline (told ++ (s.resolver.pass tree).problems.map Problem.path)
      ⟨s.project.setTree file (s.resolver.pass tree).tree, (s.resolver.pass tree).resolver⟩ := by
  obtain ⟨found, hfound, houtline, haccounted⟩ := h
  obtain rfl := Option.some.inj (htree.symm.trans hfound)
  refine ⟨(s.resolver.pass tree).tree, ?_, ?_, Resolver.accounted_pass haccounted⟩
  · rw [Project.tree?_setTree, if_pos rfl, htree]
    rfl
  · rw [Resolver.outline_pass, houtline]

theorem Accounted.mono {more : List String} (h : s.Accounted file outline told)
    (hmore : ∀ path ∈ told, path ∈ more) : s.Accounted file outline more := by
  obtain ⟨tree, htree, houtline, haccounted⟩ := h
  exact ⟨tree, htree, houtline, haccounted.mono hmore⟩

theorem Accounted.failed {more : List String} (h : s.Accounted file outline more)
    (told : List String) : s.Accounted file outline (told ++ s.resolver.failed) := by
  obtain ⟨tree, htree, houtline, haccounted⟩ := h
  exact ⟨tree, htree, houtline, Resolver.accounted_failed haccounted told⟩

/-- A pass tells of what it reports if it comes to its end. -/
theorem Accounted.told_of_pass {tree : Group} (htree : s.project.tree? file = some tree)
    (h : s.Accounted file outline told) (c : Call) (hc : c ≠ .assemble) {report : List Problem}
    (hreport : ∀ path ∈ (s.resolver.pass tree).problems.map Problem.path,
      path ∈ report.map Problem.path) :
    Accounted file outline
      (told ++ c.told ((s.resolver.pass tree).outcome.map fun _ => report)
        (s.resolver.pass tree).resolver)
      ⟨s.project.setTree file (s.resolver.pass tree).tree, (s.resolver.pass tree).resolver⟩ := by
  have hpass := h.pass htree
  unfold Pass.outcome
  cases (s.resolver.pass tree).halted with
  | none =>
    have htold : c.told (.ok report) (s.resolver.pass tree).resolver =
        report.map Problem.path := by
      cases c with
      | assemble => exact absurd rfl hc
      | resolve | run => rfl
    refine hpass.mono fun path hpath => ?_
    show path ∈ told ++ c.told (.ok report) _
    rw [htold]
    exact List.mem_append.mpr ((List.mem_append.mp hpath).imp_right (hreport path))
  | some fault =>
    have htold : c.told (.error fault) (s.resolver.pass tree).resolver =
        (s.resolver.pass tree).resolver.failed := by
      cases c with
      | assemble => exact absurd rfl hc
      | resolve | run => rfl
    show Accounted file outline (told ++ c.told (.error fault) _) _
    rw [htold]
    exact hpass.failed told

/-- **The step lemma**: every call keeps what is known, with what it tells of added. -/
theorem Accounted.answer (h : s.Accounted file outline told) (c : Call) :
    Accounted file outline (told ++ c.told (s.answer file c).2 (s.answer file c).1.resolver)
      (s.answer file c).1 := by
  cases c with
  | assemble =>
    rw [show Call.assemble.told _ _ = [] from rfl, List.append_nil]
    exact h.assembleFile s.resolver.maxDepth
  | resolve =>
    obtain ⟨tree, htree, -⟩ := id h
    have hanswer : s.answer file .resolve =
        (⟨s.project.setTree file (s.resolver.pass tree).tree, (s.resolver.pass tree).resolver⟩,
          (s.resolver.pass tree).outcome.map fun _ => (s.resolver.pass tree).problems) := by
      unfold Session.answer
      rw [htree]
      dsimp only
      rw [Resolver.resolve_eq_pass]
      unfold Pass.outcome
      cases (s.resolver.pass tree).halted <;> rfl
    rw [hanswer]
    exact h.told_of_pass htree .resolve nofun fun _ hpath => hpath
  | run =>
    have hassembled := h.assembleFile s.resolver.maxDepth
    unfold Session.answer
    dsimp only
    rcases hrun : s.project.assembleFile file s.resolver.maxDepth with ⟨assembled, e | problems⟩
    · rw [hrun] at hassembled
      rw [Resolver.run_eq_error hrun]
      exact hassembled.failed told
    · rw [hrun] at hassembled
      obtain ⟨tree, htree, -⟩ := id hassembled
      rw [Resolver.run_eq hrun htree]
      exact hassembled.told_of_pass htree .run nofun fun _ => Resolver.path_mem_runReport _

/-- **The run lemma**: so do any calls, one after the other. -/
theorem Accounted.after (h : s.Accounted file outline []) (calls : List Call) :
    Accounted file outline (s.after file calls).2 (s.after file calls).1 := by
  refine List.foldlRecOn calls _ (motive := fun x : Session × List String =>
    Accounted file outline x.2 x.1) h fun x hx c _ => ?_
  exact hx.answer c

/-- A resolver that knows nothing may begin with any tree in which no token that counts as resolved
holds a pointer. -/
theorem accounted_start {project : Project} {tree : Group} (htree : project.tree? file = some tree)
    (hkeys : tree.KeysDistinct) (hpaths : (tree.tokens.map Token.path).Nodup)
    (hbare : ∀ t ∈ tree.tokens, t.resolved = true → t.pointers = []) (maxDepth : Int) :
    (start project maxDepth).Accounted file tree.outline [] := by
  refine ⟨tree, htree, rfl, hkeys, Group.place_eq_of_nodup hkeys hpaths, fun place t ht => ?_,
    fun _ _ _ => nofun, fun _ _ => nofun⟩
  exact hbare t ((Group.mem_tokens_iff hkeys).mpr ⟨place, ht⟩)

/-- **If a run reports nothing, every token is resolved that no earlier call has told of**, after
any calls to a resolver, some of which may have ended early. -/
theorem resolved_of_silent_run {project : Project} {file : String} {tree : Group}
    (htree : project.tree? file = some tree) (hkeys : tree.KeysDistinct)
    (hpaths : (tree.tokens.map Token.path).Nodup)
    (hbare : ∀ t ∈ tree.tokens, t.resolved = true → t.pointers = []) (maxDepth : Int)
    (calls : List Call)
    (hrun : (((start project maxDepth).after file calls).1.answer file .run).2 = .ok []) :
    ∃ final, (((start project maxDepth).after file calls).1.answer file .run).1.project.tree? file =
        some final ∧ final.outline = tree.outline ∧
      ∀ t ∈ final.tokens, t.path ∉ ((start project maxDepth).after file calls).2 →
        t.resolved = true := by
  have hafter := (accounted_start htree hkeys hpaths hbare maxDepth).after calls
  generalize (start project maxDepth).after file calls = x at hafter hrun ⊢
  have hassembled := hafter.assembleFile x.1.resolver.maxDepth
  unfold Session.answer at hrun ⊢
  dsimp only at hrun ⊢
  rcases h : x.1.project.assembleFile file x.1.resolver.maxDepth with ⟨assembled, e | problems⟩
  · rw [Resolver.run_eq_error h] at hrun
    cases hrun
  · rw [h] at hassembled
    obtain ⟨now, hnow, houtline, haccounted⟩ := id hassembled
    have hgoing := Resolver.going_of_run h hnow hrun
    rw [Resolver.run_eq_ok h hnow hgoing] at hrun ⊢
    have hnone : (x.1.resolver.pass now).problems.map Problem.path = [] :=
      List.eq_nil_iff_forall_not_mem.mpr fun path hpath => by
        have hm := Resolver.path_mem_runReport problems hpath
        rw [Except.ok.inj hrun] at hm
        exact List.not_mem_nil hm
    have hkeys' := (Resolver.accounted_pass haccounted).keysDistinct
    refine ⟨(x.1.resolver.pass now).tree, ?_, ?_, fun t ht hnot => ?_⟩
    · dsimp only at hnow ⊢
      rw [Project.tree?_setTree, if_pos rfl, hnow]
      rfl
    · rw [Resolver.outline_pass, houtline]
    · obtain ⟨place, hat⟩ := (Group.mem_tokens_iff hkeys').mp ht
      refine Resolver.resolved_of_pass haccounted hgoing hat ?_
      rwa [hnone, List.append_nil]

theorem bare_build {document : Value} (hkeys : document.KeysDistinct) :
    ∀ t ∈ (Group.build document).tokens, t.resolved = true → t.pointers = [] := by
  intro t ht hresolved
  obtain ⟨place, hat⟩ := (Group.mem_tokens_iff (Group.keysDistinct_build hkeys)).mp ht
  obtain ⟨name, members, parent, inherited, rfl⟩ := Group.tokenAt?_build hat
  simp only [Token.build, Bool.and_eq_true, List.isEmpty_iff] at hresolved ⊢
  exact hresolved.1.2

theorem silent_of_isEmpty {outcome : Except NumeralFault (List Problem)}
    (h : outcome.toOption.map List.isEmpty = some true) : outcome = .ok [] := by
  cases outcome with
  | error e => cases h
  | ok problems => rw [List.isEmpty_iff.mp (Option.some.inj h)]

theorem resolved_of_silent_run_pastedAlias :
    (Project.single (Group.build Group.pastedAlias)).tree? "" =
        some (Group.build Group.pastedAlias) ∧
      (Group.build Group.pastedAlias).KeysDistinct ∧
      ((Group.build Group.pastedAlias).tokens.map Token.path).Nodup ∧
      (∀ t ∈ (Group.build Group.pastedAlias).tokens, t.resolved = true → t.pointers = []) ∧
      let s := (start (Project.single (Group.build Group.pastedAlias)) 10).after ""
        [.assemble, .resolve]
      (s.1.answer "" .run).2 = .ok [] ∧ s.2 = [] ∧
        ∃ final, (s.1.answer "" .run).1.project.tree? "" = some final ∧
          final.outline = (Group.build Group.pastedAlias).outline ∧
          ∀ t ∈ final.tokens, t.path ∉ s.2 → t.resolved = true := by
  have hdocument : Group.pastedAlias.KeysDistinct := by decide +kernel
  have hkeys := Group.keysDistinct_build hdocument
  have hpaths : ((Group.build Group.pastedAlias).tokens.map Token.path).Nodup := by decide +kernel
  have hrun : (((start (Project.single (Group.build Group.pastedAlias)) 10).after ""
      [.assemble, .resolve]).1.answer "" .run).2 = .ok [] := silent_of_isEmpty (by decide +kernel)
  exact ⟨rfl, hkeys, hpaths, bare_build hdocument, hrun, by decide +kernel,
    resolved_of_silent_run rfl hkeys hpaths (bare_build hdocument) 10 _ hrun⟩

/-- A document whose aliases are resolved before its pointer is followed. -/
def earlyResolve : Value :=
  .object [("a", .object [(valueKey, .object [("x", .object [("$ref", .text "#/b")]),
      ("y", .text "\x7bb\x7d")])]), ("b", .object [(valueKey, .int 1)])]

/-- The pointer is followed by a later run, which reports nothing, but the failure of before is
kept. -/
theorem not_resolved_of_silent_run :
    ((Group.build earlyResolve).tokens.map Token.path).Nodup ∧
      let s := (start (Project.single (Group.build earlyResolve)) 10).after "" [.resolve]
      (s.1.answer "" .run).2 = .ok [] ∧
        (((s.1.answer "" .run).1.project.tokenAt? "" ["a"]).map fun t =>
          (t.references, t.pointers, t.malformed, t.resolved)) = some (["b"], [], [], false) :=
  ⟨by decide +kernel, silent_of_isEmpty (by decide +kernel), by decide +kernel⟩

end Session

end DesignTokens
