import DesignTokens.Proofs.Assembly.Turn
import DesignTokens.Proofs.Token.Outline

/-!
# An assembly only stores assembled tokens

An assembly changes the project only where it stores a token that it has assembled from
what the token was in an earlier state, with a value in which answers stand for pointers.
So what such a change keeps, every assembly keeps, also when the work ends early
(`Storing.keeps_assembleFile`); nothing has to be known of the values if they do not
matter (`Stable`).

Every tree keeps its outline in this way (`outline_assembleFile`), since an assembled
token has the outline of the token it is made of, and every token keeps the references
that the scan of its value finds (`scanned_assembleFile`).
-/

namespace DesignTokens.Assembly

/-! ### Replacing pointers -/

section

variable {C : ∀ {α : Type}, AssemblyM α → Prop} {replace : String → AssemblyM (Option Value)}
  (hpure : ∀ {α : Type} (a : α), C (pure a))
  (hbind : ∀ {α β : Type} {m : AssemblyM α} {next : α → AssemblyM β},
    C m → (∀ a, C (next a)) → C (m >>= next))

include hpure hbind

theorem expandItems_of_bind {items : List Value} (h : ∀ v ∈ items, C (expand replace v)) :
    C (expandItems replace items) := by
  induction items with
  | nil =>
    rw [expandItems]
    exact hpure _
  | cons v items ih =>
    obtain ⟨hv, hitems⟩ := List.forall_mem_cons.mp h
    rw [expandItems]
    exact hbind hv fun _ => hbind (ih hitems) fun _ => hpure _

theorem expandMembers_of_bind {members : List (String × Value)}
    (h : ∀ m ∈ members, C (expand replace m.2)) : C (expandMembers replace members) := by
  induction members with
  | nil =>
    rw [expandMembers]
    exact hpure _
  | cons m members ih =>
    obtain ⟨key, v⟩ := m
    obtain ⟨hv, hmembers⟩ := List.forall_mem_cons.mp h
    rw [expandMembers]
    exact hbind hv fun _ => hbind (ih hmembers) fun _ => hpure _

/-- What holds of every step that only returns something, and of two steps if it holds of both,
holds of the work on a value if it holds of the work on its outermost pointers. -/
theorem expand_of_bind {v : Value} (h : ∀ ref ∈ v.outerPointers, C (replace ref)) :
    C (expand replace v) := by
  induction v using Value.inductionOn with
  | list items ih =>
    rw [Value.outerPointers_list] at h
    rw [expand]
    refine hbind (expandItems_of_bind hpure hbind fun v hv => ih v hv fun ref href => ?_)
      fun _ => hpure _
    exact h ref (List.mem_flatMap.mpr ⟨v, hv, href⟩)
  | object members ih =>
    rw [expand]
    cases hp : Value.pointerOf? members with
    | some ref =>
      rw [Value.outerPointers_pointer hp] at h
      exact hbind (h ref List.mem_cons_self) fun _ => hpure _
    | none =>
      rw [Value.outerPointers_object hp] at h
      refine hbind (expandMembers_of_bind hpure hbind fun m hm => ih m hm fun ref href => ?_)
        fun _ => hpure _
      exact h ref (List.mem_flatMap.mpr ⟨m, hm, href⟩)
  | _ =>
    simp only [expand]
    exact hpure _

end

section

variable {I : Assembly → Prop} {E : NumeralFault → Prop}
  {replace : String → AssemblyM (Option Value)}

theorem keeps_expandItems {Q : Value → Value → Prop} {items : List Value}
    (h : ∀ v ∈ items, Keeps I (expand replace v) (Q v) E) :
    Keeps I (expandItems replace items) (List.Forall₂ Q items) E := by
  induction items with
  | nil =>
    rw [expandItems]
    exact .pure .nil
  | cons v items ih =>
    obtain ⟨hv, hitems⟩ := List.forall_mem_cons.mp h
    rw [expandItems]
    exact hv.bind fun _ hfirst => (ih hitems).bind fun _ hothers => .pure (.cons hfirst hothers)

theorem keeps_expandMembers {Q : Value → Value → Prop} {members : List (String × Value)}
    (h : ∀ m ∈ members, Keeps I (expand replace m.2) (Q m.2) E) :
    Keeps I (expandMembers replace members)
      (List.Forall₂ (fun m n => m.1 = n.1 ∧ Q m.2 n.2) members) E := by
  induction members with
  | nil =>
    rw [expandMembers]
    exact .pure .nil
  | cons m members ih =>
    obtain ⟨key, v⟩ := m
    obtain ⟨hv, hmembers⟩ := List.forall_mem_cons.mp h
    rw [expandMembers]
    exact hv.bind fun _ hfirst => (ih hmembers).bind fun _ hothers =>
      .pure (.cons ⟨rfl, hfirst⟩ hothers)

/-- A value is related to the one in which its pointers are replaced, if lists and objects are
as soon as their parts are. -/
theorem keeps_expand {Q : Value → Value → Prop} (hself : ∀ v, Q v v)
    (hlist : ∀ {items results}, List.Forall₂ Q items results → Q (.list items) (.list results))
    (hobject : ∀ {members results}, Value.pointerOf? members = none →
      List.Forall₂ (fun m n => m.1 = n.1 ∧ Q m.2 n.2) members results →
        Q (.object members) (.object results)) {v : Value}
    (hreplace : ∀ ref ∈ v.outerPointers, ∀ members, Value.pointerOf? members = some ref →
      Keeps I (replace ref) (fun r => Q (.object members) (r.getD (.object members))) E) :
    Keeps I (expand replace v) (Q v) E := by
  induction v using Value.inductionOn with
  | list items ih =>
    rw [Value.outerPointers_list] at hreplace
    rw [expand]
    refine (keeps_expandItems fun v hv => ih v hv fun ref href => ?_).bind fun _ hresults =>
      .pure (hlist hresults)
    exact hreplace ref (List.mem_flatMap.mpr ⟨v, hv, href⟩)
  | object members ih =>
    rw [expand]
    cases hp : Value.pointerOf? members with
    | some ref =>
      rw [Value.outerPointers_pointer hp] at hreplace
      exact (hreplace ref List.mem_cons_self members hp).bind fun _ hr => .pure hr
    | none =>
      rw [Value.outerPointers_object hp] at hreplace
      refine (keeps_expandMembers fun m hm => ih m hm fun ref href => ?_).bind fun _ hresults =>
        .pure (hobject hp hresults)
      exact hreplace ref (List.mem_flatMap.mpr ⟨m, hm, href⟩)
  | _ =>
    simp only [expand]
    exact .pure (hself _)

theorem keeps_expand_each {v : Value}
    (hreplace : ∀ ref ∈ v.outerPointers, Keeps I (replace ref) (fun _ => True) E) :
    Keeps I (expand replace v) (fun _ => True) E :=
  expand_of_bind (C := fun m => Keeps I m (fun _ => True) E) (fun _ => .pure trivial)
    (fun hm hnext => hm.bind fun a _ => hnext a) hreplace

end

/-! ### All steps -/

theorem tokenAt?_congr {s r : Assembly} (he : r.project = s.project) (file : String)
    (place : Place) : r.tokenAt? file place = s.tokenAt? file place := by
  unfold tokenAt?
  rw [he]

/-- An invariant that is kept as long as nothing but assembled tokens is stored, whose values have a
property that answers have and that stays when pointers are replaced by answers.  Where the pointers
that are followed are known to have a property, so may be the faults that end the work.  What is
known of an assembled value may also tell from which token it was made.  A token is not done when
its pointers are replaced, and it is done when it is stored. -/
structure Storing (V : Value → Prop) (I : Assembly → Prop)
    (R : String → Prop := fun _ => True) (E : NumeralFault → Prop := fun _ => True)
    (W : String → Place → Token → Value → Prop := fun _ _ _ => V) : Prop where
  of_project_eq : ∀ {s r : Assembly}, I s → r.project = s.project → r.maxDepth = s.maxDepth →
    s.done ⊆ r.done → I r
  limit : ∀ {s : Assembly}, I s → isWritable s.maxDepth = false → E (.unwritable s.maxDepth)
  answer : ∀ {s : Assembly} {home ref file : String} {place : Place} {t : Token}
    {rest : List String}, I s → s.locate home ref = .ok (file, place, t, rest) → R ref →
      ∀ ready, Keeps I (answer ref file place t rest ready) (fun r => ∀ w, r = .ok w → V w) E
  expand : ∀ {s : Assembly} {file : String} {place : Place} {t : Token}
    {replace : String → AssemblyM (Option Value)}, I s → s.tokenAt? file place = some t →
      (file, t.path) ∉ s.done →
        (∀ ref, R ref → Keeps I (replace ref) (fun r => ∀ w, r = some w → V w) E) →
          Keeps I (expand replace t.value) (W file place t) E
  assembled : ∀ {s earlier : Assembly} {file : String} {place : Place} {t : Token} {value : Value},
    I s → I earlier → earlier.tokenAt? file place = some t → t.pointers ≠ [] →
      (file, t.path) ∈ s.done → W file place t value →
        I (s.modifyToken file place fun _ => t.assembled value)

/-- Work at a place that keeps an invariant if it is begun at a token with pointers. -/
def Turns (I : Assembly → Prop) (E : NumeralFault → Prop)
    (assemble : String → Place → AssemblyM Bool) : Prop :=
  ∀ file place s t, I s → s.tokenAt? file place = some t → t.pointers ≠ [] →
    Leaves I (fun _ => True) E ((assemble file place).run.run s)

theorem keeps_liftExcept {α : Type} {I : Assembly → Prop} {E : NumeralFault → Prop}
    {outcome : Except NumeralFault α} (h : ∀ e, outcome = .error e → E e) :
    Keeps I (follow.liftExcept outcome) (fun a => outcome = .ok a) E := by
  cases outcome with
  | ok a => exact .pure rfl
  | error e => exact .throw (h e rfl)

/-- A pointer is followed as soon as the token at which it is located has had its turn. -/
theorem keeps_follow_of_located {I : Assembly → Prop} {E : NumeralFault → Prop}
    {assemble : String → Place → AssemblyM Bool} {home ref : String}
    {Q : Except (ProblemKind × Cause) Value → Prop}
    (hassemble : ∀ s file place t rest, I s → s.locate home ref = .ok (file, place, t, rest) →
      s.tokenAt? file place = some t → t.pointers ≠ [] →
        Leaves I (fun _ => True) E ((assemble file place).run.run s))
    (herror : ∀ fault, Q (.error fault))
    (hanswer : ∀ s file place t rest, I s → s.locate home ref = .ok (file, place, t, rest) →
      ∀ ready, Keeps I (answer ref file place t rest ready) Q E) :
    Keeps I (follow assemble home ref) Q E := by
  intro s hs
  cases hlocate : s.locate home ref with
  | error fault =>
    rw [run_follow_error hlocate]
    exact leaves_ok hs (herror fault)
  | ok found =>
    obtain ⟨targetFile, place, target, rest⟩ := found
    obtain ⟨-, -, -, -, hfound⟩ := locate_eq_ok_iff.mp hlocate
    rw [run_follow_ok hlocate]
    refine Keeps.bind_at (Q := fun _ => True) ?_ fun ready _ => hanswer _ _ _ _ _ hs hlocate ready
    split
    · exact leaves_ok hs trivial
    · rename_i hpointers
      exact hassemble s _ _ target rest hs hlocate hfound fun hnone =>
        hpointers (List.isEmpty_iff.mpr hnone)

theorem keeps_follow_of_turns {I : Assembly → Prop} {E : NumeralFault → Prop}
    {assemble : String → Place → AssemblyM Bool} {home ref : String}
    {Q : Except (ProblemKind × Cause) Value → Prop} (hassemble : Turns I E assemble)
    (herror : ∀ fault, Q (.error fault))
    (hanswer : ∀ s file place t rest, I s → s.locate home ref = .ok (file, place, t, rest) →
      ∀ ready, Keeps I (answer ref file place t rest ready) Q E) :
    Keeps I (follow assemble home ref) Q E :=
  keeps_follow_of_located (fun s file place t _ hs _ ht hpointers =>
    hassemble file place s t hs ht hpointers) herror hanswer

/-- The places of a file have their turns if each of them may have one. -/
theorem keeps_assemblePlaces_of_turns {I : Assembly → Prop} {E : NumeralFault → Prop}
    {file : String} (hturns : ∀ hops place s t, I s → s.tokenAt? file place = some t →
      t.pointers ≠ [] → Leaves I (fun _ => True) E ((assembleToken hops file place).run.run s))
    (places : List Place) : Keeps I (assemblePlaces file places) (fun _ => True) E := by
  induction places with
  | nil =>
    rw [assemblePlaces]
    exact .pure trivial
  | cons place places ih =>
    intro s hs
    rw [assemblePlaces, run_get_bind]
    cases ht : s.tokenAt? file place with
    | none => exact ih s hs
    | some t =>
      dsimp only
      split
      · rename_i hpointers
        refine Keeps.bind_at (hturns _ place s t hs ht ?_) fun _ _ => ih
        simpa using hpointers
      · exact ih s hs

theorem keeps_assembleFile_of_turns {I : Assembly → Prop} {E : NumeralFault → Prop}
    {file : String} (hturns : ∀ hops place s t, I s → s.tokenAt? file place = some t →
      t.pointers ≠ [] → Leaves I (fun _ => True) E ((assembleToken hops file place).run.run s)) :
    Keeps I (assembleFile file) (fun _ => True) E := by
  unfold assembleFile
  refine Keeps.get.bind fun s _ => ?_
  split
  · exact keeps_assemblePlaces_of_turns hturns _
  · exact .pure trivial

theorem keeps_assembleFiles_of_each {I : Assembly → Prop} {E : NumeralFault → Prop}
    {files : List String} (h : ∀ file ∈ files, Keeps I (assembleFile file) (fun _ => True) E) :
    Keeps I (assembleFiles files) (fun _ => True) E := by
  induction files with
  | nil =>
    rw [assembleFiles]
    exact .pure trivial
  | cons file files ih =>
    obtain ⟨hfile, hfiles⟩ := List.forall_mem_cons.mp h
    rw [assembleFiles]
    exact hfile.bind fun _ _ => ih hfiles

/-- A segment that ends the work while a pointer is answered follows the value of the token. -/
theorem keeps_answer_of_faults {I : Assembly → Prop} {E : NumeralFault → Prop}
    {ref file : String} {place : Place} {t : Token} {rest : List String}
    (h : ∀ v e, Pointer.descend ref v rest = .error e → E e) (ready : Bool) :
    Keeps I (answer ref file place t rest ready) (fun _ => True) E := by
  unfold answer
  cases ready with
  | true =>
    refine Keeps.get.bind fun s _ => (keeps_liftExcept fun e he => h _ e he).bind fun part _ => ?_
    cases part with
    | ok w => exact .pure trivial
    | error cause => exact .pure trivial
  | false => exact Keeps.get.bind fun s _ => .pure trivial

/-- The answer of a token is a part of its value, so it has what every part of such a value has. -/
theorem keeps_answer_of_parts {V : Value → Prop} {I : Assembly → Prop} {ref file : String}
    {place : Place} {t : Token} {rest : List String} (ht : V t.value)
    (htokens : ∀ s, I s → ∀ u, s.tokenAt? file place = some u → V u.value)
    (hparts : ∀ v w, V v → Pointer.descend ref v rest = .ok (.ok w) → V w) (ready : Bool) :
    Keeps I (answer ref file place t rest ready) fun r => ∀ w, r = .ok w → V w := by
  unfold answer
  cases ready with
  | true =>
    refine Keeps.get.bind fun s hs =>
      (keeps_liftExcept fun _ _ => trivial).bind fun part hpart => ?_
    cases part with
    | error cause => exact .pure fun w hw => by cases hw
    | ok part =>
      refine .pure fun w hw => ?_
      cases hw
      refine hparts _ _ ?_ hpart
      cases hnow : s.tokenAt? file place with
      | none => exact ht
      | some now => exact htokens s hs now hnow
  | false =>
    refine Keeps.get.bind fun s _ => .pure fun w hw => ?_
    cases hw

namespace Storing

variable {V : Value → Prop} {I : Assembly → Prop} {R : String → Prop} {E : NumeralFault → Prop}
  {W : String → Place → Token → Value → Prop} {assemble : String → Place → AssemblyM Bool}
  {ref : String}

theorem keeps_follow (h : Storing V I R E W) (hassemble : Turns I E assemble) (file : String)
    (href : R ref) : Keeps I (follow assemble file ref) (fun r => ∀ w, r = .ok w → V w) E :=
  keeps_follow_of_turns hassemble (fun _ _ hw => by cases hw) fun _ _ _ _ _ hs hlocate =>
    h.answer hs hlocate href

theorem keeps_replacement (h : Storing V I R E W) (hassemble : Turns I E assemble)
    (file path : String) (href : R ref) :
    Keeps I (replacement assemble file path ref) (fun r => ∀ w, r = some w → V w) E := by
  unfold replacement
  refine (h.keeps_follow hassemble file href).bind fun r hr => ?_
  cases r with
  | ok v => exact .pure fun w hw => hr w (congrArg Except.ok (Option.some.inj hw))
  | error fault =>
    refine (Keeps.modify fun s hs => ?_).bind fun _ _ => .pure fun w hw => ?_
    · exact h.of_project_eq hs rfl rfl (List.Subset.refl _)
    · cases hw

theorem keeps_complete (h : Storing V I R E W) {hops : Nat}
    (hassemble : Turns I E (assembleToken hops)) {s : Assembly} {file : String} {place : Place}
    {t : Token} (hs : I s) (ht : s.tokenAt? file place = some t) (hpointers : t.pointers ≠ [])
    (hnew : (file, t.path) ∉ s.done) :
    Keeps I (complete hops file place t) (fun _ => True) E := by
  have hreplace := fun ref (href : R ref) => h.keeps_replacement hassemble file t.path href
  unfold complete
  refine (h.expand hs ht hnew hreplace).bind fun value hvalue r hr => ?_
  have hdone : I (r.close (file, t.path)) :=
    h.of_project_eq hr rfl rfl (List.subset_cons_self _ _)
  have hstored := h.assembled hdone hs ht hpointers List.mem_cons_self hvalue
  rw [run_modify_bind, run_modify_bind]
  split
  · exact leaves_ok hstored trivial
  · exact leaves_ok (h.of_project_eq hstored rfl rfl (List.Subset.refl _)) trivial

/-- A token has its turn if the tokens to which it leads may have theirs. -/
theorem turns_of_below (h : Storing V I R E W) {hops : Nat}
    (hbelow : ∀ n, hops = n + 1 → Turns I E (assembleToken n)) :
    Turns I E (assembleToken hops) := by
  intro file place s t hs ht hpointers
  have hvisited := visited hops ht
  generalize (assembleToken hops file place).run.run s = out at hvisited ⊢
  cases hvisited with
  | done => exact leaves_ok hs trivial
  | running => exact leaves_ok (h.of_project_eq hs rfl rfl (List.Subset.refl _)) trivial
  | late => exact leaves_ok (h.of_project_eq hs rfl rfl (List.Subset.refl _)) trivial
  | unwritable _ _ hlimit => exact leaves_error hs (h.limit hs hlimit)
  | fresh hnew =>
    refine h.keeps_complete (hbelow _ rfl) hs ht hpointers hnew _ ?_
    exact h.of_project_eq hs rfl rfl (List.Subset.refl _)

theorem turns_assembleToken (h : Storing V I R E W) (hops : Nat) :
    Turns I E (assembleToken hops) := by
  induction hops with
  | zero => exact h.turns_of_below nofun
  | succ hops ih => exact h.turns_of_below fun n hn => Nat.succ.inj hn ▸ ih

theorem keeps_assemblePlaces (h : Storing V I R E W) (file : String) (places : List Place) :
    Keeps I (assemblePlaces file places) (fun _ => True) E :=
  keeps_assemblePlaces_of_turns (fun hops place => h.turns_assembleToken hops file place) places

/-- **What the storing of assembled tokens keeps, an assembly of a file keeps.** -/
theorem keeps_assembleFile (h : Storing V I R E W) (file : String) :
    Keeps I (assembleFile file) (fun _ => True) E :=
  keeps_assembleFile_of_turns fun hops place => h.turns_assembleToken hops file place

theorem keeps_assembleFiles (h : Storing V I R E W) (files : List String) :
    Keeps I (assembleFiles files) (fun _ => True) E :=
  keeps_assembleFiles_of_each fun file _ => h.keeps_assembleFile file

end Storing

/-- Nothing has to be asked of the values if no assembled token that is stored breaks an
invariant. -/
theorem storing_of_kept {I : Assembly → Prop}
    (hproject : ∀ {s r : Assembly}, I s → r.project = s.project → r.maxDepth = s.maxDepth →
      s.done ⊆ r.done → I r)
    (hassembled : ∀ {s earlier : Assembly} {file : String} {place : Place} {t : Token}, I s →
      I earlier → earlier.tokenAt? file place = some t → t.pointers ≠ [] →
        (file, t.path) ∈ s.done → ∀ value,
          I (s.modifyToken file place fun _ => t.assembled value)) :
    Storing (fun _ => True) I where
  of_project_eq := hproject
  limit _ _ := trivial
  answer _ _ _ ready :=
    (keeps_answer_of_faults (fun _ _ _ => trivial) ready).imp fun _ _ _ _ => trivial
  expand _ _ _ hreplace :=
    keeps_expand_each fun ref _ => (hreplace ref trivial).imp fun _ _ => trivial
  assembled hs hearlier ht hpointers hdone _ := hassembled hs hearlier ht hpointers hdone _

/-- An invariant that is kept as long as nothing but assembled tokens is stored. -/
structure Stable (I : Assembly → Prop) : Prop where
  of_project_eq : ∀ {s r : Assembly}, I s → r.project = s.project → I r
  assembled : ∀ {s earlier : Assembly} {file : String} {place : Place} {t : Token}, I s →
    I earlier → earlier.tokenAt? file place = some t → t.pointers ≠ [] → ∀ value,
      I (s.modifyToken file place fun _ => t.assembled value)

theorem Stable.storing {I : Assembly → Prop} (h : Stable I) : Storing (fun _ => True) I :=
  storing_of_kept (fun hs he _ _ => h.of_project_eq hs he)
    fun hs hearlier ht hpointers _ => h.assembled hs hearlier ht hpointers

/-! ### Outlines -/

/-- Every tree of the state has the outline of a tree before. -/
def Outlined (base : Project) (s : Assembly) : Prop :=
  ∀ file, (s.project.tree? file).map Group.outline = (base.tree? file).map Group.outline

variable {base : Project} {s : Assembly} {file : String} {place : Place} {t : Token}

theorem Outlined.of_project_eq (h : Outlined base s) {r : Assembly} (he : r.project = s.project) :
    Outlined base r := by
  intro file
  rw [he]
  exact h file

theorem Outlined.exists_token (h : Outlined base s) (ht : s.tokenAt? file place = some t) :
    ∃ tree u, base.tree? file = some tree ∧ tree.tokenAt? place = some u ∧
      t.outline = u.outline := by
  obtain ⟨found, hfound, hat⟩ := Option.bind_eq_some_iff.mp ht
  have houtline := h file
  rw [hfound] at houtline
  obtain ⟨tree, htree, he⟩ := Option.map_eq_some_iff.mp houtline.symm
  obtain ⟨u, hu, hsame⟩ := Group.exists_tokenAt?_of_outline he.symm hat
  exact ⟨tree, u, htree, hu, hsame⟩

/-- A token may be assembled from what it was in an earlier state. -/
theorem Outlined.assembled (h : Outlined base s) {earlier : Assembly}
    (hearlier : Outlined base earlier) (ht : earlier.tokenAt? file place = some t) (value : Value) :
    Outlined base (s.modifyToken file place fun _ => t.assembled value) := by
  unfold Assembly.modifyToken
  cases htree : s.project.tree? file with
  | none => exact h
  | some tree =>
    intro other
    dsimp only
    rw [← h other, Project.tree?_setTree]
    split
    · rename_i he
      rw [he, htree]
      refine congrArg some (Group.outline_modifyToken fun u hu => ?_)
      obtain ⟨before, x, hbefore, hx, htx⟩ := hearlier.exists_token ht
      have hnow : s.tokenAt? file place = some u := by
        rw [tokenAt?, htree]
        exact hu
      obtain ⟨before', y, hbefore', hy, huy⟩ := h.exists_token hnow
      obtain rfl := Option.some.inj (hbefore.symm.trans hbefore')
      obtain rfl := Option.some.inj (hx.symm.trans hy)
      exact htx.trans huy.symm
    · rfl

/-- **Every tree has its outline after one of the files is assembled.** -/
theorem outline_assembleFile (project : Project) (file : String) (maxDepth : Int) (other : String) :
    ((project.assembleFile file maxDepth).1.tree? other).map Group.outline =
      (project.tree? other).map Group.outline := by
  have hstable : Stable (Outlined project) :=
    ⟨fun h he => h.of_project_eq he, fun h hearlier ht _ value => h.assembled hearlier ht value⟩
  exact (hstable.storing.keeps_assembleFile file (start project maxDepth) fun _ => rfl).kept other

/-! ### References -/

/-- Every token of the state has the references of its value. -/
def Scanned (s : Assembly) : Prop :=
  ∀ file place t, s.tokenAt? file place = some t → t.Scanned

theorem stable_scanned : Stable Scanned where
  of_project_eq h he := by
    intro file place t ht
    rw [tokenAt?_congr he] at ht
    exact h file place t ht
  assembled := by
    intro s earlier file place t h hearlier ht _ value other next u hu
    unfold Assembly.modifyToken at hu
    cases htree : s.project.tree? file with
    | none =>
      rw [htree] at hu
      exact h other next u hu
    | some tree =>
      rw [htree] at hu
      obtain ⟨found, hfound, hu⟩ := Option.bind_eq_some_iff.mp hu
      rw [Project.tree?_setTree] at hfound
      split at hfound
      · rename_i he
        rw [he, htree] at hfound
        rw [← Option.some.inj hfound, Group.tokenAt?_modifyToken] at hu
        split at hu
        · obtain ⟨-, -, rfl⟩ := Option.map_eq_some_iff.mp hu
          exact Token.Scanned.assembled (hearlier file place t ht).hasSegments value
        · exact h file next u (Option.bind_eq_some_iff.mpr ⟨tree, htree, hu⟩)
      · exact h other next u (Option.bind_eq_some_iff.mpr ⟨found, hfound, hu⟩)

/-- **Every token has the references of its value after one of the files is assembled.** -/
theorem scanned_assembleFile {project : Project}
    (h : ∀ file tree place t, project.tree? file = some tree → tree.tokenAt? place = some t →
      t.Scanned) (file : String) (maxDepth : Int) {other : String} {tree : Group} {place : Place}
    {t : Token} (htree : (project.assembleFile file maxDepth).1.tree? other = some tree)
    (ht : tree.tokenAt? place = some t) : t.Scanned := by
  have hstart : Scanned (start project maxDepth) := by
    intro file place t ht
    obtain ⟨tree, htree, hat⟩ := Option.bind_eq_some_iff.mp ht
    exact h file tree place t htree hat
  exact (stable_scanned.storing.keeps_assembleFile file _ hstart).kept other place t
    (Option.bind_eq_some_iff.mpr ⟨tree, htree, ht⟩)

end DesignTokens.Assembly
