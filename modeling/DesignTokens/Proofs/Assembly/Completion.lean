import DesignTokens.Proofs.Assembly.Following
import DesignTokens.Proofs.Reference.Inclusion

/-!
# Steps that come to an end

`Ends P m Q` says of a step of an assembly that it ends with a result from every state
with `P`, and that result and state then have `Q`.  There is one lemma for each way in
which steps are put together.

`ends_expand` is the rule for replacing the pointers of a value: what holds of one
replacement after the other holds of the whole, with the pointers that failed collected
in their order.  `ends_places` is the rule for the places of a file: what holds of those
in front and is kept by each turn holds of all.
-/

namespace DesignTokens.Assembly

variable {P P' : Assembly → Prop} {α β : Type} {m : AssemblyM α} {Q Q' : α → Assembly → Prop}

/-- A step that ends with a result from certain states. -/
def Ends (P : Assembly → Prop) (m : AssemblyM α) (Q : α → Assembly → Prop) : Prop :=
  ∀ s, P s → ∃ a t, m.run.run s = (.ok a, t) ∧ Q a t

namespace Ends

theorem imp (h : Ends P m Q) (hP : ∀ s, P' s → P s) (hQ : ∀ a s, Q a s → Q' a s) :
    Ends P' m Q' := by
  intro s hs
  obtain ⟨a, t, hrun, hq⟩ := h s (hP s hs)
  exact ⟨a, t, hrun, hQ a t hq⟩

theorem pure {a : α} (h : ∀ s, P s → Q a s) : Ends P (Pure.pure a : AssemblyM α) Q :=
  fun s hs => ⟨a, s, rfl, h s hs⟩

theorem bind {next : α → AssemblyM β} {R : β → Assembly → Prop} (hm : Ends P m Q)
    (hnext : ∀ a, Ends (Q a) (next a) R) : Ends P (m >>= next) R := by
  intro s hs
  obtain ⟨a, t, hrun, hq⟩ := hm s hs
  obtain ⟨b, u, hrun', hr⟩ := hnext a t hq
  refine ⟨b, u, ?_, hr⟩
  rw [ExceptT.run_bind, StateT.run_bind, hrun]
  exact hrun'

theorem get_bind {next : Assembly → AssemblyM β} {R : β → Assembly → Prop}
    (h : ∀ s, P s → Ends (· = s) (next s) R) : Ends P (get >>= next) R := by
  intro s hs
  rw [run_get_bind]
  exact h s hs s rfl

theorem modify {f : Assembly → Assembly} {Q : PUnit → Assembly → Prop}
    (h : ∀ s, P s → Q ⟨⟩ (f s)) : Ends P (modify f : AssemblyM PUnit) Q :=
  fun s hs => ⟨⟨⟩, f s, rfl, h s hs⟩

theorem fact {C : Prop} (h : C → Ends P m Q) : Ends (fun s => C ∧ P s) m Q :=
  fun s hs => h hs.1 s hs.2

end Ends

/-! ### Replacing pointers -/

section

variable {replace : String → AssemblyM (Option Value)} {part : String → Option Value}
  {J : List String → Assembly → Prop}

/-- The pointers of some that are not replaced. -/
def failing (part : String → Option Value) (refs : List String) : List String :=
  refs.filter fun ref => (part ref).isNone

theorem failing_append (refs others : List String) :
    failing part (refs ++ others) = failing part refs ++ failing part others :=
  List.filter_append refs others

theorem failing_of_none {ref : String} (h : part ref = none) : failing part [ref] = [ref] :=
  List.filter_cons_of_pos (by rw [h]; rfl)

theorem failing_of_some {ref : String} {w : Value} (h : part ref = some w) :
    failing part [ref] = [] :=
  List.filter_cons_of_neg (by rw [h]; exact Bool.false_ne_true)

theorem ends_expandItems {items : List Value}
    (h : ∀ v ∈ items, ∀ failed, Ends (J failed) (expand replace v) fun w s =>
      w = v.including part ∧ J (failed ++ failing part v.outerPointers) s) (failed : List String) :
    Ends (J failed) (expandItems replace items) fun results s =>
      results = items.map (Value.including part) ∧
        J (failed ++ failing part (items.flatMap Value.outerPointers)) s := by
  induction items generalizing failed with
  | nil =>
    rw [expandItems]
    refine .pure fun s hs => ⟨rfl, ?_⟩
    rwa [List.flatMap_nil, show failing part [] = [] from rfl, List.append_nil]
  | cons v items ih =>
    obtain ⟨hv, hitems⟩ := List.forall_mem_cons.mp h
    rw [expandItems, List.flatMap_cons, failing_append, ← List.append_assoc]
    refine (hv failed).bind fun first => .fact fun hfirst => ?_
    refine (ih hitems _).bind fun others => .fact fun hothers => ?_
    refine .pure fun s hs => ⟨?_, hs⟩
    rw [hfirst, hothers, List.map_cons]

theorem ends_expandMembers {members : List (String × Value)}
    (h : ∀ m ∈ members, ∀ failed, Ends (J failed) (expand replace m.2) fun w s =>
      w = m.2.including part ∧ J (failed ++ failing part m.2.outerPointers) s)
    (failed : List String) :
    Ends (J failed) (expandMembers replace members) fun results s =>
      results = members.map (fun m => (m.1, m.2.including part)) ∧
        J (failed ++ failing part (members.flatMap fun m => m.2.outerPointers)) s := by
  induction members generalizing failed with
  | nil =>
    rw [expandMembers]
    refine .pure fun s hs => ⟨rfl, ?_⟩
    rwa [List.flatMap_nil, show failing part [] = [] from rfl, List.append_nil]
  | cons m members ih =>
    obtain ⟨key, v⟩ := m
    obtain ⟨hv, hmembers⟩ := List.forall_mem_cons.mp h
    rw [expandMembers, List.flatMap_cons, failing_append, ← List.append_assoc]
    refine (hv failed).bind fun first => .fact fun hfirst => ?_
    refine (ih hmembers _).bind fun others => .fact fun hothers => ?_
    refine .pure fun s hs => ⟨?_, hs⟩
    rw [hfirst, hothers, List.map_cons]

/-- If every outermost pointer is replaced by its part and the others are collected, the value
gets its parts and all failing pointers are collected. -/
theorem ends_expand {v : Value}
    (h : ∀ ref ∈ v.outerPointers, ∀ failed, Ends (J failed) (replace ref) fun r s =>
      r = part ref ∧ J (failed ++ failing part [ref]) s) (failed : List String) :
    Ends (J failed) (expand replace v) fun w s =>
      w = v.including part ∧ J (failed ++ failing part v.outerPointers) s := by
  induction v using Value.inductionOn generalizing failed with
  | list items ih =>
    rw [expand, Value.outerPointers_list, Value.including_list]
    rw [Value.outerPointers_list] at h
    refine (ends_expandItems (fun v hv failed => ih v hv ?_ failed) failed).bind fun results =>
      .fact fun hresults => .pure fun s hs => ⟨congrArg Value.list hresults, hs⟩
    exact fun ref href => h ref (List.mem_flatMap.mpr ⟨v, hv, href⟩)
  | object members ih =>
    rw [expand]
    cases hp : Value.pointerOf? members with
    | some ref =>
      rw [Value.outerPointers_pointer hp, Value.including_pointer hp]
      rw [Value.outerPointers_pointer hp] at h
      refine (h ref List.mem_cons_self failed).bind fun r => .fact fun hr => ?_
      exact .pure fun s hs => ⟨by rw [hr], hs⟩
    | none =>
      rw [Value.outerPointers_object hp, Value.including_object hp]
      rw [Value.outerPointers_object hp] at h
      refine (ends_expandMembers (fun m hm failed => ih m hm ?_ failed) failed).bind fun results =>
        .fact fun hresults => .pure fun s hs => ⟨congrArg Value.object hresults, hs⟩
      exact fun ref href => h ref (List.mem_flatMap.mpr ⟨m, hm, href⟩)
  | _ =>
    simp only [expand, Value.including, Value.outerPointers]
    refine .pure fun s hs => ⟨rfl, ?_⟩
    rwa [show failing part [] = [] from rfl, List.append_nil]

end

/-! ### The places of a file -/

section

variable {J : List Place → Assembly → Prop} {file : String} {limit : Int}

/-- What holds once the places in front have had their turn holds once all have, if it is kept where
nothing is to do and wherever a token is assembled. -/
theorem ends_places (front places : List Place)
    (hlimit : ∀ before s, J before s → s.maxDepth = limit)
    (hskip : ∀ before place after s, front ++ places = before ++ place :: after → J before s →
      (∀ u, s.tokenAt? file place = some u → u.pointers = []) → J (before ++ [place]) s)
    (hturn : ∀ before place after, front ++ places = before ++ place :: after →
      Ends (fun s => J before s ∧ ∃ u, s.tokenAt? file place = some u ∧ u.pointers ≠ [])
        (assembleToken (hopsWithin limit) file place) fun _ => J (before ++ [place])) :
    Ends (J front) (assemblePlaces file places) fun _ => J (front ++ places) := by
  induction places generalizing front with
  | nil =>
    rw [assemblePlaces, List.append_nil]
    exact .pure fun s hs => hs
  | cons place places ih =>
    have hhere := hskip front place places
    have htoken := hturn front place places rfl
    have happend : front ++ place :: places = front ++ [place] ++ places := by simp
    rw [happend] at hskip hturn ⊢
    have hnext := ih _ hskip hturn
    rw [assemblePlaces]
    refine .get_bind fun s hs => ?_
    cases hu : s.tokenAt? file place with
    | none =>
      refine hnext.imp ?_ fun _ _ h => h
      rintro _ rfl
      exact hhere _ rfl hs fun u hu' => by cases hu.symm.trans hu'
    | some u =>
      dsimp only
      split
      · rename_i hpointers
        rw [hlimit front s hs]
        refine (htoken.bind fun _ => hnext).imp ?_ fun _ _ h => h
        rintro _ rfl
        exact ⟨hs, u, hu, by simpa using hpointers⟩
      · rename_i hpointers
        refine hnext.imp ?_ fun _ _ h => h
        rintro _ rfl
        refine hhere _ rfl hs fun u' hu' => ?_
        obtain rfl := Option.some.inj (hu.symm.trans hu')
        simpa using hpointers

end

end DesignTokens.Assembly
