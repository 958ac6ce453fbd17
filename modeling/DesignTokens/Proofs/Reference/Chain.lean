import DesignTokens.Proofs.Graph.Reachability
import DesignTokens.Proofs.Token.Places
import DesignTokens.Reference.Chain
import Mathlib.Data.List.Perm.Subperm
import Mathlib.Logic.Function.Iterate

/-!
# What a chain of aliases holds

A walk keeps its members, its queue and the references that wait apart, and no text is at two of
these places (`perm_joinAll`).  So nothing is visited twice (`subperm_walk`), each new member is a
reference of an older one (`mem_or_introduced`), and with a member all its references are members
(`mem_walk_of_reference`).

`Chain.grow` is a turn on a chain that grows while it is read: the member at an index brings those
of its references that are no members yet.  The turns come to an end with the chain of the walk
(`iterate_grow_walk`).
-/

namespace DesignTokens

namespace Chain

variable {references : String → List String} {refs queue waiting done : List String}
  {path ref x : String}

/-! ### Joining -/

/-- Joining only moves references that wait to the end of the queue. -/
theorem exists_joined (refs queue waiting : List String) :
    ∃ joined, (joinAll refs queue waiting).1 = queue ++ joined ∧
      (∀ r ∈ joined, r ∈ refs) ∧ (joined ++ (joinAll refs queue waiting).2).Perm waiting := by
  induction refs generalizing queue waiting with
  | nil => exact ⟨[], (List.append_nil _).symm, nofun, .refl _⟩
  | cons ref refs ih =>
    rw [joinAll]
    split
    · rename_i hwaits
      obtain ⟨joined, hqueue, hrefs, hperm⟩ := ih (queue ++ [ref]) (waiting.erase ref)
      refine ⟨ref :: joined, ?_, ?_, ?_⟩
      · rw [hqueue, List.append_assoc]
        rfl
      · intro r hr
        exact (List.mem_cons.mp hr).elim (fun he => he ▸ List.mem_cons_self) fun hr =>
          List.mem_cons_of_mem _ (hrefs r hr)
      · exact (hperm.cons ref).trans (List.perm_cons_erase hwaits).symm
    · obtain ⟨joined, hqueue, hrefs, hperm⟩ := ih queue waiting
      exact ⟨joined, hqueue, fun r hr => List.mem_cons_of_mem _ (hrefs r hr), hperm⟩

theorem perm_joinAll (refs queue waiting : List String) :
    ((joinAll refs queue waiting).1 ++ (joinAll refs queue waiting).2).Perm
      (queue ++ waiting) := by
  obtain ⟨joined, hqueue, -, hperm⟩ := exists_joined refs queue waiting
  rw [hqueue, List.append_assoc]
  exact hperm.append_left queue

theorem mem_joinAll_of_mem_queue (h : x ∈ queue) : x ∈ (joinAll refs queue waiting).1 := by
  obtain ⟨joined, hqueue, -, -⟩ := exists_joined refs queue waiting
  exact hqueue ▸ List.mem_append_left _ h

theorem mem_queue_or_refs (h : x ∈ (joinAll refs queue waiting).1) : x ∈ queue ∨ x ∈ refs := by
  obtain ⟨joined, hqueue, hrefs, -⟩ := exists_joined refs queue waiting
  rw [hqueue] at h
  exact (List.mem_append.mp h).imp_right (hrefs x)

/-- A reference that waits joins. -/
theorem mem_joinAll_of_waits (href : ref ∈ refs) (hwaits : ref ∈ waiting) :
    ref ∈ (joinAll refs queue waiting).1 := by
  induction refs generalizing queue waiting with
  | nil => exact absurd href List.not_mem_nil
  | cons first refs ih =>
    rw [joinAll]
    by_cases he : ref = first
    · subst he
      rw [if_pos hwaits]
      exact mem_joinAll_of_mem_queue (List.mem_append_right _ List.mem_cons_self)
    · have hrefs := (List.mem_cons.mp href).resolve_left he
      split
      · exact ih hrefs ((List.mem_erase_of_ne he).mpr hwaits)
      · exact ih hrefs hwaits

/-! ### Walking -/

theorem mem_walk_of_mem_queue (h : x ∈ queue) : x ∈ walk references queue waiting := by
  induction queue, waiting using walk.induct references with
  | case1 waiting => exact absurd h List.not_mem_nil
  | case2 waiting path queue ih =>
    rw [walk]
    exact List.mem_cons.mpr ((List.mem_cons.mp h).imp_right fun h =>
      ih (mem_joinAll_of_mem_queue h))

theorem subperm_walk (references : String → List String) (queue waiting : List String) :
    (walk references queue waiting).Subperm (queue ++ waiting) := by
  induction queue, waiting using walk.induct references with
  | case1 waiting =>
    rw [walk]
    exact List.nil_subperm
  | case2 waiting path queue ih =>
    rw [walk, List.cons_append, List.subperm_cons]
    exact ih.trans (perm_joinAll _ queue waiting).subperm

/-- A member was in the queue, or a member before it refers to it. -/
theorem mem_or_introduced {before after : List String}
    (h : walk references queue waiting = before ++ x :: after) :
    x ∈ queue ∨ ∃ y ∈ before, x ∈ references y := by
  induction queue, waiting using walk.induct references generalizing before with
  | case1 waiting =>
    rw [walk] at h
    exact absurd h.symm (List.append_ne_nil_of_right_ne_nil _ (List.cons_ne_nil _ _))
  | case2 waiting path queue ih =>
    rw [walk] at h
    cases before with
    | nil => exact Or.inl ((List.cons.inj h).1 ▸ List.mem_cons_self)
    | cons first before =>
      obtain ⟨rfl, hrest⟩ := List.cons.inj h
      rcases ih hrest with hx | ⟨y, hy, hxy⟩
      · rcases mem_queue_or_refs hx with hx | hx
        · exact Or.inl (List.mem_cons_of_mem _ hx)
        · exact Or.inr ⟨path, List.mem_cons_self, hx⟩
      · exact Or.inr ⟨y, List.mem_cons_of_mem _ hy, hxy⟩

/-- With a member its references are members, those that wait at the start at least. -/
theorem mem_walk_of_reference (h : x ∈ walk references queue waiting) (href : ref ∈ references x)
    (hwaits : ref ∈ waiting) : ref ∈ walk references queue waiting := by
  induction queue, waiting using walk.induct references with
  | case1 waiting =>
    rw [walk] at h
    exact absurd h List.not_mem_nil
  | case2 waiting path queue ih =>
    rw [walk] at h ⊢
    refine List.mem_cons_of_mem _ ?_
    rcases List.mem_cons.mp h with rfl | h
    · exact mem_walk_of_mem_queue (mem_joinAll_of_waits href hwaits)
    · have hparts := (perm_joinAll (references path) queue waiting).mem_iff.mpr
        (List.mem_append_right _ hwaits)
      rcases List.mem_append.mp hparts with hjoined | hstill
      · exact mem_walk_of_mem_queue hjoined
      · exact ih h hstill

/-! ### Turns on a growing chain -/

/-- A chain with a reference behind it, unless it is a member already. -/
def add (chain : List String) (ref : String) : List String :=
  if ref ∈ chain then chain else chain ++ [ref]

/-- A turn on a chain that grows while it is read: the member at an index brings its references. -/
def grow (references : String → List String) (turn : List String × Nat) : List String × Nat :=
  match turn.1[turn.2]? with
  | none => turn
  | some path => ((references path).foldl add turn.1, turn.2 + 1)

/-- Adding references to members and a queue joins those that wait. -/
theorem foldl_add_eq (hapart : (done ++ queue ++ waiting).Nodup)
    (hrefs : ∀ r ∈ refs, r ∈ done ++ queue ++ waiting) :
    refs.foldl add (done ++ queue) = done ++ (joinAll refs queue waiting).1 := by
  induction refs generalizing queue waiting with
  | nil => rfl
  | cons ref refs ih =>
    obtain ⟨href, hrefs⟩ := List.forall_mem_cons.mp hrefs
    rw [List.foldl_cons, joinAll, add]
    by_cases hwaits : ref ∈ waiting
    · have hnew : ref ∉ done ++ queue := fun hm =>
        (List.nodup_append.mp hapart).2.2 ref hm ref hwaits rfl
      have hperm : (done ++ (queue ++ [ref]) ++ waiting.erase ref).Perm
          (done ++ queue ++ waiting) := by
        rw [← List.append_assoc, List.append_assoc _ [ref]]
        exact (List.perm_cons_erase hwaits).symm.append_left _
      rw [if_pos hwaits, if_neg hnew, List.append_assoc]
      exact ih (hperm.nodup_iff.mpr hapart) fun r hr => hperm.mem_iff.mpr (hrefs r hr)
    · rw [if_neg hwaits, if_pos ((List.mem_append.mp href).resolve_right hwaits)]
      exact ih hapart hrefs

/-- **The turns come to an end with the chain of the walk**, one turn for each member. -/
theorem iterate_grow_walk (hapart : (done ++ queue ++ waiting).Nodup)
    (hrefs : ∀ y, ∀ r ∈ references y, r ∈ done ++ queue ++ waiting) :
    (grow references)^[(walk references queue waiting).length] (done ++ queue, done.length) =
      (done ++ walk references queue waiting,
        done.length + (walk references queue waiting).length) := by
  induction queue, waiting using walk.induct references generalizing done with
  | case1 waiting =>
    rw [walk]
    rfl
  | case2 waiting path queue ih =>
    have hperm : (done ++ [path] ++ (joinAll (references path) queue waiting).1 ++
        (joinAll (references path) queue waiting).2).Perm (done ++ path :: queue ++ waiting) := by
      rw [List.append_assoc, List.append_assoc, List.append_assoc]
      exact ((perm_joinAll _ queue waiting).cons path).append_left done
    have hturn : grow references (done ++ path :: queue, done.length) =
        (done ++ [path] ++ (joinAll (references path) queue waiting).1,
          (done ++ [path]).length) := by
      rw [List.append_cons done path queue] at hapart hrefs ⊢
      rw [← foldl_add_eq hapart (hrefs path), List.length_append]
      simp [grow]
    rw [walk, List.length_cons, Function.iterate_succ_apply, hturn,
      ih (hperm.nodup_iff.mpr hapart) fun y r hr => hperm.mem_iff.mpr (hrefs y r hr),
      List.append_assoc, List.length_append, Nat.add_assoc, Nat.add_comm (List.length [path])]
    rfl

end Chain

namespace Group

variable {g : Group} {path named x : String}

/-- The token with a path refers to another path. -/
def Tracks (g : Group) (path named : String) : Prop :=
  ∃ t, g.findToken? path = some t ∧ named ∈ t.references

theorem mem_referencesOf_iff : named ∈ g.referencesOf path ↔ g.Tracks path named := by
  unfold referencesOf Tracks
  cases g.findToken? path with
  | none => simp
  | some t => simp

/-- All references of a tree, each once. -/
def allReferences (g : Group) : List String := (g.tokens.flatMap Token.references).eraseDups

theorem Tracks.mem_allReferences (h : g.Tracks path named) : named ∈ g.allReferences := by
  obtain ⟨t, ht, hnamed⟩ := h
  have hm : t ∈ g.tokens := List.mem_map.mpr ⟨_, mem_placedTokens_of_tokenAt? ht, rfl⟩
  exact List.mem_eraseDups.mpr (List.mem_flatMap.mpr ⟨t, hm, hnamed⟩)

theorem chain_eq_walk (g : Group) (path : String) :
    g.chain path = Chain.walk g.referencesOf [path] (g.allReferences.filter (· ≠ path)) := rfl

theorem nodup_waiting (g : Group) (path : String) :
    (path :: g.allReferences.filter (· ≠ path)).Nodup :=
  List.nodup_cons.mpr ⟨by simp, (Graph.nodup_eraseDups _).filter _⟩

theorem mem_waiting_iff : x ∈ path :: g.allReferences.filter (· ≠ path) ↔
    x = path ∨ x ∈ g.allReferences := by
  rw [List.mem_cons, List.mem_filter, decide_eq_true_iff]
  tauto

/-- The chain of a path holds what the path leads to by references. -/
theorem mem_chain_iff : x ∈ g.chain path ↔ Relation.ReflTransGen g.Tracks path x := by
  constructor
  · intro hx
    obtain ⟨before, after, hsplit⟩ := List.append_of_mem hx
    clear hx
    -- A member was brought in by one before it, so the induction is on what stands before.
    induction hn : before.length using Nat.strongRecOn generalizing before x after with
    | ind n ih =>
      rcases Chain.mem_or_introduced hsplit with hx | ⟨y, hy, hxy⟩
      · rw [List.mem_singleton.mp hx]
      · obtain ⟨front, back, rfl⟩ := List.append_of_mem hy
        refine (ih front.length ?_ front (back ++ x :: after) ?_ rfl).tail
          (mem_referencesOf_iff.mp hxy)
        · rw [← hn, List.length_append, List.length_cons]
          omega
        · rw [hsplit, List.append_assoc]
          rfl
  · intro hx
    induction hx with
    | refl => exact Chain.mem_walk_of_mem_queue List.mem_cons_self
    | @tail y x _ hxy ih =>
      rcases List.mem_cons.mp (mem_waiting_iff.mpr (Or.inr hxy.mem_allReferences)) with he | hwaits
      · exact Chain.mem_walk_of_mem_queue (List.mem_singleton.mpr he)
      · exact Chain.mem_walk_of_reference ih (mem_referencesOf_iff.mpr hxy) hwaits

/-- What a chain of a path is: it begins with the path, it repeats nothing, it holds what the path
leads to by references, and each further member is a reference of one before it. -/
structure ChainOf (g : Group) (path : String) (chain : List String) : Prop where
  first : chain.head? = some path
  nodup : chain.Nodup
  mem_iff : ∀ x, x ∈ chain ↔ Relation.ReflTransGen g.Tracks path x
  introduced : ∀ before x after, chain = before ++ x :: after → x ≠ path →
    ∃ y ∈ before, g.Tracks y x

/-- **The chain of a path is what the path leads to**, whatever the tree is.  The turns on a growing
chain come to an end with it, one for each member, and it has no more members than the tree has
different references and one more. -/
theorem chain_reachable (g : Group) (path : String) :
    g.ChainOf path (g.chain path) ∧
      (Chain.grow g.referencesOf)^[(g.chain path).length] ([path], 0) =
        (g.chain path, (g.chain path).length) ∧
      (g.chain path).length ≤ g.allReferences.length + 1 := by
  have hsub := Chain.subperm_walk g.referencesOf [path] (g.allReferences.filter (· ≠ path))
  have hhead : (g.chain path).head? = some path := by
    rw [chain_eq_walk, Chain.walk]
    rfl
  refine ⟨⟨hhead, ?_, fun x => mem_chain_iff, ?_⟩, ?_, ?_⟩
  · obtain ⟨visited, hperm, hsublist⟩ := hsub
    exact hperm.nodup_iff.mp ((g.nodup_waiting path).sublist hsublist)
  · intro before x after hsplit hx
    obtain ⟨y, hy, hxy⟩ :=
      (Chain.mem_or_introduced hsplit).resolve_left fun hm => hx (List.mem_singleton.mp hm)
    exact ⟨y, hy, mem_referencesOf_iff.mp hxy⟩
  · have hrefs : ∀ y, ∀ r ∈ g.referencesOf y,
        r ∈ [] ++ [path] ++ g.allReferences.filter (· ≠ path) := fun y r hr =>
      mem_waiting_iff.mpr (Or.inr (mem_referencesOf_iff.mp hr).mem_allReferences)
    have hturns := Chain.iterate_grow_walk (g.nodup_waiting path) hrefs
    rw [List.length_nil, Nat.zero_add] at hturns
    exact hturns
  · refine Nat.le_trans hsub.length_le ?_
    rw [List.singleton_append, List.length_cons]
    exact Nat.succ_le_succ (List.length_filter_le _ _)

end Group

end DesignTokens
