import DesignTokens.Proofs.Graph.Components

/-!
# A graph with one more source

A source that no node has for a target is walked after all others, and until then the walk
does not see it (`Walk.visitAll_later`).  So a graph without cycles that gets such a source
keeps its order, and the new nodes stand behind it (`Graph.order_append`).
-/

namespace DesignTokens

variable {α : Type} [DecidableEq α] {g h : Graph α} {w : Walk α} {extra : List α} {v : α}

/-- A graph in which the nodes of another one have the targets that they have there, and none of
some new nodes stands in that one. -/
structure Graph.Extends (h g : Graph α) (extra : List α) : Prop where
  targets : ∀ v, g.Occurs v → h.targets v = g.targets v
  fresh : ∀ v ∈ extra, ¬ g.Occurs v

namespace Walk

def later (w : Walk α) (extra : List α) : Walk α := { w with unvisited := w.unvisited ++ extra }

/-- All that is left to read in a walk are nodes of a graph. -/
def Inside (g : Graph α) (w : Walk α) : Prop :=
  ∀ f ∈ w.work, g.Occurs f.node ∧ ∀ v ∈ f.pending, g.Occurs v

theorem mem_unvisited_later (hext : h.Extends g extra) (hv : g.Occurs v) :
    v ∈ (w.later extra).unvisited ↔ v ∈ w.unvisited := by
  show v ∈ w.unvisited ++ extra ↔ _
  rw [List.mem_append, or_iff_left fun hm => hext.fresh v hm hv]

theorem consume_later (hext : h.Extends g extra) {pending : List α}
    (hpending : ∀ v ∈ pending, g.Occurs v) (w : Walk α) (node : α) :
    (w.later extra).consume node pending =
      ((w.consume node pending).1.later extra, (w.consume node pending).2) := by
  induction pending generalizing w with
  | nil => rfl
  | cons target rest ih =>
    obtain ⟨htarget, hrest⟩ := List.forall_mem_cons.mp hpending
    unfold consume
    simp only [mem_unvisited_later hext htarget]
    split
    · rfl
    · change (if target ∈ w.onStack then
          ((w.lower node (w.indexOf target)).later extra).consume node rest
        else (w.later extra).consume node rest) = _
      split
      · exact ih hrest _
      · exact ih hrest _

theorem enter_later (hext : h.Extends g extra) (hv : v ∈ w.unvisited) (hoccurs : g.Occurs v) :
    (w.later extra).enter h v = (w.enter g v).later extra := by
  unfold enter later
  rw [hext.targets v hoccurs, List.erase_append_left _ hv]

theorem closeComponent_later (hext : h.Extends g extra) (hv : g.Occurs v) :
    (w.later extra).closeComponent h v = (w.closeComponent g v).later extra := by
  have hstack : (w.later extra).stack = w.stack := rfl
  unfold closeComponent
  rw [hstack, hext.targets v hv]
  dsimp only
  by_cases hlen : (popTo v w.stack).1.reverse.length > 1
  · rw [if_pos hlen, if_pos hlen]
    rfl
  · rw [if_neg hlen, if_neg hlen]
    by_cases hself : v ∈ g.targets v
    · rw [if_pos hself, if_pos hself]
      rfl
    · rw [if_neg hself, if_neg hself]
      rfl

theorem leave_later (hext : h.Extends g extra) (hv : g.Occurs v) (outer : List (Frame α)) :
    (w.later extra).leave h v outer = (w.leave g v outer).later extra := by
  unfold leave
  cases outer with
  | nil =>
    dsimp only
    rw [apply_ite (fun w : Walk α => w.later extra), ← closeComponent_later hext hv]
    rfl
  | cons parent outer =>
    dsimp only
    rw [apply_ite (fun w : Walk α => w.later extra), ← closeComponent_later hext hv]
    rfl

theorem consume_suffix {w : Walk α} {node : α} {pending : List α} {target : α} {rest : List α}
    (hc : (w.consume node pending).2 = some (target, rest)) : target :: rest <:+ pending := by
  induction pending generalizing w with
  | nil => cases hc
  | cons first others ih =>
    unfold consume at hc
    split at hc
    · cases hc
      exact List.suffix_refl _
    · split at hc
      · exact (ih hc).trans (List.suffix_cons _ _)
      · exact (ih hc).trans (List.suffix_cons _ _)

/-- The targets that a walk goes on to stand in the graph, since they are read off it. -/
theorem Inside.step (hw : w.Inside g) : (w.step g).Inside g := by
  unfold Walk.step
  cases hwork : w.work with
  | nil => exact hw
  | cons frame outer =>
    dsimp only
    unfold Inside at hw
    rw [hwork] at hw
    obtain ⟨⟨hnode, hpending⟩, houter⟩ := List.forall_mem_cons.mp hw
    cases hc : (w.consume frame.node frame.pending).2 with
    | none =>
      rw [show w.consume frame.node frame.pending = (_, none) from Prod.ext rfl hc]
      unfold Inside
      rw [leave_work]
      exact houter
    | some next =>
      obtain ⟨target, rest⟩ := next
      rw [show w.consume frame.node frame.pending = (_, some (target, rest)) from Prod.ext rfl hc]
      have hsub := (consume_suffix hc).subset
      have htarget := hpending target (hsub List.mem_cons_self)
      refine List.forall_mem_cons.mpr ⟨⟨htarget, fun v hv => (Graph.occurs_of_edge hv).2⟩, ?_⟩
      refine List.forall_mem_cons.mpr ⟨⟨hnode, fun v hv => ?_⟩, houter⟩
      exact hpending v (hsub (List.mem_cons_of_mem _ hv))

theorem step_later (hext : h.Extends g extra) (hw : w.Inside g) :
    (w.later extra).step h = (w.step g).later extra := by
  have hwork : (w.later extra).work = w.work := rfl
  unfold step
  rw [hwork]
  cases hframes : w.work with
  | nil => rfl
  | cons frame outer =>
    dsimp only
    unfold Inside at hw
    rw [hframes] at hw
    obtain ⟨⟨hnode, hpending⟩, -⟩ := List.forall_mem_cons.mp hw
    rw [consume_later hext hpending]
    cases hc : (w.consume frame.node frame.pending).2 with
    | none =>
      rw [show w.consume frame.node frame.pending = (_, none) from Prod.ext rfl hc]
      exact leave_later hext hnode outer
    | some next =>
      obtain ⟨target, rest⟩ := next
      rw [show w.consume frame.node frame.pending = (_, some (target, rest)) from Prod.ext rfl hc]
      have hunvisited := mem_unvisited_of_consume hc
      rw [← consume_unvisited w frame.node frame.pending] at hunvisited
      have hmem := (consume_suffix hc).subset List.mem_cons_self
      exact enter_later (w := { (w.consume frame.node frame.pending).1 with
        work := ⟨frame.node, rest⟩ :: outer }) hext hunvisited (hpending target hmem)

theorem run_later (hext : h.Extends g extra) (hw : w.Inside g) :
    (w.later extra).run h = (w.run g).later extra := by
  induction hn : w.weight using Nat.strongRecOn generalizing w with
  | ind n ih =>
    have hsame : (w.later extra).work = w.work := rfl
    rw [run, run.eq_def g]
    by_cases hwork : w.work = []
    · rw [dif_pos (hsame.trans hwork), dif_pos hwork]
    · rw [dif_neg (hsame ▸ hwork), dif_neg hwork, step_later hext hw]
      exact ih _ (hn ▸ step_weight_lt g w hwork) hw.step rfl

theorem visit_later (hext : h.Extends g extra) (hw : w.work = []) (hv : g.Occurs v) :
    (w.later extra).visit h v = (w.visit g v).later extra := by
  unfold visit
  simp only [mem_unvisited_later hext hv]
  split
  · rename_i hunvisited
    rw [enter_later hext hunvisited hv]
    refine run_later hext ?_
    unfold Inside enter
    rw [hw]
    refine List.forall_mem_cons.mpr ⟨⟨hv, fun u hu => (Graph.occurs_of_edge hu).2⟩, nofun⟩
  · rfl

theorem visit_work (hw : w.work = []) (v : α) : (w.visit g v).work = [] := by
  unfold visit
  split
  · exact run_work g _
  · exact hw

theorem visitAll_later (hext : h.Extends g extra) (hw : w.work = []) {nodes : List α}
    (hnodes : ∀ v ∈ nodes, g.Occurs v) :
    nodes.foldl (visit h) (w.later extra) = (nodes.foldl (visit g) w).later extra := by
  induction nodes generalizing w with
  | nil => rfl
  | cons v nodes ih =>
    obtain ⟨hv, hnodes⟩ := List.forall_mem_cons.mp hnodes
    rw [List.foldl_cons, List.foldl_cons, visit_later hext hw hv]
    exact ih (visit_work hw v) hnodes

/-! ### The order grows -/

theorem consume_order (w : Walk α) (node : α) (pending : List α) :
    (w.consume node pending).1.order = w.order := by
  induction pending generalizing w with
  | nil => rfl
  | cons target rest ih =>
    unfold consume
    split
    · rfl
    · split
      · exact ih _
      · exact ih _

theorem order_prefix_closeComponent {order : List α} (horder : w.order = order) (root : α) :
    order <+: (w.closeComponent g root).order := by
  subst horder
  unfold closeComponent
  dsimp only
  split
  · exact List.prefix_refl _
  · split
    · exact List.prefix_refl _
    · exact List.prefix_append _ _

theorem order_prefix_leave (w : Walk α) (node : α) (outer : List (Frame α)) :
    w.order <+: (w.leave g node outer).order := by
  unfold leave
  cases outer with
  | nil =>
    dsimp only
    split
    · refine order_prefix_closeComponent ?_ node
      rfl
    · exact List.prefix_refl _
  | cons parent outer =>
    dsimp only
    split
    · refine order_prefix_closeComponent ?_ node
      rfl
    · exact List.prefix_refl _

theorem order_prefix_step (w : Walk α) : w.order <+: (w.step g).order := by
  unfold step
  cases w.work with
  | nil => exact List.prefix_refl _
  | cons frame outer =>
    have horder := consume_order w frame.node frame.pending
    dsimp only
    generalize w.consume frame.node frame.pending = r at horder ⊢
    obtain ⟨w', _ | ⟨target, rest⟩⟩ := r
    · dsimp only at horder ⊢
      rw [← horder]
      exact order_prefix_leave _ _ _
    · dsimp only at horder ⊢
      rw [← horder]
      exact List.prefix_refl _

theorem order_prefix_run (w : Walk α) : w.order <+: (w.run g).order := by
  obtain ⟨n, -, hn⟩ := exists_run_eq_iterate g w
  rw [hn]
  clear hn
  induction n generalizing w with
  | zero => exact List.prefix_refl _
  | succ n ih => exact (order_prefix_step w).trans (ih (w.step g))

theorem order_prefix_visit (w : Walk α) (v : α) : w.order <+: (w.visit g v).order := by
  unfold visit
  split
  · exact order_prefix_run (g := g) (w.enter g v)
  · exact List.prefix_refl _

theorem order_prefix_visitAll (w : Walk α) (nodes : List α) :
    w.order <+: (nodes.foldl (visit g) w).order := by
  induction nodes generalizing w with
  | nil => exact List.prefix_refl _
  | cons v nodes ih => exact (order_prefix_visit w v).trans (ih _)

end Walk

namespace Graph

/-! ### One more source -/

section

variable {ts : List α}

theorem targets_append {u : α} (hu : u ≠ v) : targets (g ++ [(v, ts)]) u = g.targets u := by
  unfold targets
  rw [Table.get?_append, Table.get?, if_neg hu.symm, Table.get?, Option.or_none]

variable (hv : ¬ g.Occurs v)

include hv

theorem targets_append_self : targets (g ++ [(v, ts)]) v = ts := by
  have hnone : Table.get? g v = none := by
    rw [Table.get?_eq_none_iff]
    intro hm
    obtain ⟨p, hp, rfl⟩ := List.mem_map.mp hm
    exact hv ⟨p, hp, Or.inl rfl⟩
  unfold targets
  rw [Table.get?_append, hnone, Table.get?, if_pos rfl]
  rfl

theorem edge_append {u x : α} (h : g.Edge u x) : Edge (g ++ [(v, ts)]) u x := by
  have hu : u ≠ v := fun he => hv (he ▸ (occurs_of_edge h).1)
  unfold Edge
  rw [targets_append hu]
  exact h

theorem exists_nodes_append :
    ∃ extra, nodes (g ++ [(v, ts)]) = g.nodes ++ extra ∧ Extends (g ++ [(v, ts)]) g extra := by
  refine ⟨((v :: ts).removeAll (g.flatMap fun p => p.1 :: p.2)).eraseDups, ?_, ?_, ?_⟩
  · unfold nodes
    rw [List.flatMap_append, List.eraseDups_append, List.flatMap_singleton]
  · intro u hu
    exact targets_append fun he => hv (he ▸ hu)
  · intro u hu hoccurs
    have hnew := (List.mem_filter.mp (List.mem_eraseDups.mp hu)).2
    rw [← mem_nodes, nodes, List.mem_eraseDups] at hoccurs
    simp [hoccurs] at hnew

/-- The order of a graph goes on behind its nodes with one more source. -/
theorem order_append {order longer : List α} (h : g.findCycles.order = some order)
    (hlonger : (findCycles (g ++ [(v, ts)])).order = some longer) :
    ∃ tail, longer = order ++ tail := by
  obtain ⟨extra, hnodes, hext⟩ : ∃ extra, nodes (g ++ [(v, ts)]) = g.nodes ++ extra ∧
      Extends (g ++ [(v, ts)]) g extra := exists_nodes_append hv
  obtain ⟨-, rfl⟩ := order_eq_some_iff.mp h
  obtain ⟨-, rfl⟩ := order_eq_some_iff.mp hlonger
  have hwalk : finalWalk (g ++ [(v, ts)]) =
      extra.foldl (Walk.visit (g ++ [(v, ts)])) (g.finalWalk.later extra) := by
    unfold finalWalk
    rw [hnodes, List.foldl_append]
    exact congrArg (extra.foldl _) (Walk.visitAll_later (w := Walk.start g.nodes) hext rfl
      fun u hu => mem_nodes.mp hu)
  obtain ⟨tail, htail⟩ := Walk.order_prefix_visitAll (g := g ++ [(v, ts)])
    (g.finalWalk.later extra) extra
  exact ⟨tail, by rw [hwalk, ← htail]; rfl⟩

theorem order_append_of_none (h : g.findCycles.order = none) :
    (findCycles (g ++ [(v, ts)])).order = none := by
  rw [← Option.not_isSome_iff_eq_none, order_isSome_iff] at h ⊢
  exact fun hall => h fun u hu =>
    hall u (Relation.TransGen.lift id (fun _ _ => edge_append hv) u u hu)

theorem order_append_of_self (hself : v ∈ ts) : (findCycles (g ++ [(v, ts)])).order = none := by
  rw [← Option.not_isSome_iff_eq_none, order_isSome_iff]
  refine fun hall => hall v (.single ?_)
  unfold Edge
  rw [targets_append_self hv]
  exact hself

/-- A source that no node has for a target is on no cycle. -/
theorem isSome_order_append (hself : v ∉ ts) (h : g.findCycles.order.isSome) :
    (findCycles (g ++ [(v, ts)])).order.isSome := by
  rw [order_isSome_iff] at h ⊢
  have hedge : ∀ u x, Edge (g ++ [(v, ts)]) u x → x ≠ v ∧ (u ≠ v → g.Edge u x) := by
    intro u x he
    unfold Edge at he
    by_cases hu : u = v
    · rw [hu, targets_append_self hv] at he
      exact ⟨fun hx => hself (hx ▸ he), fun hne => absurd hu hne⟩
    · rw [targets_append hu] at he
      exact ⟨fun hx => hv (hx ▸ (occurs_of_edge he).2), fun _ => he⟩
  intro u hu
  -- Each node on the way has an edge to it, so it is not the new source.
  have hleads : ∀ x, u ≠ v → Leads (g ++ [(v, ts)]) u x → x ≠ v ∧ g.Leads u x := by
    intro x hne hx
    induction hx with
    | single he => exact ⟨(hedge _ _ he).1, .single ((hedge _ _ he).2 hne)⟩
    | tail _ he ih => exact ⟨(hedge _ _ he).1, ih.2.tail ((hedge _ _ he).2 ih.1)⟩
  have hne : u ≠ v := by
    obtain ⟨x, -, he⟩ := Relation.TransGen.tail'_iff.mp hu
    exact (hedge x u he).1
  exact h u (hleads u hne hu).2

end

end Graph

end DesignTokens
