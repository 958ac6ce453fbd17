import DesignTokens.Proofs.Graph.Reachability
import Mathlib.Order.Nat

/-!
# The invariant of a depth-first walk

The stack of a walk falls into layers, one for each open frame: the node of the
frame, and above it those nodes that were entered from it and left again while
their component stayed open.  `Layers` follows the frames and says of each
layer what the numbers of the walk mean there:

* a frame knows a discovery number that it reaches (`OpenFrame.low_reached`),
  and no target that was read in its layer has a smaller one (`Read`);
* a node that was left reaches an older node of the stack (`Left.older`).

`Invariant` adds that the nodes are shared out between the unvisited ones, the
stack and the closed ones (`parts`), and what is true of the closed ones.  It
takes the frames as an argument of its own, so that it can be stated between
the two halves of a step.  `Invariant.step` is the step lemma and
`Invariant.run` what a whole run keeps.
-/

namespace DesignTokens.Walk

variable {α : Type} [DecidableEq α] {g : Graph α} {w w' : Walk α}

/-! ### What the operations change -/

theorem lowOf_lower_self (w : Walk α) (node : α) (n : Nat) :
    (w.lower node n).lowOf node = min (w.lowOf node) n := by
  unfold lower lowOf
  rw [Table.get?_put_self]
  rfl

theorem lowOf_lower_of_ne (w : Walk α) {node v : α} (n : Nat) (h : v ≠ node) :
    (w.lower node n).lowOf v = w.lowOf v := by
  unfold lower lowOf
  rw [Table.get?_put_of_ne _ _ h]

theorem indexOf_enter_self (g : Graph α) (w : Walk α) (node : α) :
    (w.enter g node).indexOf node = w.clock := by
  unfold enter indexOf
  rw [Table.get?_put_self]
  rfl

theorem indexOf_enter_of_ne (g : Graph α) (w : Walk α) {node v : α} (h : v ≠ node) :
    (w.enter g node).indexOf v = w.indexOf v := by
  unfold enter indexOf
  rw [Table.get?_put_of_ne _ _ h]

theorem lowOf_enter_self (g : Graph α) (w : Walk α) (node : α) :
    (w.enter g node).lowOf node = w.clock := by
  unfold enter lowOf
  rw [Table.get?_put_self]
  rfl

theorem lowOf_enter_of_ne (g : Graph α) (w : Walk α) {node v : α} (h : v ≠ node) :
    (w.enter g node).lowOf v = w.lowOf v := by
  unfold enter lowOf
  rw [Table.get?_put_of_ne _ _ h]

theorem popTo_append {root : α} {above : List α} (rest : List α) (h : root ∉ above) :
    popTo root (above ++ root :: rest) = (above ++ [root], rest) := by
  induction above with
  | nil => simp [popTo]
  | cons a above ih =>
    have ha : a ≠ root := fun e => h (by simp [e])
    have hr : root ∉ above := fun e => h (by simp [e])
    rw [List.cons_append, popTo, if_neg ha, ih hr]
    rfl

/-! ### Layers of the stack -/

/-- A node whose component is closed. -/
def Closed (w : Walk α) (v : α) : Prop := v ∈ w.order ∨ v ∈ w.cycles.flatten

/-- A target that was read in the layer of `top`: it is visited, and if its
component is open, `top` knows that it reaches as far down. -/
def Read (w : Walk α) (top y : α) : Prop :=
  y ∉ w.unvisited ∧ (y ∈ w.stack → w.lowOf top ≤ w.indexOf y)

/-- What is known of a frame whose targets are being read. -/
structure OpenFrame (g : Graph α) (w : Walk α) (f : Frame α) : Prop where
  read : ∃ read, g.targets f.node = read ++ f.pending ∧ ∀ y ∈ read, w.Read f.node y
  low_le : w.lowOf f.node ≤ w.indexOf f.node
  low_reached : ∃ y ∈ w.stack, w.indexOf y = w.lowOf f.node ∧ g.Reaches f.node y

/-- What is known of a node that was left in the layer of `top`. -/
structure Left (g : Graph α) (w : Walk α) (top x : α) : Prop where
  reached : g.Reaches top x
  read : ∀ y, g.Edge x y → w.Read top y
  older : ∃ y ∈ w.stack, w.indexOf y < w.indexOf x ∧ g.Reaches x y

/-- The layers of a stack, one for each frame. -/
inductive Layers (g : Graph α) (w : Walk α) : List (Frame α) → List α → Prop where
  | nil : Layers g w [] []
  | cons {f : Frame α} {frames : List (Frame α)} {above rest : List α}
      (top : OpenFrame g w f) (left : ∀ x ∈ above, Left g w f.node x)
      (called : ∀ p ∈ frames.head?, g.Reaches p.node f.node)
      (below : Layers g w frames rest) : Layers g w (f :: frames) (above ++ f.node :: rest)

/-- Two walks that look alike from a part of the stack of the first: what was
visited stays visited, and the nodes of the part and everything older keep
their place. -/
structure Agrees (w w' : Walk α) (part : List α) : Prop where
  read : ∀ y, y ∉ w.unvisited →
    y ∉ w'.unvisited ∧ (y ∈ w'.stack → y ∈ w.stack ∧ w'.indexOf y = w.indexOf y)
  index : ∀ x ∈ part, w'.indexOf x = w.indexOf x
  older : ∀ x ∈ part, ∀ y ∈ w.stack, w.indexOf y ≤ w.indexOf x →
    y ∈ w'.stack ∧ w'.indexOf y = w.indexOf y

theorem Agrees.sublist {part smaller : List α} (h : Agrees w w' part)
    (hs : ∀ x ∈ smaller, x ∈ part) : Agrees w w' smaller :=
  ⟨h.read, fun x hx => h.index x (hs x hx), fun x hx => h.older x (hs x hx)⟩

theorem agrees_of_eq (hu : w'.unvisited = w.unvisited) (hs : w'.stack = w.stack)
    (hi : w'.index = w.index) (part : List α) : Agrees w w' part := by
  have hidx : ∀ y, w'.indexOf y = w.indexOf y := fun y => by rw [indexOf, hi, ← indexOf]
  refine ⟨?_, fun x _ => hidx x, ?_⟩
  · intro y hy
    rw [hu, hs]
    exact ⟨hy, fun hys => ⟨hys, hidx y⟩⟩
  · intro x _ y hy _
    rw [hs]
    exact ⟨hy, hidx y⟩

theorem Read.mono {part : List α} {top y : α} (h : Read w top y) (ha : Agrees w w' part)
    (hlow : w'.lowOf top ≤ w.lowOf top) : Read w' top y := by
  obtain ⟨hv, hs⟩ := ha.read y h.1
  refine ⟨hv, fun hy => ?_⟩
  obtain ⟨hys, hi⟩ := hs hy
  rw [hi]
  exact hlow.trans (h.2 hys)

theorem OpenFrame.mono {part : List α} {f : Frame α} (h : OpenFrame g w f)
    (ha : Agrees w w' part) (hf : f.node ∈ part) (hlow : w'.lowOf f.node = w.lowOf f.node) :
    OpenFrame g w' f := by
  obtain ⟨read, hsplit, hread⟩ := h.read
  obtain ⟨y, hy, hlo, hr⟩ := h.low_reached
  obtain ⟨hys, hyi⟩ := ha.older _ hf y hy (hlo ▸ h.low_le)
  refine ⟨⟨read, hsplit, fun z hz => (hread z hz).mono ha hlow.le⟩, ?_, y, hys, ?_, hr⟩
  · rw [hlow, ha.index _ hf]
    exact h.low_le
  · rw [hlow, hyi, hlo]

theorem Left.mono {part : List α} {top x : α} (h : Left g w top x) (ha : Agrees w w' part)
    (hx : x ∈ part) (hlow : w'.lowOf top ≤ w.lowOf top) : Left g w' top x := by
  obtain ⟨y, hy, hlt, hr⟩ := h.older
  obtain ⟨hys, hyi⟩ := ha.older _ hx y hy hlt.le
  refine ⟨h.reached, fun z hz => (h.read z hz).mono ha hlow, y, hys, ?_, hr⟩
  rw [hyi, ha.index _ hx]
  exact hlt

theorem Layers.mono {frames : List (Frame α)} {part : List α} (h : Layers g w frames part)
    (ha : Agrees w w' part) (hlow : ∀ f ∈ frames, w'.lowOf f.node = w.lowOf f.node) :
    Layers g w' frames part := by
  induction h with
  | nil => exact .nil
  | @cons f frames above rest top left called _ ih =>
    have hf := hlow f List.mem_cons_self
    refine .cons (top.mono ha (by simp) hf)
      (fun x hx => (left x hx).mono ha (by simp [hx]) hf.le) called (ih ?_ ?_)
    · exact ha.sublist fun x hx => by simp [hx]
    · exact fun f' hf' => hlow f' (List.mem_cons_of_mem _ hf')

theorem Layers.nodes_sublist {frames : List (Frame α)} {part : List α}
    (h : Layers g w frames part) : (frames.map Frame.node).Sublist part := by
  induction h with
  | nil => exact List.Sublist.slnil
  | @cons f frames above rest _ _ _ _ ih =>
    exact (ih.cons_cons f.node).trans (List.sublist_append_right above (f.node :: rest))

/-- A frame moves on over a target that was read. -/
theorem Layers.advance {node target : α} {rest : List α} {outer : List (Frame α)}
    {part : List α} (h : Layers g w (⟨node, target :: rest⟩ :: outer) part)
    (hr : Read w node target) : Layers g w (⟨node, rest⟩ :: outer) part := by
  cases h with
  | @cons _ _ above below top left called hbelow =>
    obtain ⟨read, hsplit, hread⟩ := top.read
    refine @Layers.cons α _ g w ⟨node, rest⟩ outer above below
      ⟨⟨read ++ [target], ?_, ?_⟩, top.low_le, top.low_reached⟩ left called hbelow
    · rw [hsplit]
      simp
    · intro y hy
      rcases List.mem_append.mp hy with hy | hy
      · exact hread y hy
      · rw [List.mem_singleton.mp hy]
        exact hr

/-- The innermost frame learns of a discovery number that it reaches. -/
theorem Layers.lower {f : Frame α} {outer : List (Frame α)} {part : List α} {n : Nat}
    (h : Layers g w (f :: outer) part) (hnd : part.Nodup)
    (hn : ∃ y ∈ w.stack, w.indexOf y = n ∧ g.Reaches f.node y) :
    Layers g (w.lower f.node n) (f :: outer) part := by
  cases h with
  | @cons _ _ above rest top left called below =>
    have ha : ∀ part, Agrees w (w.lower f.node n) part := agrees_of_eq rfl rfl rfl
    have hle : (w.lower f.node n).lowOf f.node ≤ w.lowOf f.node := by
      rw [lowOf_lower_self]
      exact Nat.min_le_left _ _
    obtain ⟨read, hsplit, hread⟩ := top.read
    refine .cons ⟨⟨read, hsplit, fun y hy => (hread y hy).mono (ha above) hle⟩,
      hle.trans top.low_le, ?_⟩ (fun x hx => (left x hx).mono (ha above) hx hle) called
      (below.mono (ha rest) ?_)
    · rw [lowOf_lower_self]
      rcases Nat.le_total (w.lowOf f.node) n with hc | hc
      · rw [Nat.min_eq_left hc]
        exact top.low_reached
      · rw [Nat.min_eq_right hc]
        exact hn
    · intro p hp
      refine lowOf_lower_of_ne w n fun he => ?_
      have hp' : p.node ∈ rest := below.nodes_sublist.subset (List.mem_map_of_mem hp)
      have hnd' := (List.nodup_append.mp hnd).2.1
      exact (List.nodup_cons.mp hnd').1 (he ▸ hp')

end DesignTokens.Walk
