import DesignTokens.Reference.Assembly

/-!
# Steps that keep an invariant

`Keeps I m Q E` says of a step of an assembly that it keeps the invariant `I` of the
state, also when the work ends with it, that what it returns has the property `Q`, and
that `E` holds of a fault at which it ends the work.  There is one lemma for each way
in which steps are put together.
-/

namespace DesignTokens.Assembly

variable {I : Assembly → Prop} {α β : Type} {m : AssemblyM α} {Q : α → Prop}
  {E : NumeralFault → Prop} {s : Assembly}

/-- What a step has come to: the state has an invariant, the result a property, and a fault that
ends the work another. -/
structure Leaves (I : Assembly → Prop) (Q : α → Prop) (E : NumeralFault → Prop)
    (out : Except NumeralFault α × Assembly) : Prop where
  kept : I out.2
  result : ∀ a, out.1 = .ok a → Q a
  fault : ∀ e, out.1 = .error e → E e

theorem leaves_ok {a : α} (hs : I s) (ha : Q a) : Leaves I Q E (.ok a, s) where
  kept := hs
  result := by
    intro b hb
    cases hb
    exact ha
  fault := nofun

theorem leaves_error {e : NumeralFault} (hs : I s) (he : E e) : Leaves I Q E (.error e, s) where
  kept := hs
  result := nofun
  fault := by
    intro e' he'
    cases he'
    exact he

/-- A step that keeps an invariant and returns what has a property.  Unless something is asked of
it, any fault may end the work. -/
def Keeps (I : Assembly → Prop) (m : AssemblyM α) (Q : α → Prop)
    (E : NumeralFault → Prop := fun _ => True) : Prop :=
  ∀ s, I s → Leaves I Q E (m.run.run s)

namespace Keeps

theorem imp {R : α → Prop} (h : Keeps I m Q E) (hQ : ∀ a, Q a → R a) : Keeps I m R E :=
  fun s hs => ⟨(h s hs).kept, fun a ha => hQ a ((h s hs).result a ha), (h s hs).fault⟩

theorem pure {a : α} (h : Q a) : Keeps I (Pure.pure a : AssemblyM α) Q E :=
  fun _ hs => leaves_ok hs h

theorem throw {e : NumeralFault} (h : E e) : Keeps I (throw e : AssemblyM α) Q E :=
  fun _ hs => leaves_error hs h

/-- What is known of the state at hand is enough for the first of two steps. -/
theorem bind_at {next : α → AssemblyM β} {R : β → Prop} (hm : Leaves I Q E (m.run.run s))
    (hnext : ∀ a, Q a → Keeps I (next a) R E) : Leaves I R E ((m >>= next).run.run s) := by
  have hrun : ((m >>= next).run.run s) =
      match m.run.run s with
      | (.ok a, t) => (next a).run.run t
      | (.error e, t) => (.error e, t) := by
    rw [ExceptT.run_bind, StateT.run_bind]
    generalize m.run.run s = r
    obtain ⟨e | a, t⟩ := r
    · rfl
    · rfl
  rw [hrun]
  generalize m.run.run s = r at hm ⊢
  obtain ⟨e | a, t⟩ := r
  · refine ⟨hm.kept, nofun, fun e' he => hm.fault e' ?_⟩
    cases he
    rfl
  · exact hnext a (hm.result a rfl) t hm.kept

theorem bind {next : α → AssemblyM β} {R : β → Prop} (hm : Keeps I m Q E)
    (hnext : ∀ a, Q a → Keeps I (next a) R E) : Keeps I (m >>= next) R E :=
  fun s hs => bind_at (hm s hs) hnext

theorem get : Keeps I (MonadState.get : AssemblyM Assembly) I E :=
  fun _ hs => leaves_ok hs hs

theorem set {s : Assembly} (h : I s) :
    Keeps I (MonadStateOf.set s : AssemblyM PUnit) (fun _ => True) E :=
  fun _ _ => leaves_ok h trivial

theorem modify {f : Assembly → Assembly} (h : ∀ s, I s → I (f s)) :
    Keeps I (modify f : AssemblyM PUnit) (fun _ => True) E :=
  fun s hs => leaves_ok (h s hs) trivial

end Keeps

end DesignTokens.Assembly
