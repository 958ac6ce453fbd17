import DesignTokens.Proofs.Reference.Wording
import DesignTokens.Proofs.Value.Integers

/-!
# Values whose integers have numerals

Only an integer without a numeral keeps a value from being put into a text for good.  Where all
integers have numerals, the same is true of what aliases are replaced by, and whatever goes wrong
has a cause that is collected (`Value.HasNumerals.failsOnly_textForm`).
-/

namespace DesignTokens

/-- An obstacle that is collected and does not end the work. -/
def Obstacle.IsCause : Obstacle → Prop
  | cause _ => True
  | numeral _ => False

theorem Group.meaning_isCause (g : Group) (path : String) :
    FailsOnly Obstacle.IsCause (g.meaning path) := by
  unfold meaning
  split
  · exact .ok _
  · exact .error trivial

namespace Value

/-- Whether every integer in a value has a numeral. -/
def HasNumerals (v : Value) : Prop := ∀ n ∈ v.integers, isWritable n = true

instance (v : Value) : Decidable v.HasNumerals := by
  unfold HasNumerals
  infer_instance

variable {v w : Value} {meaning : String → Except Obstacle Value}

theorem HasNumerals.of_subset (hv : v.HasNumerals) (h : w.integers ⊆ v.integers) :
    w.HasNumerals := fun n hn => hv n (h hn)

theorem hasNumerals_list {items : List Value} :
    (Value.list items).HasNumerals ↔ ∀ v ∈ items, v.HasNumerals :=
  ⟨fun h v hm => h.of_subset (integers_item_subset hm), fun h n hn => by
    obtain ⟨v, hm, hv⟩ := mem_integers_list.mp hn
    exact h v hm n hv⟩

theorem hasNumerals_object {members : List (String × Value)} :
    (Value.object members).HasNumerals ↔ ∀ m ∈ members, m.2.HasNumerals :=
  ⟨fun h m hm => h.of_subset (integers_member_subset hm), fun h n hn => by
    obtain ⟨m, hm, hv⟩ := mem_integers_object.mp hn
    exact h m hm n hv⟩

theorem HasNumerals.descend {raw : String} {segments : List String} (hv : v.HasNumerals)
    (h : Pointer.descend raw v segments = .ok (.ok w)) : w.HasNumerals :=
  Pointer.of_descend (P := HasNumerals) hasNumerals_list.mp hasNumerals_object.mp hv h

theorem HasNumerals.failsOnly_textForm (hv : v.HasNumerals) :
    FailsOnly Obstacle.IsCause v.textForm := by
  cases v with
  | int n =>
    rw [textForm, if_pos (hv n List.mem_cons_self)]
    exact .ok _
  | bool _ | text _ | real _ => exact .ok _
  | null | list _ | object _ => exact .error trivial

/-- What such values are put into has integers with numerals only. -/
theorem HasNumerals.substitute (hv : v.HasNumerals)
    (hmeaning : ∀ path x, meaning path = .ok x → x.HasNumerals)
    (h : v.substitute meaning = .ok w) : w.HasNumerals := by
  induction v using inductionOn generalizing w with
  | text s =>
    rw [Value.substitute] at h
    split at h
    · exact hmeaning _ w h
    · obtain ⟨out, -, rfl⟩ := map_eq_ok.mp h
      exact fun n hn => absurd hn List.not_mem_nil
  | list items ih =>
    obtain ⟨results, hresults, rfl⟩ := substitute_list_eq_ok.mp h
    refine hasNumerals_list.mpr fun w hw => ?_
    obtain ⟨v, hm, hvw⟩ := exists_mem_of_forall₂ hresults hw
    exact ih v hm (hasNumerals_list.mp hv v hm) hvw
  | object members ih =>
    obtain ⟨results, hresults, rfl⟩ := substitute_object_eq_ok.mp h
    refine hasNumerals_object.mpr fun n hn => ?_
    obtain ⟨m, hm, -, hmn⟩ := exists_mem_of_forall₂ hresults hn
    exact ih m hm (hasNumerals_object.mp hv m hm) hmn
  | _ => exact Except.ok.inj h ▸ hv

end Value

/-- A token with numerals for all integers in its value and in what it was resolved to. -/
structure Token.HasNumerals (t : Token) : Prop where
  value : t.value.HasNumerals
  resolvedValue : t.resolvedValue.HasNumerals

theorem Value.hasNumerals_null : Value.null.HasNumerals := fun _ hn => absurd hn List.not_mem_nil

theorem Token.hasNumerals_assembled {t : Token} {value : Value} (h : value.HasNumerals) :
    (t.assembled value).HasNumerals := by
  refine ⟨h, ?_⟩
  unfold Token.assembled
  dsimp only
  split
  · exact h
  · exact Value.hasNumerals_null

theorem Token.hasNumerals_build {name path : String} {members : Table String Value}
    {parentPath inherited : Option String}
    (h : (Token.build name path members parentPath inherited).value.HasNumerals) :
    (Token.build name path members parentPath inherited).HasNumerals := by
  refine ⟨h, ?_⟩
  unfold Token.build
  dsimp only
  split
  · exact h
  · exact Value.hasNumerals_null

end DesignTokens
