import DesignTokens.Proofs.Assembly.Trees
import DesignTokens.Proofs.Token.DocumentOrder
import DesignTokens.Proofs.Text.Joining

/-!
# Pointers that are written and read

The keys of a place may contain dots, slashes, tildes and the sign `#`.  A pointer that is written
from them is read as the same file and the same keys (`Pointer.parse_write`), since no slash is left
in a key that was escaped and the first sign `#` is the one behind the file.  An empty key cannot be
written, and neither can an empty name of a file or one with the sign `#`.

The tree of a document has the tokens of the document where they stand in it
(`Group.exists_tokenAt?_build`).  So the pointer from the keys of a token leads to it, and what is
written behind `$value` is left for its value (`Group.ledTo_written`).
-/

namespace DesignTokens

namespace Pointer

variable {file : Option String} {segments : List String}

/-! ### Keys -/

theorem not_mem_escape (key : List Char) : '/' ∉ escape key := by
  induction key with
  | nil => exact List.not_mem_nil
  | cons c rest ih =>
    by_cases ht : c = '~'
    · simp [escape, ht, ih]
    · by_cases hs : c = '/'
      · simp [escape, hs, ih]
      · simp [escape, ht, hs, ih, Ne.symm hs]

/-- Two characters replaced by one wherever they stand, from the front on. -/
def replacePair (first second new : Char) : List Char → List Char
  | a :: b :: rest =>
    if a = first ∧ b = second then new :: replacePair first second new rest
    else a :: replacePair first second new (b :: rest)
  | cs => cs

theorem replacePair_cons {first second new a : Char} {cs : List Char}
    (h : a = first → cs.head? ≠ some second) :
    replacePair first second new (a :: cs) = a :: replacePair first second new cs := by
  cases cs with
  | nil => rfl
  | cons b cs =>
    rw [replacePair, if_neg]
    rintro ⟨ha, rfl⟩
    exact h ha rfl

theorem head?_replacePair {first second new a : Char} {cs : List Char}
    (h : (replacePair first second new cs).head? = some a) : a = new ∨ cs.head? = some a := by
  match cs with
  | [] => cases h
  | [b] => exact Or.inr h
  | b :: c :: rest =>
    rw [replacePair] at h
    split at h
    · exact Or.inl (Option.some.inj h).symm
    · exact Or.inr h

/-- Slashes are brought back first and tildes after that.  The second replacement sees nothing that
the first one made. -/
theorem unescape_eq_replacePair (cs : List Char) :
    unescape cs = replacePair '~' '0' '~' (replacePair '~' '1' '/' cs) := by
  fun_induction unescape cs with
  | case1 rest ih =>
    rw [replacePair, if_pos ⟨rfl, rfl⟩, replacePair_cons (fun h => absurd h (by decide)), ih]
  | case2 rest ih =>
    rw [replacePair_cons (fun _ => by simp),
      replacePair_cons (a := '0') (fun h => absurd h (by decide)),
      replacePair, if_pos ⟨rfl, rfl⟩, ih]
  | case3 c rest hslash htilde ih =>
    have hnext : ∀ digit, c = '~' → rest.head? = some digit → digit ≠ '1' ∧ digit ≠ '0' := by
      intro digit hc hdigit
      obtain ⟨more, rfl⟩ := List.head?_eq_some_iff.mp hdigit
      exact ⟨fun he => hslash more hc (he ▸ rfl), fun he => htilde more hc (he ▸ rfl)⟩
    rw [replacePair_cons fun hc he => (hnext _ hc he).1 rfl, replacePair_cons, ih]
    intro hc he
    rcases head?_replacePair he with he | he
    · exact absurd he (by decide)
    · exact (hnext _ hc he).2 rfl
  | case4 => rfl

/-! ### Texts -/

/-- The names of files that can be written in front of the keys. -/
def Nameable (file : Option String) : Prop := ∀ name ∈ file, name ≠ "" ∧ '#' ∉ name.toList

theorem map_unescape_splitOn (hne : segments ≠ []) :
    (Text.splitOn '/' (Text.joinOn '/' (segments.map fun s => escape s.toList))).map unescape =
      segments.map String.toList := by
  rw [Text.splitOn_joinOn '/' (by simpa using hne)]
  · simp [Function.comp_def, unescape_escape]
  · intro part hpart
    obtain ⟨s, -, rfl⟩ := List.mem_map.mp hpart
    exact not_mem_escape _

theorem joinOn_escape_ne_nil (hne : segments ≠ []) (hkeys : ∀ key ∈ segments, key ≠ "") :
    Text.joinOn '/' (segments.map fun s => escape s.toList) ≠ [] := by
  intro hnil
  have hread := map_unescape_splitOn hne
  rw [hnil] at hread
  cases segments with
  | nil => exact hne rfl
  | cons key rest =>
    obtain ⟨hkey, -⟩ := List.cons.inj hread
    exact hkeys key List.mem_cons_self (String.toList_eq_nil_iff.mp hkey.symm)

theorem cut_write (hfile : Nameable file) (segments : List String) :
    Text.cut '#' (write file segments).toList = ((file.getD "").toList,
      some ('/' :: Text.joinOn '/' (segments.map fun s => escape s.toList))) := by
  have hsign : '#' ∉ (file.getD "").toList := by
    cases file with
    | none => exact List.not_mem_nil
    | some name => exact (hfile name rfl).2
  have htext : (write file segments).toList = (file.getD "").toList ++
      '#' :: '/' :: Text.joinOn '/' (segments.map fun s => escape s.toList) := by
    simp [write]
  rw [htext, Text.cut_append '#' _ hsign]

/-- **What was written is read again**: the file and the keys of a pointer come back from its
text. -/
theorem parse_write (hfile : Nameable file) (hne : segments ≠ [])
    (hkeys : ∀ key ∈ segments, key ≠ "") :
    parse (write file segments) = .ok ⟨write file segments, file, segments⟩ := by
  obtain ⟨c, cs, hjoined⟩ := List.exists_cons_of_ne_nil (joinOn_escape_ne_nil hne hkeys)
  have hcut := cut_write hfile segments
  have hread := map_unescape_splitOn hne
  rw [hjoined] at hcut hread
  have hname : (if (file.getD "").toList.isEmpty then none
      else some (String.ofList (file.getD "").toList)) = file := by
    cases file with
    | none => rfl
    | some name => simp [(hfile name rfl).1]
  unfold parse
  simp only [hcut, hread, hname]
  rw [if_neg]
  · simp
  · simpa using fun h => hkeys "" h rfl

end Pointer

/-! ### Tokens of a document -/

theorem Node.BuiltOf.exists_token {members : Table String Value} {value : Value}
    {path parentPath : String} {m : Node} (h : m.BuiltOf (.object members) path parentPath)
    (hvalue : members.get? valueKey = some value) : ∃ t, m = .token t ∧ t.value = value := by
  obtain ⟨key, inherited, h⟩ := h
  rw [build?, if_pos (by simp [Table.has, hvalue])] at h
  exact ⟨_, (Option.some.inj h).symm, by simp [Token.build, hvalue]⟩

/-- Below a document stands a token with a value: an object that has the value, and no token on the
way to it. -/
structure Value.TokenBelow (document : Value) (place : Place) (value : Value) : Prop where
  ne_nil : place ≠ []
  found : ∃ members : Table String Value,
    document.memberAt? place = some (.object members) ∧ members.get? valueKey = some value
  way : document.LeadsThroughGroups place

namespace Group

variable {document value : Value} {place : Place} {file : Option String} {t : Token}

theorem exists_tokenAt?_build (hkeys : document.KeysDistinct)
    (h : document.TokenBelow place value) :
    ∃ t, (build document).tokenAt? place = some t ∧ t.value = value := by
  obtain ⟨members, hx, hvalue⟩ := h.found
  obtain ⟨m, _, _, hat, hbuilt⟩ := exists_at?_of_memberAt? hkeys "" none none h.ne_nil hx rfl h.way
  obtain ⟨t, rfl, ht⟩ := hbuilt.exists_token hvalue
  exact ⟨t, congrArg (Option.bind · Node.token?) hat, ht⟩

variable {tree : Group} {p : Pointer} {rest : List String}

theorem target_place (ht : tree.tokenAt? place = some t) (hp : p.segments = place) :
    p.target tree = .ok (place, t, []) :=
  Pointer.walk_eq_ok_iff.mpr ⟨place, rfl, ht, Or.inl ⟨hp, rfl⟩⟩

theorem target_below (ht : tree.tokenAt? place = some t)
    (hp : p.segments = place ++ valueKey :: rest) : p.target tree = .ok (place, t, rest) :=
  Pointer.walk_eq_ok_iff.mpr ⟨place, rfl, ht, Or.inr hp⟩

/-- A text is a pointer that leads to the token at a place, with some segments left for its
value. -/
def LedTo (tree : Group) (ref : String) (place : Place) (t : Token) (rest : List String) : Prop :=
  ∃ p, Pointer.parse ref = .ok p ∧ p.target tree = .ok (place, t, rest)

theorem ledTo_place (ht : tree.tokenAt? place = some t) (hne : place ≠ [])
    (hkeys : ∀ key ∈ place, key ≠ "") (hfile : Pointer.Nameable file) :
    tree.LedTo (Pointer.write file place) place t [] :=
  ⟨_, Pointer.parse_write hfile hne hkeys, target_place ht rfl⟩

theorem ledTo_below (ht : tree.tokenAt? place = some t) (hkeys : ∀ key ∈ place, key ≠ "")
    (hfile : Pointer.Nameable file) (hrest : ∀ key ∈ rest, key ≠ "") :
    tree.LedTo (Pointer.write file (place ++ valueKey :: rest)) place t rest := by
  refine ⟨_, Pointer.parse_write hfile (by simp) fun key hkey => ?_, target_below ht rfl⟩
  rcases List.mem_append.mp hkey with hkey | hkey
  · exact hkeys key hkey
  · rcases List.mem_cons.mp hkey with rfl | hkey
    · decide
    · exact hrest key hkey

/-- **Pointers lead where they were written to**.  The text of a pointer is read as its file and its
keys.  Every token of a document stands in its tree, and a pointer with the keys of a token leads
to that token; what stands behind `$value` is left for its value. -/
theorem ledTo_written :
    (∀ file segments, Pointer.Nameable file → segments ≠ [] → (∀ key ∈ segments, key ≠ "") →
      Pointer.parse (Pointer.write file segments) =
        .ok ⟨Pointer.write file segments, file, segments⟩) ∧
      ∀ document : Value, document.KeysDistinct →
        (∀ place value, document.TokenBelow place value →
          ∃ t, (place, t) ∈ (build document).placedTokens ∧ t.value = value) ∧
        ∀ place t, (place, t) ∈ (build document).placedTokens →
          (∀ p : Pointer, p.segments = place → p.target (build document) = .ok (place, t, [])) ∧
          (∀ (p : Pointer) rest, p.segments = place ++ valueKey :: rest →
            p.target (build document) = .ok (place, t, rest)) ∧
          ((∀ key ∈ place, key ≠ "") → ∀ file, Pointer.Nameable file →
            (build document).LedTo (Pointer.write file place) place t [] ∧
              ∀ rest, (∀ key ∈ rest, key ≠ "") →
                (build document).LedTo (Pointer.write file (place ++ valueKey :: rest)) place t
                  rest) := by
  refine ⟨fun file segments => Pointer.parse_write, fun document hdistinct => ⟨?_, ?_⟩⟩
  · intro place value hbelow
    obtain ⟨t, ht, hvalue⟩ := exists_tokenAt?_build hdistinct hbelow
    exact ⟨t, mem_placedTokens_of_tokenAt? ht, hvalue⟩
  · intro place t hmem
    have ht := (mem_placedTokens_iff (keysDistinct_build hdistinct)).mp hmem
    have hne : place ≠ [] := by
      rintro rfl
      cases ht
    exact ⟨fun p => target_place ht, fun p rest => target_below ht, fun hkeys file hfile =>
      ⟨ledTo_place ht hne hkeys hfile, fun rest => ledTo_below ht hkeys hfile⟩⟩

def markedKeys : Value :=
  .object [("a.b", .object [("~1", .object [("#/c", .object [(valueKey,
    .object [("x/y", .list [.int 3])])])])]), ("d", .object [(valueKey, .int 4)])]

theorem ledTo_written_markedKeys :
    markedKeys.KeysDistinct ∧
      markedKeys.TokenBelow ["a.b", "~1", "#/c"] (.object [("x/y", .list [.int 3])]) ∧
      Pointer.Nameable (some "colors.json") ∧
      Pointer.parse "colors.json#/a.b/~01/#~1c" =
        .ok ⟨"colors.json#/a.b/~01/#~1c", some "colors.json", ["a.b", "~1", "#/c"]⟩ ∧
      ∃ t, (["a.b", "~1", "#/c"], t) ∈ (build markedKeys).placedTokens ∧
        t.value = .object [("x/y", .list [.int 3])] ∧
        (build markedKeys).LedTo "colors.json#/a.b/~01/#~1c" ["a.b", "~1", "#/c"] t [] ∧
        (build markedKeys).LedTo "#/a.b/~01/#~1c/$value/x~1y/0" ["a.b", "~1", "#/c"] t
          ["x/y", "0"] := by
  have hdistinct : markedKeys.KeysDistinct := by decide +kernel
  have hbelow : markedKeys.TokenBelow ["a.b", "~1", "#/c"] (.object [("x/y", .list [.int 3])]) :=
    ⟨by simp, ⟨_, rfl, rfl⟩, by decide +kernel⟩
  have hfile : Pointer.Nameable (some "colors.json") := by
    rintro name ⟨⟩
    decide
  obtain ⟨hbuilt, hled⟩ := ledTo_written.2 markedKeys hdistinct
  obtain ⟨t, hmem, hvalue⟩ := hbuilt _ _ hbelow
  have hwritten := (hled _ t hmem).2.2 (by decide)
  have hread := ledTo_written.1 _ ["a.b", "~1", "#/c"] hfile (by decide) (by decide)
  exact ⟨hdistinct, hbelow, hfile, hread, t, hmem, hvalue, (hwritten _ hfile).1,
    (hwritten none nofun).2 ["x/y", "0"] (by decide)⟩

end Group

end DesignTokens
