import DesignTokens.Failure

/-! # Demanded parts of values

Reading a part that has to be there: a value without it ends the reading.  Whoever demands a part
has to know that the value has it (`demandMember_object`).
-/

namespace DesignTokens.Value

/-- The member of an object that has to be there. -/
def demandMember (v : Value) (key : String) : Except Failure Value :=
  match v with
  | .object members =>
    match Table.get? members key with
    | some member => .ok member
    | none => .error (.missingMember key)
  | v => .error (.misused v .record)

/-- The items that a value has to list: a text lists its characters and an object its keys. -/
def demandItems : Value → Except Failure (List Value)
  | .list items => .ok items
  | .text s => .ok (s.toList.map fun c => .text (String.ofList [c]))
  | .object members => .ok (members.map fun p => .text p.1)
  | v => .error (.misused v .collection)

def demandMembers : Value → Except Failure (Table String Value)
  | .object members => .ok members
  | v => .error (.misused v .table)

theorem demandMember_object {members : List (String × Value)} {key : String} {member : Value}
    (h : Table.get? members key = some member) :
    (Value.object members).demandMember key = .ok member := by
  simp [demandMember, h]

end DesignTokens.Value
