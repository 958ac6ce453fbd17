import DesignTokens.Text.Parts

/-! # Options

The arguments of a command are options and operands.  An option of two dashes may carry its value
after an equals sign; options of one dash and one letter may stand together, and what follows a
letter that takes a value is that value.  After two dashes alone there are only operands.
-/

namespace DesignTokens.CommandLine

/-- An option: what it means, how it is written and whether a value follows. -/
structure OptionRule (ι : Type) where
  meaning : ι
  spellings : List String
  takesValue : Bool

/-- An option that was given, with its value if it takes one. -/
structure GivenOption (ι : Type) where
  meaning : ι
  value : String
  deriving Repr

/-- The options and operands that arguments give. -/
structure Given (ι : Type) where
  options : List (GivenOption ι)
  operands : List String
  deriving Repr

/-- What one argument says: options that are complete, and one that waits for the next argument. -/
structure Saying (ι : Type) where
  complete : List (GivenOption ι)
  waiting : Option ι

variable {ι : Type}

def ruleOf? (rules : List (OptionRule ι)) (spelling : String) : Option (OptionRule ι) :=
  rules.find? fun rule => rule.spellings.contains spelling

/-- An option of two dashes, with the value after its equals sign if there is one. -/
def sayLong? (rules : List (OptionRule ι)) (argument : String) : Option (Saying ι) :=
  let (name, value) := Text.cut '=' argument.toList
  (ruleOf? rules (String.ofList name)).bind fun rule =>
    match rule.takesValue, value with
    | true, some value => some ⟨[⟨rule.meaning, String.ofList value⟩], none⟩
    | true, none => some ⟨[], some rule.meaning⟩
    | false, none => some ⟨[⟨rule.meaning, ""⟩], none⟩
    | false, some _ => none

def sayShort? (rules : List (OptionRule ι)) : List Char → Option (Saying ι)
  | [] => some ⟨[], none⟩
  | c :: rest =>
    (ruleOf? rules (String.ofList ['-', c])).bind fun rule =>
      if rule.takesValue then
        if rest.isEmpty then some ⟨[], some rule.meaning⟩
        else some ⟨[⟨rule.meaning, String.ofList rest⟩], none⟩
      else
        (sayShort? rules rest).map fun saying =>
          { saying with complete := ⟨rule.meaning, ""⟩ :: saying.complete }

/-- What an argument says if it begins with a dash and is longer than that. -/
def say? (rules : List (OptionRule ι)) (argument : String) : Option (Saying ι) :=
  match argument.toList with
  | '-' :: '-' :: _ => sayLong? rules argument
  | '-' :: letters => sayShort? rules letters
  | _ => none

def isOption (argument : String) : Bool :=
  match argument.toList with
  | '-' :: _ :: _ => true
  | _ => false

/-- The options and operands of arguments.  Unless they are mixed, options end before the first
operand. -/
def given? (rules : List (OptionRule ι)) (mixed : Bool) : List String → Option (Given ι)
  | [] => some ⟨[], []⟩
  | argument :: rest =>
    if argument = "--" then some ⟨[], rest⟩
    else if isOption argument then
      match say? rules argument, rest with
      | none, _ => none
      | some ⟨complete, none⟩, rest =>
        (given? rules mixed rest).map fun given =>
          { given with options := complete ++ given.options }
      | some ⟨_, some _⟩, [] => none
      | some ⟨complete, some meaning⟩, value :: rest =>
        (given? rules mixed rest).map fun given =>
          { given with options := complete ++ ⟨meaning, value⟩ :: given.options }
    else if mixed then
      (given? rules mixed rest).map fun given =>
        { given with operands := argument :: given.operands }
    else some ⟨[], argument :: rest⟩

namespace Given

variable [DecidableEq ι]

def values (given : Given ι) (meaning : ι) : List String :=
  (given.options.filter fun option => option.meaning = meaning).map GivenOption.value

def last? (given : Given ι) (meaning : ι) : Option String := (given.values meaning).getLast?

def has (given : Given ι) (meaning : ι) : Bool := !(given.values meaning).isEmpty

end Given

end DesignTokens.CommandLine
