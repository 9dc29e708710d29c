import ActionBlock.Value.Basic

/-!
# Values as text

A value is quoted as listings show it: texts and byte strings in quotes, the members of lists
between brackets, and a value with a type by what the type makes of it.
-/

namespace ActionBlock

/-- The text of a value of a type, given how the value is quoted. -/
def PushType.render (t : PushType) (value : Value) (quoted : Except Fault Text) :
    Except Fault Text :=
  match t with
  | null | undefined => .ok t.name
  | boolean =>
    match value with
    | .bool b => .ok (if b then "true" else "false")
    | _ => value.decimal.map fun n => "boolean(" ++ n ++ ")"
  | register => value.decimal.map ("r:" ++ ·)
  | constant8 | constant16 => value.decimal.map ("c:" ++ ·)
  | string | float | double | integer => quoted

namespace Value

/-- The members of a list between brackets, given how each is quoted. -/
def listText (members : List Text) : Text := "[" ++ Text.join ", " members ++ "]"

/-- The members of a tuple between parentheses, given how each is quoted. A comma follows the
only member of a tuple. -/
def tupleText : List Text → Text
  | [member] => "(" ++ member ++ ",)"
  | members => "(" ++ Text.join ", " members ++ ")"

/-- A block, given how each of its members is quoted. -/
def blockText (members : List Text) : Text := "InstructionSequence(" ++ listText members ++ ")"

mutual

/-- A value as listings show it. -/
def quoted : Value → Except Fault Text
  | scalar s => s.quoted
  | list members => (quotedAll members []).map listText
  | tuple members => (quotedAll members []).map tupleText
  | pushed value type => (type.render value (quoted value)).map fun t => "PushValue(" ++ t ++ ")"
  | pushType type => .ok type.describe
  | param register name =>
    match quoted register, quoted name with
    | .ok r, .ok n => .ok ("RegisterParam(register=" ++ r ++ ", name=" ++ n ++ ")")
    | .error fault, _ | _, .error fault => .error fault
  | block members => (quotedAll members []).map blockText
  | action _ sketch => sketch.describe

/-- Values as listings show them; those already shown stand in reverse order. -/
def quotedAll : List Value → List Text → Except Fault (List Text)
  | [], done => .ok done.reverse
  | v :: vs, done =>
    match quoted v with
    | .ok t => quotedAll vs (t :: done)
    | .error fault => .error fault

end

/-- A value as it is shown outside of quotes. -/
def plain : Value → Except Fault Text
  | text t => .ok t
  | v => v.quoted

/-- A value as an action code. -/
def codeText (v : Value) : Except Fault Text :=
  v.whole?.elim (.error .wrongKind) fun n => .ok (Numeral.code n)

end Value

end ActionBlock
