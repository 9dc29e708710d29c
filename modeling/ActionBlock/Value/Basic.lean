import ActionBlock.Push.Type
import ActionBlock.Scalar

/-!
# Values

The values that the fields of an action hold. A field keeps the value it was given, of whatever
kind: a flag may be a truth value, a number or a list, a name a text or a byte string. What a
field makes of a value is decided when the field is written or rendered, and a value of a kind
that the field cannot hold is a fault then.

Besides scalars there are lists and tuples of values, values with the type under which they are
pushed, the types themselves, parameters of functions that name a register, and blocks of
actions and actions given where a value is expected. An action is held by its identity, with a
sketch of how it looked when it was given.
-/

namespace ActionBlock

/-- An action as it looked when it was given as a value. -/
structure Sketch where
  /-- The word for its kind. -/
  word : Text
  /-- The action as messages show it. -/
  text : Text
  /-- Why it cannot be shown, if it cannot. -/
  fault : Option Fault := none
  deriving DecidableEq, Repr

/-- The action as messages show it. -/
def Sketch.describe (s : Sketch) : Except Fault Text := s.fault.elim (.ok s.text) .error

/-- A value of a field. -/
inductive Value where
  | scalar (s : Scalar)
  | list (members : List Value)
  | tuple (members : List Value)
  /-- A value with the type under which it is pushed. -/
  | pushed (value : Value) (type : PushType)
  | pushType (type : PushType)
  /-- A parameter of a function with registers. -/
  | param (register name : Value)
  | block (members : List Value)
  | action (identity : Nat) (sketch : Sketch)

namespace Value

/-! ### Scalars as values -/

/-- The value that stands for nothing. -/
@[match_pattern]
abbrev none : Value := scalar .none

/-- A truth value. -/
@[match_pattern]
abbrev bool (b : Bool) : Value := scalar (.bool b)

/-- An integer. -/
@[match_pattern]
abbrev int (n : Int) : Value := scalar (.int n)

/-- A floating point number. -/
@[match_pattern]
abbrev double (x : Double) : Value := scalar (.double x)

/-- A text. -/
@[match_pattern]
abbrev text (t : Text) : Value := scalar (.text t)

/-- A byte string. -/
@[match_pattern]
abbrev bytes (b : Bytes) : Value := scalar (.bytes b)

/-- Whether a value is the one that stands for nothing. -/
def isNone : Value → Bool
  | none => true
  | _ => false

/-- The integer that a value is, if it is one or a truth value. -/
def whole? : Value → Option Int
  | scalar s => s.whole?
  | _ => Option.none

/-- Whether a value counts as true. -/
def truth : Value → Bool
  | scalar s => s.truth
  | list members | tuple members | block members => !members.isEmpty
  | _ => true

/-- The word for the kind of a value, in messages. -/
def word : Value → Text
  | none => "NoneType"
  | bool _ => "bool"
  | int _ => "int"
  | double _ => "float"
  | text _ => "str"
  | bytes _ => "bytes"
  | list _ => "list"
  | tuple _ => "tuple"
  | pushed .. => "PushValue"
  | pushType _ => "DataType"
  | param .. => "RegisterParam"
  | block _ => "InstructionSequence"
  | action _ sketch => sketch.word

/-! ### Members -/

/-- The members of a list. A text is the list of its code points, a byte string of its bytes,
and a value with a type is the pair of the two. -/
def members : Value → Except Fault (List Value)
  | list members | tuple members | block members => .ok members
  | text t => .ok (t.map fun c => text [c])
  | bytes b => .ok (b.map fun x => int x.toNat)
  | pushed value type => .ok [value, pushType type]
  | param register name => .ok [register, name]
  | _ => .error .wrongKind

/-- The number of members of a list. -/
def size (v : Value) : Except Fault Nat := v.members.map List.length

/-- The two members of a pair. -/
def pair (v : Value) : Except Fault (Value × Value) :=
  match v.members with
  | .ok [a, b] => .ok (a, b)
  | .ok members =>
    .error (if members.length < 2 then .tooFewMembers members.length else .tooManyMembers)
  | .error _ => .error (.notAPair v.word)

/-- The members of a tuple, those of a pair with a meaning of its own included. -/
def tupleMembers? : Value → Option (List Value)
  | tuple members => some members
  | pushed value type => some [value, pushType type]
  | param register name => some [register, name]
  | _ => Option.none

mutual

/-- Equality of values, numbers by their value. A block is equal to the list of its members, and
actions are compared by how they look. -/
def same : Value → Value → Bool
  | scalar s, b =>
    match b with
    | scalar t => s.same t
    | _ => false
  | list as, b | block as, b =>
    match b with
    | list bs | block bs => sameAll as bs
    | _ => false
  | tuple as, b =>
    match b.tupleMembers? with
    | some bs => sameAll as bs
    | Option.none => false
  | pushed value type, b =>
    match b.tupleMembers? with
    | some [other, pushType t] => same value other && type = t
    | _ => false
  | param register name, b =>
    match b.tupleMembers? with
    | some [r, n] => same register r && same name n
    | _ => false
  | pushType s, b =>
    match b with
    | pushType t => s = t
    | _ => false
  | action i s, b =>
    match b with
    | action j t => i = j || s = t
    | _ => false

/-- Equality of lists of values, member by member. -/
def sameAll : List Value → List Value → Bool
  | [], [] => true
  | a :: as, b :: bs => same a b && sameAll as bs
  | _, _ => false

end

/-- Equality of the members of two lists. -/
def sameMembers (a b : Value) : Bool :=
  match a.members, b.members with
  | .ok as, .ok bs => sameAll as bs
  | _, _ => false

mutual

/-- Whether a value can serve as a key: lists, blocks and actions cannot, nor what holds one. -/
def isKey : Value → Bool
  | scalar _ | pushType _ => true
  | tuple members => areKeys members
  | pushed value _ => isKey value
  | param register name => isKey register && isKey name
  | list _ | block _ | action .. => false

/-- Whether all values of a list can serve as keys. -/
def areKeys : List Value → Bool
  | [] => true
  | v :: vs => isKey v && areKeys vs

end

/-! ### Numbers -/

/-- The number that a value is shown as where a number is expected. -/
def number : Value → Except Fault Int
  | scalar s => s.number
  | _ => .error .wrongKind

/-- The decimal numeral of a value where a number is expected. -/
def decimal (v : Value) : Except Fault Text := v.number.bind Scalar.numeral

/-- How a value compares with an integer. A NaN does not, and what is no number cannot. -/
def compareInt : Value → Int → Except Fault (Option Ordering)
  | scalar s, n => s.compareInt n
  | _, _ => .error .wrongKind

/-- The sum of a number and an integer. -/
def add : Value → Int → Value
  | scalar s, n => scalar (s.add n)
  | v, _ => v

end Value

end ActionBlock
