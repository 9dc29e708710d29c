import ActionBlock.Text.Numeral

/-!
# Push types

The types of the values that a push action puts on the stack. Each type has a number, which
stands before a value of it, and a name.
-/

namespace ActionBlock

/-- The type of a pushed value. -/
inductive PushType where
  | string
  | float
  | null
  | undefined
  | register
  | boolean
  | double
  | integer
  | constant8
  | constant16
  deriving DecidableEq, Repr

namespace PushType

/-- The types in the order of their numbers. -/
def all : List PushType :=
  [string, float, null, undefined, register, boolean, double, integer, constant8, constant16]

/-- The number of a type, which stands before a value of it. -/
def number : PushType → Nat
  | string => 0
  | float => 1
  | null => 2
  | undefined => 3
  | register => 4
  | boolean => 5
  | double => 6
  | integer => 7
  | constant8 => 8
  | constant16 => 9

/-- The type with a number. -/
def ofNumber? (n : Nat) : Option PushType := all[n]?

/-- The name of a type. -/
def name : PushType → Text
  | string => "string"
  | float => "float"
  | null => "null"
  | undefined => "undefined"
  | register => "register"
  | boolean => "boolean"
  | double => "double"
  | integer => "integer"
  | constant8 => "constant 8"
  | constant16 => "constant 16"

/-- A type as messages show it. -/
def describe (t : PushType) : Text :=
  "<DataType " ++ t.name ++ " (" ++ Numeral.nat t.number ++ ")>"

/-- Whether values of the type name a constant of the pool. -/
def isConstant (t : PushType) : Bool := t = constant8 || t = constant16

/-- Whether the type has only one value, which the type alone stands for. -/
def isUnit (t : PushType) : Bool := t = null || t = undefined

end PushType

end ActionBlock
