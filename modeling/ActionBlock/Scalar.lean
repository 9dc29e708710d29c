import ActionBlock.Fault
import ActionBlock.Number.Decimal

/-!
# Scalars

The simple values that operands hold: truth values, numbers, texts and byte strings. What a
field makes of a scalar is decided when the field is written or rendered, and a scalar of a kind
that the field cannot hold is a fault then.

Truth values count as the numbers zero and one. Scalars are compared as numbers across kinds.
-/

namespace ActionBlock

-- Powers are those of the core library, whatever else is imported.
attribute [local instance (high)] instPowNat

/-- A simple value. -/
inductive Scalar where
  | none
  | bool (b : Bool)
  | int (n : Int)
  | double (x : Double)
  | text (t : Text)
  | bytes (b : Bytes)
  deriving DecidableEq, Repr

namespace Scalar

/-- The integer that a scalar is, if it is one or a truth value. -/
def whole? : Scalar → Option Int
  | bool b => some b.toNat
  | int n => some n
  | _ => Option.none

/-- Whether a scalar counts as true. -/
def truth : Scalar → Bool
  | none => false
  | bool b => b
  | int n => n ≠ 0
  | double x => x.isNonzero
  | text t => t ≠ []
  | bytes b => b ≠ []

/-- Equality of scalars, numbers by their value. -/
def same (a b : Scalar) : Bool :=
  match a.whole?, b.whole? with
  | some m, some n => m = n
  | some m, Option.none =>
    match b with
    | double y => y.compareInt? m = some .eq
    | _ => false
  | Option.none, some n =>
    match a with
    | double x => x.compareInt? n = some .eq
    | _ => false
  | Option.none, Option.none =>
    match a, b with
    | double x, double y => x.equal y
    | _, _ => a = b

/-! ### Rendering -/

/-- The decimal numeral of an integer, if it is shown. -/
def numeral (n : Int) : Except Fault Text :=
  if Numeral.isShown n then .ok (Numeral.int n) else .error .tooLongToShow

/-- The decimal numeral of an integer, always with a sign, if it is shown. -/
def signedNumeral (n : Int) : Except Fault Text :=
  if Numeral.isShown n then .ok (Numeral.signed n) else .error .tooLongToShow

/-- A scalar as listings show it. -/
def quoted : Scalar → Except Fault Text
  | none => .ok "None"
  | bool b => .ok (if b then "True" else "False")
  | int n => numeral n
  | double x => .ok x.text
  | text t => .ok (Quoted.text t)
  | bytes b => .ok (Quoted.bytes b)

/-- The integer part of a number. -/
def integerPart (x : Double) : Except Fault Int :=
  match x.truncate? with
  | some n => .ok n
  | Option.none => .error (if x.meaning = .nan then .integerOfNan else .integerOfInfinity)

/-- The number that a scalar is shown as where a number is expected. -/
def number : Scalar → Except Fault Int
  | bool b => .ok b.toNat
  | int n => .ok n
  | double x => integerPart x
  | _ => .error .wrongKind

/-- The decimal numeral of a scalar where a number is expected. -/
def decimal (s : Scalar) : Except Fault Text := s.number.bind numeral

/-- The integer that a numeral denotes, given how messages quote it. A message has room for
two hundred code points of it. -/
def readInt (quoted numeral : Text) : Except Fault Int :=
  match Numeral.readDecimal? numeral, Numeral.tooManyDigits? numeral with
  | some n, _ => .ok n
  | Option.none, some digits => .error (.numeralTooLong digits)
  | Option.none, Option.none => .error (.notANumeral (quoted.take 200))

/-- The integer that a scalar stands for, numerals included. -/
def toInt (s : Scalar) : Except Fault Int :=
  match s with
  | text t => readInt (Quoted.text t) t
  | bytes b =>
    readInt (Quoted.bytes b) (b.map fun x => Fin.ofNat _ (if x < 0x80 then x.toNat else 0))
  | _ => s.number

/-- How a scalar compares with an integer. A NaN does not, and what is no number cannot. -/
def compareInt : Scalar → Int → Except Fault (Option Ordering)
  | bool b, n => .ok (some (compare (b.toNat : Int) n))
  | int m, n => .ok (some (compare m n))
  | double x, n => .ok (x.compareInt? n)
  | _, _ => .error .wrongKind

/-- The sum of a number and an integer. -/
def add : Scalar → Int → Scalar
  | bool b, n => int (b.toNat + n)
  | int m, n => int (m + n)
  | double x, n => double (x.addInt n)
  | s, _ => s

/-! ### Fields -/

/-- The least and the greatest number of a field of the given width. -/
def fieldRange (width : Nat) (signed : Bool) : Int × Int :=
  if signed then (-2 ^ (width - 1), 2 ^ (width - 1) - 1) else (0, 2 ^ width - 1)

/-- The fault of a number outside the range of its field. The number is part of the message, so
that one that is not shown is another fault. -/
def misfit (width : Nat) (signed : Bool) (n : Int) : Fault :=
  if Numeral.isShown n then .outOfRange n width signed else .tooLongToShow

/-- The bits of a number in a field, if it is in the field's range. -/
def fitInt (width : Nat) (signed : Bool) (n : Int) : Except Fault Nat :=
  let (low, high) := fieldRange width signed
  if low ≤ n ∧ n ≤ high then .ok (n % 2 ^ width).toNat
  else .error (misfit width signed n)

/-- The bits of a scalar in a field for integers. -/
def fit (width : Nat) (signed : Bool) : Scalar → Except Fault Nat
  | bool b => fitInt width signed b.toNat
  | int n => fitInt width signed n
  | double x =>
    let (low, high) := fieldRange width signed
    if (x.compareInt? low).any (· ≠ .lt) && (x.compareInt? high).any (· ≠ .gt) then
      .error .wrongKind
    else do
      let n ← integerPart x
      .error (misfit width signed n)
  | _ => .error .wrongKind

/-- The bytes of a string that ends with a zero byte, that byte included. -/
def terminated (b : Bytes) : Except Fault Bytes :=
  if b.contains 0 then .error (.containsNul (Quoted.bytes b)) else .ok (b ++ [0])

/-- The bytes of a text that ends with a zero byte, that byte included. -/
def terminatedText (t : Text) : Except Fault Bytes :=
  match Utf8.encode t with
  | .ok b => terminated b
  | .error run => .error (.unencodable run)

/-- The bytes of a scalar in a field for strings. -/
def string : Scalar → Except Fault Bytes
  | text t => terminatedText t
  | bytes b => terminated b
  | _ => .error .wrongKind

/-- The number that a scalar is in a field of 64 bits. -/
def toDouble : Scalar → Except Fault Double
  | bool b => (Double.ofInt? b.toNat).elim (.error .notANumber) .ok
  | int n => (Double.ofInt? n).elim (.error .notANumber) .ok
  | double x => .ok x
  | _ => .error .notANumber

/-- The number that a scalar is in a field of 32 bits. -/
def toSingle (s : Scalar) : Except Fault Single := do
  let x ← s.toDouble
  match x.toSingle? with
  | some y => .ok y
  | Option.none => .error (if s.whole?.isSome then .integerTooLarge else .singleTooLarge)

end Scalar

end ActionBlock
