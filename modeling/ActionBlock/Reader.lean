import ActionBlock.Scalar

/-!
# Byte readers

A reader takes a value off the front of a byte string and leaves the rest. The only way for
it to fail is that the bytes end early.
-/

namespace ActionBlock

/-- Takes a value off the front of a byte string. -/
abbrev Reader (α : Type) := StateT Bytes Option α

namespace Reader

/-- Reads a byte. -/
def byte : Reader UInt8
  | [] => none
  | b :: rest => some (b, rest)

/-- Reads a byte as a number. -/
def ui8 : Reader Nat := UInt8.toNat <$> byte

/-- Reads bytes. -/
def take (n : Nat) : Reader Bytes := fun bytes => Bytes.splitExact n bytes

/-- Reads a number of the given number of bytes, least significant byte first. -/
def number (width : Nat) : Reader Nat := Bytes.ofLittleEndian <$> take width

/-- Reads a number of two bytes. -/
def ui16 : Reader Nat := number 2

/-- Reads a signed number of two bytes. -/
def si16 : Reader Int := Bytes.toSigned 16 <$> number 2

/-- Reads a signed number of four bytes. -/
def si32 : Reader Int := Bytes.toSigned 32 <$> number 4

/-- Reads a text that ends with a zero byte. -/
def text : Reader Text := fun bytes =>
  match bytes.span (· ≠ 0) with
  | (_, []) => none
  | (front, _ :: rest) => some (Utf8.decode front, rest)

/-- Reads as many values as given, after those already read, in reverse order. -/
def timesFrom {α : Type} (reader : Reader α) : Nat → List α → Reader (List α)
  | 0, done => pure done.reverse
  | n + 1, done => do
    let a ← reader
    timesFrom reader n (a :: done)

/-- Reads a number of values. -/
def times {α : Type} (n : Nat) (reader : Reader α) : Reader (List α) := timesFrom reader n []

end Reader

end ActionBlock
