/-!
# Byte strings

Byte strings are lists of bytes. Numbers are stored in them least significant byte first,
in fields of a fixed width; `ofLittleEndian` reads what `littleEndian` writes.
-/

namespace ActionBlock

-- Powers are those of the core library, whatever else is imported.
attribute [local instance (high)] instPowNat

/-- A byte string. -/
abbrev Bytes := List UInt8

namespace Bytes

/-- The bytes of a number in a field of the given width, least significant byte first. -/
def littleEndian : Nat → Nat → Bytes
  | 0, _ => []
  | width + 1, n => UInt8.ofNat n :: littleEndian width (n / 256)

/-- The number whose bytes are given, least significant byte first. -/
def ofLittleEndian : Bytes → Nat
  | [] => 0
  | b :: rest => b.toNat + 256 * ofLittleEndian rest

/-- The first `n` bytes and the bytes after them, if there are that many. -/
def splitExact (n : Nat) (bytes : Bytes) : Option (Bytes × Bytes) :=
  let (front, rest) := bytes.splitAt n
  if front.length = n then some (front, rest) else none

/-- Whether there are at least `n` bytes. Looks no further than the first `n`. -/
def hasAtLeast (n : Nat) (bytes : Bytes) : Bool :=
  n = 0 || !(bytes.drop (n - 1)).isEmpty

/-- The number a byte string denotes in two's complement, given the number of its bits. -/
def toSigned (bits : Nat) (n : Nat) : Int :=
  if bits ≠ 0 ∧ 2 ^ (bits - 1) ≤ n then (n : Int) - 2 ^ bits else n

@[simp]
theorem length_littleEndian (width n : Nat) :
  (littleEndian width n).length = width
  := by
  induction width generalizing n with
  | zero => rfl
  | succ width ih => simp [littleEndian, ih]

end Bytes

end ActionBlock
