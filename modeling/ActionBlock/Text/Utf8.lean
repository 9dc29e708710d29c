import ActionBlock.Bytes
import ActionBlock.Text.Basic

/-!
# UTF-8 with escaped bytes

`decode` reads any byte string: a byte that belongs to no well-formed sequence becomes the
surrogate that stands for it. Sequences that are longer than needed, that encode a surrogate,
or that lie beyond the last code point are not well formed. `encode` writes the code points
back, a surrogate that stands for a byte as that byte; the other surrogates have no encoding.
-/

namespace ActionBlock.Utf8

/-! ### Reading -/

/-- Whether a byte continues a sequence. -/
def isContinuation (b : UInt8) : Bool := 0x80 ≤ b && b ≤ 0xBF

/-- Adds the six bits of a continuation byte. -/
def extend (n : Nat) (b : UInt8) : Nat := n * 64 + b.toNat % 64

/-- The code point of a well-formed sequence of two bytes. -/
def two? (a b : UInt8) : Option CodePoint :=
  if 0xC2 ≤ a && a ≤ 0xDF && isContinuation b then
    some (Fin.ofNat _ (extend (a.toNat % 32) b))
  else none

/-- The code point of a well-formed sequence of three bytes. -/
def three? (a b c : UInt8) : Option CodePoint :=
  if 0xE0 ≤ a && a ≤ 0xEF && isContinuation b && isContinuation c then
    let n := extend (extend (a.toNat % 16) b) c
    if n < 0x800 ∨ (0xD800 ≤ n ∧ n ≤ 0xDFFF) then none else some (Fin.ofNat _ n)
  else none

/-- The code point of a well-formed sequence of four bytes. -/
def four? (a b c d : UInt8) : Option CodePoint :=
  if 0xF0 ≤ a && a ≤ 0xF4 && isContinuation b && isContinuation c && isContinuation d then
    let n := extend (extend (extend (a.toNat % 8) b) c) d
    if n < 0x10000 ∨ 0x10FFFF < n then none else some (Fin.ofNat _ n)
  else none

/-- The code point of the sequence of more than one byte at the front, and how many bytes
follow its first. -/
def sequence? (a : UInt8) (rest : Bytes) : Option (CodePoint × Nat) :=
  match rest with
  | b :: c :: d :: _ =>
    ((two? a b).map (·, 1)) <|> ((three? a b c).map (·, 2)) <|> ((four? a b c d).map (·, 3))
  | [b, c] => ((two? a b).map (·, 1)) <|> ((three? a b c).map (·, 2))
  | [b] => (two? a b).map (·, 1)
  | [] => none

/-- The code point at the front, and how many bytes follow its first. -/
def front (a : UInt8) (rest : Bytes) : CodePoint × Nat :=
  if a < 0x80 then (Fin.ofNat _ a.toNat, 0)
  else (sequence? a rest).getD (CodePoint.ofEscapedByte a, 0)

/-- Reads code points, skipping the given number of bytes first, after those already read,
which stand in reverse order. -/
def decodeFrom : Bytes → Nat → Text → Text
  | [], _, read => read.reverse
  | a :: rest, 0, read =>
    let (c, more) := front a rest
    decodeFrom rest more (c :: read)
  | _ :: rest, skip + 1, read => decodeFrom rest skip read

/-- The text of a byte string. -/
def decode (bytes : Bytes) : Text := decodeFrom bytes 0 []

/-! ### Writing -/

/-- The continuation byte with the low six bits of a number. -/
def continuation (n : Nat) : UInt8 := UInt8.ofNat (0x80 + n % 64)

/-- The shortest sequence for a code point, surrogates treated like any other code point. -/
def encodeScalar (c : CodePoint) : Bytes :=
  let n := c.val
  if n < 0x80 then [UInt8.ofNat n]
  else if n < 0x800 then [UInt8.ofNat (0xC0 + n / 64), continuation n]
  else if n < 0x10000 then
    [UInt8.ofNat (0xE0 + n / 4096), continuation (n / 64), continuation n]
  else
    [UInt8.ofNat (0xF0 + n / 262144), continuation (n / 4096), continuation (n / 64),
      continuation n]

/-- The bytes of a code point, if it has an encoding. -/
def encodeOne? (c : CodePoint) : Option Bytes :=
  if c.isSurrogate then c.escapedByte?.map ([·]) else some (encodeScalar c)

/-- A run of code points that have no encoding: the first of them, its position, and the
position of the last surrogate of the run. -/
structure Unencodable where
  first : CodePoint
  start : Nat
  stop : Nat
  deriving DecidableEq, Repr

/-- The first run of surrogates in a text. They have no encoding where they stand for nothing. -/
def surrogates? (t : Text) : Option Unencodable :=
  match t.dropWhile (!·.isSurrogate) with
  | [] => none
  | c :: rest =>
    let start := (t.takeWhile (!·.isSurrogate)).length
    some ⟨c, start, start + (rest.takeWhile CodePoint.isSurrogate).length⟩

/-- Writes code points from a position on, after the bytes already written, which stand in
reverse order. -/
def encodeFrom : Text → Nat → Bytes → Except Unencodable Bytes
  | [], _, written => .ok written.reverse
  | c :: rest, position, written =>
    match encodeOne? c with
    | some bytes => encodeFrom rest (position + 1) (bytes.reverse ++ written)
    | none => .error ⟨c, position, position + (rest.takeWhile CodePoint.isSurrogate).length⟩

/-- The bytes of a text, or the first run in it that has no encoding. -/
def encode (t : Text) : Except Unencodable Bytes := encodeFrom t 0 []

end ActionBlock.Utf8
