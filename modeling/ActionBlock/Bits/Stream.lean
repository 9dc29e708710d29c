import ActionBlock.Value.Field

/-!
# Bit streams

A bit stream is a string of bits, kept in bytes with the most significant bit first, and a
cursor counted in bits. The cursor may lie past the end, where writing fills the gap with
zeros, and also before the start, where single bits and bytes are counted from the end of the
byte string, and several bytes at once are a slice of it.

An operation that fails keeps what it had done to the stream by then, which is why operations
are state transformers over an exception, and not the other way round. Reads and writes of
whole bytes at a cursor that is a multiple of eight work on the byte string directly; elsewhere
they go bit by bit.
-/

namespace ActionBlock

-- Powers are those of the core library, whatever else is imported.
attribute [local instance (high)] instPowNat

/-- A string of bits with a cursor. -/
structure BitStream where
  bytes : Bytes
  length : Nat
  cursor : Int
  deriving DecidableEq, Repr

/-- An operation on a bit stream. -/
abbrev BitOp (α : Type) := ExceptT Fault (StateM BitStream) α

/-- Where a cursor position is counted from. The end is counted backwards. -/
inductive Whence where
  | start
  | current
  | stop
  deriving DecidableEq, Repr

/-- The order of the bytes of a number. -/
inductive ByteOrder where
  | little
  | big
  deriving DecidableEq, Repr

namespace BitStream

/-- The stream without bits. -/
def empty : BitStream := ⟨[], 0, 0⟩

/-- The stream of the bits of a byte string, with the cursor at the start. -/
def ofBytes (bytes : Bytes) : BitStream := ⟨bytes, 8 * bytes.length, 0⟩

/-! ### Bits of bytes -/

/-- The bit of a byte at a position, the most significant bit being at zero. -/
def bitOfByte (b : UInt8) (position : Nat) : Bool := b.toNat.testBit (7 - position)

/-- The byte with the bit at a position set or cleared. -/
def setBitOfByte (b : UInt8) (position : Nat) (value : Bool) : UInt8 :=
  let mask : UInt8 := UInt8.ofNat (2 ^ (7 - position))
  if value then b ||| mask else b &&& ~~~mask

/-- The bits of a byte string, the most significant bit of each byte first. -/
def bitsOfBytes (bytes : Bytes) : List Bool :=
  bytes.flatMap fun b => (List.range 8).map (bitOfByte b)

/-- The number whose bits are given, the most significant bit first. -/
def numberOfBits (bits : List Bool) : Nat :=
  bits.foldl (fun n b => 2 * n + b.toNat) 0

/-- The bits of a number in a field, the most significant bit first. -/
def bitsOfNumber (width n : Nat) : List Bool :=
  (List.range width).reverse.map n.testBit

/-- The bits of the stream. -/
def toBits (s : BitStream) : List Bool := (bitsOfBytes s.bytes).take s.length

/-- The bytes of the stream, the last one filled up with zeros. -/
def serialize (s : BitStream) : Bytes := s.bytes.take ((s.length + 7) / 8)

/-! ### The cursor -/

/-- How many bits there are from the cursor to the end. -/
def available (s : BitStream) : Int := s.length - s.cursor

/-- Whether the cursor is a multiple of eight. -/
def isAligned (s : BitStream) : Bool := s.cursor % 8 = 0

/-- Moves the cursor. -/
def advance (n : Int) : BitOp Unit := modify fun s => { s with cursor := s.cursor + n }

/-- Sets the cursor. -/
def seek (offset : Int) (whence : Whence) : BitOp Unit :=
  modify fun s =>
    match whence with
    | .start => { s with cursor := offset }
    | .current => { s with cursor := s.cursor + offset }
    | .stop => { s with cursor := s.length - offset }

/-- Sets the cursor to the end. -/
def skipToEnd : BitOp Unit := modify fun s => { s with cursor := s.length }

/-- Moves the cursor up to a multiple of eight, unless that is past the end. -/
def skipFlush : BitOp Unit :=
  modify fun s =>
    let leftover := s.cursor % 8
    if leftover ≠ 0 ∧ 8 - leftover ≤ s.available then
      { s with cursor := s.cursor + (8 - leftover) }
    else s

/-- Fails if fewer bits are available than needed. -/
def need (n : Int) : BitOp Unit := do
  if (← get).available < n then throw .pastEnd

/-- The position of an index in a byte string of the given size. A negative index counts from the
end. -/
def bytePosition? (size : Nat) (index : Int) : Option Nat :=
  let index := if index < 0 then index + size else index
  if 0 ≤ index ∧ index < size then some index.toNat else none

/-- The byte at an index, which counts from the end if it is negative. -/
def byteAt? (s : BitStream) (index : Int) : Option UInt8 :=
  (bytePosition? s.bytes.length index).bind (s.bytes[·]?)

/-- The byte at an index. -/
def byteAt (index : Int) : BitOp UInt8 := do
  match (← get).byteAt? index with
  | some b => pure b
  | none => throw .beforeStart

/-- The position in a list of `size` members that an end of a slice denotes. -/
def sliceEnd (size : Nat) (index : Int) : Nat :=
  if index < 0 then (index + size).toNat else min index.toNat size

/-- The members from one index to another, either of which counts from the end if negative. -/
def slice (bytes : Bytes) (first last : Int) : Bytes :=
  let first := sliceEnd bytes.length first
  (bytes.take (sliceEnd bytes.length last)).drop first

/-- Puts bytes in the place of the members from one index to another, either of which counts from
the end if negative. If the members end before they begin, the bytes go where they begin. -/
def replaceSlice (bytes : Bytes) (first last : Int) (new : Bytes) : Bytes :=
  let first := sliceEnd bytes.length first
  bytes.take first ++ new ++ bytes.drop (max first (sliceEnd bytes.length last))

/-! ### Reading -/

/-- Reads a bit. -/
def readBit : BitOp Bool := do
  need 1
  let cursor := (← get).cursor
  advance 1
  let b ← byteAt (cursor / 8)
  pure (bitOfByte b (cursor % 8).toNat)

/-- Reads as many times as given, after what was already read, in reverse order. -/
def repeatOp {α : Type} (op : BitOp α) : Nat → List α → BitOp (List α)
  | 0, done => pure done.reverse
  | n + 1, done => do
    let a ← op
    repeatOp op n (a :: done)

/-- Reads bits. -/
def readBits (n : Int) : BitOp (List Bool) := do
  need n
  repeatOp readBit n.toNat []

/-- Reads a byte. -/
def readByte : BitOp UInt8 := do
  if (← get).isAligned then
    need 8
    advance 8
    byteAt ((← get).cursor / 8 - 1)
  else
    let bits ← readBits 8
    pure (UInt8.ofNat (numberOfBits bits))

/-- Reads bytes. -/
def readBytes (n : Int) : BitOp Bytes := do
  need (n * 8)
  let s ← get
  if s.isAligned then
    let start := s.cursor / 8
    advance (n * 8)
    pure (slice s.bytes start (start + n))
  else repeatOp readByte n.toNat []

/-- Reads an integer field. A field of whole bytes may have its least significant byte first. -/
def readInt (width : Int) (signed : Bool) (order : ByteOrder) : BitOp Int := do
  let n ← match order with
    | .little =>
      if width % 8 ≠ 0 then throw .unevenRead
      else Bytes.ofLittleEndian <$> readBytes (width / 8)
    | .big => numberOfBits <$> readBits width
  if signed ∧ width ≠ 0 then
    if width < 0 then throw .negativeWidth
    else if n.testBit (width.toNat - 1) then pure ((n : Int) - 2 ^ width.toNat)
    else pure n
  else pure n

/-- The number of 32 or 64 bits that bytes denote, least significant byte first. -/
def floatOfBytes (single : Bool) (bytes : Bytes) : Double :=
  let n := Bytes.ofLittleEndian bytes
  if single then .ofSingle ⟨UInt32.ofNat n⟩ else ⟨UInt64.ofNat n⟩

/-- Whether a width is that of the format of 32 bits; the only other width is 64. -/
def isSingleWidth (width : Value) : Except Fault Bool :=
  if !width.isKey then .error .wrongKind
  else if width.same (.int 32) then .ok true
  else if width.same (.int 64) then .ok false
  else .error (.noFloatFormat (width.quoted.toOption.getD []))

/-- The byte order that a mark says, if there is one with that mark. What is no text says none. -/
def byteOrder? : Value → Except Fault (Option ByteOrder)
  | .text mark =>
    .ok <|
      if [("<" : Text), "=", "@", ""].contains mark then some .little
      else if [(">" : Text), "!"].contains mark then some .big
      else none
  | _ => .error .wrongKind

/-- Reads a floating point number. -/
def readFloat (width order : Value) : BitOp Double := do
  let single ← isSingleWidth width
  let order? ← byteOrder? order
  let size : Int := if single then 4 else 8
  if width.whole?.isNone then
    need (8 * size)
    throw .wrongKind
  let bytes ← readBytes size
  match order? with
  | none => throw .noByteOrder
  | some order =>
    if bytes.length ≠ size then throw (.shortFloat size)
    else pure (floatOfBytes single (match order with | .little => bytes | .big => bytes.reverse))

/-- Reads bytes up to a zero byte, after those already read, in reverse order. The number of
further bytes to try bounds the search. -/
def readUntilZero : Nat → Bytes → BitOp Bytes
  | 0, _ => throw .pastEnd
  | more + 1, done => do
    let b ← readByte
    if b = 0 then pure done.reverse else readUntilZero more (b :: done)

/-- The index of the first zero byte from a position on and before another. -/
def findZero? (bytes : Bytes) (first last : Nat) : Option Nat :=
  (((bytes.take last).drop first).findIdx? (· = 0)).map (first + ·)

/-- Reads a text that ends with a zero byte. -/
def readText : BitOp Text := do
  let s ← get
  if s.isAligned then
    let start := s.cursor / 8
    match findZero? s.bytes (sliceEnd s.bytes.length start) (s.length / 8) with
    | none => throw .pastEnd
    | some stop =>
      let bytes ← readBytes (stop - start)
      advance 8
      pure (Utf8.decode bytes)
  else
    let bytes ← readUntilZero ((s.available / 8).toNat + 1) []
    pure (Utf8.decode bytes)

/-- Reads bytes as a stream of their own. -/
def readStream (n : Int) : BitOp BitStream := ofBytes <$> readBytes n

/-! ### Writing -/

/-- Makes room for bits up to a position. -/
def grow (stop : Int) : BitOp Unit :=
  modify fun s =>
    let needed := ((stop + 7) / 8).toNat
    { s with
      bytes := s.bytes ++ List.replicate (needed - s.bytes.length) 0
      length := max s.length stop.toNat }

/-- Writes a bit. -/
def writeBit (value : Bool) : BitOp Unit := do
  grow ((← get).cursor + 1)
  let s ← get
  match bytePosition? s.bytes.length (s.cursor / 8) with
  | none => throw .beforeStart
  | some index =>
    set { s with
      bytes := s.bytes.modify index (setBitOfByte · (s.cursor % 8).toNat value)
      cursor := s.cursor + 1 }

/-- Writes bits. -/
def writeBits : List Bool → BitOp Unit
  | [] => pure ()
  | b :: bits => do
    writeBit b
    writeBits bits

/-- Writes zeros. -/
def zeroFill (n : Int) : BitOp Unit := writeBits (List.replicate n.toNat false)

/-- Fills the last byte with zeros and moves the cursor to the end. -/
def flush : BitOp Unit := do
  skipToEnd
  let leftover := (← get).cursor % 8
  if leftover ≠ 0 then zeroFill (8 - leftover)

/-- Writes a number as a byte. A negative one stands for that many below 256. -/
def writeByte (n : Int) : BitOp Unit := do
  let n := if n < 0 then n + 256 else n
  if (← get).isAligned then
    grow ((← get).cursor + 8)
    if 0 ≤ n ∧ n < 256 then
      let s ← get
      match bytePosition? s.bytes.length (s.cursor / 8) with
      | none => throw .beforeStart
      | some index =>
        set { s with
          bytes := s.bytes.set index (UInt8.ofNat n.toNat)
          cursor := s.cursor + 8 }
    else throw .notAByte
  else
    match Scalar.fitInt 8 false n with
    | .ok bits => writeBits (bitsOfNumber 8 bits)
    | .error fault => throw fault

/-- Writes a value as a byte. A number that is no integer is found out only after room was made
for the byte. -/
def writeByteOf (value : Value) : BitOp Unit := do
  let order ← value.compareInt 0
  match value.whole? with
  | some n => writeByte n
  | none =>
    let value := if order = some .lt then value.add 256 else value
    let s ← get
    if s.isAligned then
      grow (s.cursor + 8)
      throw .wrongKind
    else discard (value.fit 8 false)

/-- Writes bytes one by one. -/
def writeEach : Bytes → BitOp Unit
  | [] => pure ()
  | b :: rest => do
    writeByte b.toNat
    writeEach rest

/-- Writes bytes. -/
def writeBytes (bytes : Bytes) : BitOp Unit := do
  let s ← get
  if s.isAligned then
    grow (s.cursor + 8 * bytes.length)
    modify fun t =>
      let start := s.cursor / 8
      { t with
        bytes := replaceSlice t.bytes start (start + bytes.length) bytes
        cursor := t.cursor + 8 * bytes.length }
  else writeEach bytes

/-- Writes an integer field. -/
def writeInt (value : Value) (width : Int) (signed : Bool) (order : ByteOrder) : BitOp Unit := do
  if (if signed then width - 1 else width) < 0 then throw .negativeWidth
  match value.fit width.toNat signed with
  | .error fault => throw fault
  | .ok bits =>
    match order with
    | .little =>
      if width % 8 ≠ 0 then throw .unevenWrite
      else writeBytes (Bytes.littleEndian (width / 8).toNat bits)
    | .big => writeBits (bitsOfNumber width.toNat bits)

/-- The bytes of a value as a number of 32 or 64 bits, least significant byte first. -/
def bytesOfFloat (single : Bool) (value : Value) : Except Fault Bytes :=
  if single then value.toSingle.map fun x => Bytes.littleEndian 4 x.bits.toNat
  else value.toDouble.map fun x => Bytes.littleEndian 8 x.bits.toNat

/-- Writes a floating point number. -/
def writeFloat (value width order : Value) : BitOp Unit := do
  let single ← isSingleWidth width
  match ← byteOrder? order with
  | none => throw .noByteOrder
  | some order =>
    let bytes ← bytesOfFloat single value
    writeBytes (match order with | .little => bytes | .big => bytes.reverse)

/-- Writes a string and a zero byte. -/
def writeString (value : Value) : BitOp Unit := do
  let bytes ← value.string
  writeBytes bytes

/-! ### Making and showing streams -/

/-- The stream of the given bits, with the cursor at the start. -/
def ofBits (bits : List Bool) : BitStream :=
  let (_, s) := (writeBits bits).run.run empty
  { s with cursor := 0 }

/-- The stream that digits describe: a zero is a zero bit, blanks do not count, and anything
else is a one bit. -/
def ofDigits (digits : Text) : BitStream :=
  ofBits ((digits.filter (· ≠ CodePoint.ofChar ' ')).map (· ≠ CodePoint.ofChar '0'))

/-- The stream of the bits that values give: the text of a zero digit is a zero bit, that of a
blank does not count, and any other value is the bit that it counts as. -/
def ofValues (values : List Value) : BitStream :=
  ofBits ((values.filter fun v => !v.same (.text " ")).map fun v =>
    !v.same (.text "0") && v.truth)

/-- The bits of the stream as digits. -/
def digits (s : BitStream) : Text :=
  s.toBits.map fun b => CodePoint.ofChar (if b then '1' else '0')

/-- The stream as messages show it. -/
def describe (s : BitStream) : Except Fault Text :=
  (Scalar.numeral s.cursor).map fun n =>
    "<BitStream '" ++ s.digits.take 64 ++ "' pos=" ++ n ++ ">"

/-- The whole bytes from the cursor on. -/
def wholeBytes (s : BitStream) : Bytes :=
  let start := s.cursor / 8
  let shift := (s.cursor % 8).toNat
  let count := (s.available / 8).toNat
  let bytes :=
    if start < 0 then s.bytes.drop (start + s.bytes.length).toNat ++ s.bytes
    else s.bytes.drop start.toNat
  if shift = 0 then bytes.take count
  else
    (bytes.zip (bytes.drop 1 ++ [0])).take count |>.map fun (a, b) =>
      UInt8.ofNat (a.toNat * 2 ^ shift + b.toNat / 2 ^ (8 - shift))

end BitStream

end ActionBlock
