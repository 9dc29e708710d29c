import ActionBlock.Text.Quoted
import ActionBlock.Text.Utf8

/-!
# Faults

The reasons for which a value cannot be read from a bit stream, written to one, or rendered.
`Fault.message` is the wording. Errors that carry a fault, and others that arise from a block, name
the action code and the offset they concern after their wording, as far as these are known.
-/

namespace ActionBlock

/-- Why a value cannot be read, written or rendered. -/
inductive Fault where
  /-- A read past the end of a bit stream. -/
  | pastEnd
  /-- A bit or a byte before the start of a bit stream. -/
  | beforeStart
  /-- Steps that ended before what they were for did. -/
  | exhausted
  /-- A number of bits that is no number of bytes, in a read by bytes. -/
  | unevenRead
  /-- A number of bits that is no number of bytes, in a write by bytes. -/
  | unevenWrite
  /-- A field of negative width. -/
  | negativeWidth
  /-- A number outside the range of its field. -/
  | outOfRange (value width : Int) (signed : Bool)
  /-- A number stored as a byte without being one. -/
  | notAByte
  /-- A floating point number of a width, as it is shown, that has no format. -/
  | noFloatFormat (width : Text)
  /-- A byte order that does not exist. -/
  | noByteOrder
  /-- Fewer bytes than a floating point number has. -/
  | shortFloat (size : Int)
  /-- A number beyond the largest of 32 bits. -/
  | singleTooLarge
  /-- An integer beyond the largest number of 32 bits. -/
  | integerTooLarge
  /-- No number, or an integer beyond the largest number of 64 bits. -/
  | notANumber
  /-- An integer beyond the largest number of 64 bits, in arithmetic. -/
  | beyondDouble
  /-- A NaN in the place of an integer. -/
  | integerOfNan
  /-- An infinity in the place of an integer. -/
  | integerOfInfinity
  /-- A text in the place of an integer, in quotes, that is no numeral. -/
  | notANumeral (quoted : Text)
  /-- A numeral of more digits than are read. -/
  | numeralTooLong (digits : Nat)
  /-- An integer of more digits than are shown. -/
  | tooLongToShow
  /-- A zero byte inside a string, in quotes, that ends with one. -/
  | containsNul (quoted : Text)
  /-- A member of a byte string that is no byte. -/
  | memberNotAByte
  /-- A negative number of bytes. -/
  | negativeCount
  /-- A number of bytes beyond what an index can count. -/
  | countTooLarge
  /-- A text that has no encoding. -/
  | unencodable (run : Utf8.Unencodable)
  /-- An action code that is no byte. -/
  | codeNotAByte
  /-- An action code beyond the range of a word. -/
  | codeOutOfRange
  /-- An action code that is no integer. -/
  | codeNotAnInteger
  /-- Operands longer than a record can hold. -/
  | recordTooLong (name : Text) (size : Nat)
  /-- Operands of an action whose code has no room for them. -/
  | noRoomForOperands (code : Int)
  /-- A constant that is not in the pool. -/
  | noSuchConstant
  /-- Lines of no width. -/
  | zeroWidth
  /-- A list of fewer members than the two of a pair. -/
  | tooFewMembers (count : Nat)
  /-- A list of more members than the two of a pair. -/
  | tooManyMembers
  /-- A value in the place of a pair, given the word for its kind. -/
  | notAPair (kind : Text)
  /-- A value in the place of a byte string, given the word for its kind and the one that was
  asked for. -/
  | notAByteString (kind wanted : Text)
  /-- A value that lacks what is asked of it, given the word for its kind. -/
  | lacks (kind asked : Text)
  /-- An operand of a kind that its field cannot hold. -/
  | wrongKind
  deriving DecidableEq, Repr

namespace Fault

/-- Whether a fault is about the kind of a value, and not about what the value is. -/
def isMisuse : Fault → Bool
  | notAPair _ | notAByteString .. | lacks .. | wrongKind => true
  | _ => false

/-- Whether a fault is that a stream has no such bits. -/
def isOutside : Fault → Bool
  | pastEnd | beforeStart => true
  | _ => false

/-- The wording for a run of code points without an encoding. -/
def unencodableMessage (run : Utf8.Unencodable) : Text :=
  "'utf-8' codec can't encode character" ++
    (if run.start = run.stop then
      " '" ++ Quoted.numbered run.first ++ "' in position " ++ Numeral.nat run.start
    else "s in position " ++ Numeral.nat run.start ++ "-" ++ Numeral.nat run.stop) ++
    ": surrogates not allowed"

/-- The wording of a fault. -/
def message : Fault → Text
  | pastEnd => "BitStream read beyond boundaries"
  | beforeStart => "bytearray index out of range"
  | exhausted => "not read to the end"
  | unevenRead => "You must have a length of a multiple of 8 in order to read with endianness"
  | unevenWrite => "You must have a length of a multiple of 8 in order to write with endianness"
  | negativeWidth => "negative shift count"
  | outOfRange value width signed =>
    Numeral.int value ++ " does not fit in " ++ Numeral.int width ++
      (if signed then " signed bits" else " unsigned bits")
  | notAByte => "byte must be in range(0, 256)"
  | noFloatFormat width => width
  | noByteOrder => "bad char in struct format"
  | shortFloat size => "unpack requires a buffer of " ++ Numeral.int size ++ " bytes"
  | singleTooLarge => "float too large to pack with f format"
  | integerTooLarge => "int too large to convert"
  | notANumber => "required argument is not a float"
  | beyondDouble => "int too large to convert to float"
  | integerOfNan => "cannot convert float NaN to integer"
  | integerOfInfinity => "cannot convert float infinity to integer"
  | notANumeral quoted => "invalid literal for int() with base 10: " ++ quoted
  | numeralTooLong digits =>
    "Exceeds the limit (" ++ Numeral.nat Numeral.mostDigits ++
      " digits) for integer string conversion: value has " ++ Numeral.nat digits ++
      " digits; use sys.set_int_max_str_digits() to increase the limit"
  | tooLongToShow =>
    "Exceeds the limit (" ++ Numeral.nat Numeral.mostDigits ++
      " digits) for integer string conversion; use sys.set_int_max_str_digits() to increase" ++
      " the limit"
  | containsNul quoted => quoted ++ " contains a NUL and cannot be written as a c-string"
  | memberNotAByte => "bytes must be in range(0, 256)"
  | negativeCount => "negative count"
  | countTooLarge => "cannot fit 'int' into an index-sized integer"
  | unencodable run => unencodableMessage run
  | codeNotAByte => "ubyte format requires 0 <= number <= 255"
  | codeOutOfRange => "argument out of range"
  | codeNotAnInteger => "required argument is not an integer"
  | recordTooLong name size =>
    name ++ " has " ++ Numeral.nat size ++
      " bytes of operands, more than a UI16 length can hold"
  | noRoomForOperands code => "action " ++ Numeral.code code ++ " cannot carry operands"
  | noSuchConstant => "list index out of range"
  | zeroWidth => "range() arg 3 must not be zero"
  | tooFewMembers count =>
    "not enough values to unpack (expected 2, got " ++ Numeral.nat count ++ ")"
  | tooManyMembers => "too many values to unpack (expected 2)"
  | notAPair kind => "cannot unpack non-iterable " ++ kind ++ " object"
  | notAByteString kind wanted => "cannot convert '" ++ kind ++ "' object to " ++ wanted
  | lacks kind asked => "'" ++ kind ++ "' object has no attribute '" ++ asked ++ "'"
  | wrongKind => "wrong kind of operand"

end Fault

/-- A message with the action code and the offset that it concerns. -/
def located (message : Text) (code offset : Option Int) : Text :=
  let context : List Text :=
    (code.map ("opcode=" ++ Numeral.code ·)).toList ++
      (offset.map ("offset=" ++ Numeral.int ·)).toList
  if context.isEmpty then message
  else message ++ " (" ++ Text.join ", " context ++ ")"

end ActionBlock
