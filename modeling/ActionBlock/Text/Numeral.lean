import ActionBlock.Text.Basic

/-!
# Numerals

Decimal and hexadecimal numerals, written and read. A sign counts towards the width a
numeral is padded to, and zeros go between the sign and the digits.

Numerals are read as integer literals: blanks around them do not count, a sign may come
first, digits may be grouped by single underscores, and where the base is left open a marker
`0x`, `0o` or `0b` chooses it, a plain decimal numeral having no leading zeros. Digits of any
script count as decimal digits.

A decimal numeral has at most `mostDigits` digits: one with more is not read, and an integer
that needs more is not shown.
-/

namespace ActionBlock.Numeral

/-! ### Writing -/

/-- The digits of a natural number in a base up to sixteen, in lower case. -/
def digits (base n : Nat) : Text := (Nat.toDigits base n).map CodePoint.ofChar

/-- A decimal numeral. -/
def nat (n : Nat) : Text := digits 10 n

/-- A decimal numeral, with a sign if negative. -/
def int (n : Int) : Text :=
  if n < 0 then "-" ++ nat n.natAbs else nat n.natAbs

/-- A decimal numeral that always has a sign. -/
def signed (n : Int) : Text :=
  if n < 0 then int n else "+" ++ int n

/-- The most digits of a decimal numeral. -/
def mostDigits : Nat := 4300

/-- Whether an integer is shown in decimal: its numeral must not have too many digits. -/
def isShown (n : Int) : Bool := (nat n.natAbs).length ≤ mostDigits

/-- Puts zeros between sign and digits, up to the given width. -/
def zeroPad (width : Nat) (negative : Bool) (ds : Text) : Text :=
  let sign : Text := if negative then "-" else []
  sign ++ List.replicate (width - sign.length - ds.length) (CodePoint.ofChar '0') ++ ds

/-- A hexadecimal numeral in lower case, padded with zeros. -/
def hexLower (width : Nat) (n : Int) : Text := zeroPad width (n < 0) (digits 16 n.natAbs)

/-- A hexadecimal numeral in upper case, padded with zeros. -/
def hexUpper (width : Nat) (n : Int) : Text :=
  zeroPad width (n < 0) ((Nat.toDigits 16 n.natAbs).map (CodePoint.ofChar ·.toUpper))

/-- An action code as messages show it. -/
def code (n : Int) : Text := "0x" ++ hexUpper 2 n

/-! ### Reading -/

/-- Whether a code point is blank around numerals. -/
def isBlank (c : CodePoint) : Bool :=
  let n := c.val
  (0x09 ≤ n && n ≤ 0x0D) || n == 0x20 || n == 0x85 || n == 0xA0 || n == 0x1680 ||
    (0x2000 ≤ n && n ≤ 0x200A) || n == 0x2028 || n == 0x2029 || n == 0x202F || n == 0x205F ||
    n == 0x3000

/-- The zeros of the scripts that have decimal digits; the other nine digits follow each. -/
def decimalZeros : List Nat :=
  [0x30, 0x660, 0x6F0, 0x7C0, 0x966, 0x9E6, 0xA66, 0xAE6, 0xB66, 0xBE6, 0xC66, 0xCE6, 0xD66,
   0xDE6, 0xE50, 0xED0, 0xF20, 0x1040, 0x1090, 0x17E0, 0x1810, 0x1946, 0x19D0, 0x1A80, 0x1A90,
   0x1B50, 0x1BB0, 0x1C40, 0x1C50, 0xA620, 0xA8D0, 0xA900, 0xA9D0, 0xA9F0, 0xAA50, 0xABF0,
   0xFF10, 0x104A0, 0x10D30, 0x11066, 0x110F0, 0x11136, 0x111D0, 0x112F0, 0x11450, 0x114D0,
   0x11650, 0x116C0, 0x11730, 0x118E0, 0x11950, 0x11C50, 0x11D50, 0x11DA0, 0x16A60, 0x16AC0,
   0x16B50, 0x1D7CE, 0x1D7D8, 0x1D7E2, 0x1D7EC, 0x1D7F6, 0x1E140, 0x1E2F0, 0x1E950, 0x1FBF0]

/-- The value of a code point as a digit: a decimal digit, or a letter of the Latin alphabet,
counted from ten. -/
def digitValue? (c : CodePoint) : Option Nat :=
  match decimalZeros.find? (fun z => z ≤ c.val && c.val < z + 10) with
  | some z => some (c.val - z)
  | none =>
    if 0x61 ≤ c.val ∧ c.val ≤ 0x7A then some (c.val - 0x61 + 10)
    else if 0x41 ≤ c.val ∧ c.val ≤ 0x5A then some (c.val - 0x41 + 10)
    else none

/-- Reads digits to the end of the text. An underscore may only come between two digits, so
`grouped` says whether a digit came last. -/
def readDigits (base : Nat) : Text → Nat → Bool → Option Nat
  | [], n, grouped => if grouped then some n else none
  | c :: rest, n, grouped =>
    if c = CodePoint.ofChar '_' then
      if grouped then readDigits base rest n false else none
    else
      match digitValue? c with
      | some d => if d < base then readDigits base rest (base * n + d) true else none
      | none => none

/-- The number of decimal digits at the start of a text, which single underscores may group. -/
def leadingDigits : Text → Nat → Bool → Option Nat
  | [], count, grouped => if grouped then some count else none
  | c :: rest, count, grouped =>
    if c = CodePoint.ofChar '_' then
      if grouped then leadingDigits rest count false else none
    else if (digitValue? c).any (· < 10) then leadingDigits rest (count + 1) true
    else if grouped then some count
    else none

/-- The number of decimal digits at the start of a text, if it is too large. -/
def excessDigits? (t : Text) : Option Nat := (leadingDigits t 0 false).filter (mostDigits < ·)

/-- Reads decimal digits to the end of the text. -/
def readDecimalDigits? (t : Text) : Option Nat :=
  if (excessDigits? t).isSome then none else readDigits 10 t 0 false

/-- Reads digits after a marker of the base, from which an underscore may divide them. -/
def readMarked (base : Nat) : Text → Option Nat
  | [] => none
  | c :: rest =>
    if c = CodePoint.ofChar '_' then readDigits base rest 0 false
    else readDigits base (c :: rest) 0 false

/-- The base that a marker after a zero chooses. -/
def markedBase? (c : CodePoint) : Option Nat :=
  if c = CodePoint.ofChar 'x' ∨ c = CodePoint.ofChar 'X' then some 16
  else if c = CodePoint.ofChar 'o' ∨ c = CodePoint.ofChar 'O' then some 8
  else if c = CodePoint.ofChar 'b' ∨ c = CodePoint.ofChar 'B' then some 2
  else none

/-- The text without the blanks around it. -/
def strip (t : Text) : Text :=
  ((t.dropWhile isBlank).reverse.dropWhile isBlank).reverse

/-- Reads a numeral without a sign. -/
def readUnsigned? (t : Text) : Option Nat :=
  match t with
  | z :: mark :: rest =>
    if digitValue? z = some 0 then
      match markedBase? mark with
      | some base => readMarked base rest
      | none => (readDecimalDigits? t).filter (· = 0)
    else readDecimalDigits? t
  | _ => readDecimalDigits? t

/-- Whether the text between blanks has a minus sign, and what follows the sign. -/
def splitSign (t : Text) : Bool × Text :=
  match strip t with
  | [] => (false, [])
  | c :: rest =>
    if c = CodePoint.ofChar '-' then (true, rest)
    else if c = CodePoint.ofChar '+' then (false, rest)
    else (false, c :: rest)

/-- Reads a numeral between blanks, with or without a sign, given how its digits are read. -/
def readSigned? (unsigned : Text → Option Nat) (t : Text) : Option Int :=
  let (negative, digits) := splitSign t
  (unsigned digits).map fun n => if negative then -(n : Int) else n

/-- Reads an integer literal, whose base its first code points choose. -/
def read? (t : Text) : Option Int := readSigned? readUnsigned? t

/-- Reads a decimal numeral, leading zeros allowed. -/
def readDecimal? (t : Text) : Option Int := readSigned? readDecimalDigits? t

/-- The number of digits of a decimal numeral, if it is too large. -/
def tooManyDigits? (t : Text) : Option Nat := excessDigits? (splitSign t).2

end ActionBlock.Numeral
