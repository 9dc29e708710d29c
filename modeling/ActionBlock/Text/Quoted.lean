import ActionBlock.Bytes
import ActionBlock.Text.Numeral
import ActionBlock.Text.Printable

/-!
# Quoted text

Text and byte strings as they appear in listings and messages: between single quotes, or
between double quotes if there is a single quote and no double quote inside. A backslash and
the quote are escaped, as are the code points that cannot be shown. Where bytes are looked at one
by one they are pairs of hexadecimal digits instead, with a blank between each two pairs.
-/

namespace ActionBlock

namespace Quoted

/-- The quote that goes around code points. -/
def quoteFor (t : Text) : CodePoint :=
  if t.contains (CodePoint.ofChar '\'') && !t.contains (CodePoint.ofChar '"') then
    CodePoint.ofChar '"'
  else CodePoint.ofChar '\''

/-- The escape of a code point by its number. -/
def numbered (c : CodePoint) : Text :=
  if c.val < 0x100 then "\\x" ++ Numeral.hexLower 2 c.val
  else if c.val < 0x10000 then "\\u" ++ Numeral.hexLower 4 c.val
  else "\\U" ++ Numeral.hexLower 8 c.val

/-- Escapes a code point where needed, given which code points can be shown. -/
def escape (shown : CodePoint → Bool) (quote c : CodePoint) : Text :=
  if c = quote ∨ c = CodePoint.ofChar '\\' then [CodePoint.ofChar '\\', c]
  else if c = CodePoint.ofChar '\t' then "\\t"
  else if c = CodePoint.ofChar '\n' then "\\n"
  else if c = CodePoint.ofChar '\r' then "\\r"
  else if shown c then [c]
  else numbered c

/-- Whether a code point is one of the visible ones of ASCII, or its blank. -/
def isVisibleAscii (c : CodePoint) : Bool := 0x20 ≤ c.val && c.val < 0x7F

/-- Whether a code point of a text is shown as it is. -/
def isShown (c : CodePoint) : Bool := isVisibleAscii c || (0x7F < c.val && c.isPrintable)

/-- Quotes code points. -/
def wrap (shown : CodePoint → Bool) (t : Text) : Text :=
  let quote := quoteFor t
  quote :: (t.flatMap (escape shown quote) ++ [quote])

/-- A text in quotes. -/
def text (t : Text) : Text := wrap isShown t

/-- A byte string in quotes. -/
def bytes (b : Bytes) : Text := "b" ++ wrap isVisibleAscii (b.map fun x => Fin.ofNat _ x.toNat)

end Quoted

/-- Bytes as pairs of hexadecimal digits in upper case. -/
def Bytes.hex (bytes : Bytes) : Text :=
  Text.join " " (bytes.map fun b => Numeral.hexUpper 2 b.toNat)

end ActionBlock
