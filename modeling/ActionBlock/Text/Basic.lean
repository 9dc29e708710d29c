/-!
# Text

Text is a list of code points. Surrogates are code points like any other, since a lone one
can stand for a byte that could not be decoded; this is why text is not a `String`.
-/

namespace ActionBlock

/-- A Unicode code point, surrogates included. -/
abbrev CodePoint := Fin 0x110000

/-- There are code points, so that numbers can be taken as code points. -/
instance neZero_codePoints : @NeZero Nat Zero.ofOfNat0 0x110000 := ⟨by decide⟩

/-- A sequence of code points. -/
abbrev Text := List CodePoint

namespace CodePoint

/-- The code point of a character. -/
def ofChar (c : Char) : CodePoint := Fin.ofNat _ c.toNat

/-- Whether a code point is a surrogate. -/
def isSurrogate (c : CodePoint) : Bool := 0xD800 ≤ c.val && c.val ≤ 0xDFFF

/-- The surrogate that stands for a byte outside of ASCII that could not be decoded. -/
def ofEscapedByte (b : UInt8) : CodePoint := Fin.ofNat _ (0xDC00 + b.toNat)

/-- The byte that a surrogate stands for, if it stands for one. -/
def escapedByte? (c : CodePoint) : Option UInt8 :=
  if 0xDC80 ≤ c.val ∧ c.val ≤ 0xDCFF then some (UInt8.ofNat (c.val - 0xDC00)) else none

end CodePoint

namespace Text

/-- The text of a string. -/
def ofString (s : String) : Text := s.toList.map CodePoint.ofChar

instance : Coe String Text := ⟨ofString⟩

/-- The texts of a list, with a separator between each two. -/
def join (separator : Text) : List Text → Text
  | [] => []
  | t :: rest => t ++ rest.flatMap (separator ++ ·)

/-- The text after a separator, or nothing if the text is empty. -/
def afterSeparator (separator t : Text) : Text := if t = [] then [] else separator ++ t

/-- The text with blanks added on its right, up to the given width. -/
def padRight (width : Nat) (t : Text) : Text :=
  t ++ List.replicate (width - t.length) (CodePoint.ofChar ' ')

/-- The text without the copies of a code point at its end. -/
def dropTrailing (c : CodePoint) (t : Text) : Text :=
  (t.reverse.dropWhile (· == c)).reverse

end Text

end ActionBlock
