import ActionBlock.Fault

/-!
# Hex dumps

A hex dump shows data in lines of a fixed number of bytes: the address of the first byte of the
line, the bytes in hexadecimal, and the bytes as characters, those that are not printable as
points.
-/

namespace ActionBlock.HexDump

/-- Cuts data into pieces of a width, the last of which may be shorter. The pieces already cut
stand in reverse order; the number of bytes bounds the number of pieces. -/
def chunksFrom (width : Nat) : Nat → Bytes → List Bytes → List Bytes
  | 0, _, done => done.reverse
  | _ + 1, [], done => done.reverse
  | more + 1, data, done => chunksFrom width more (data.drop width) (data.take width :: done)

/-- Cuts data into pieces of a width, the last of which may be shorter. -/
def chunks (width : Nat) (data : Bytes) : List Bytes := chunksFrom width data.length data []

/-- A byte as a character. -/
def character (b : UInt8) : CodePoint :=
  if 0x20 ≤ b.toNat ∧ b.toNat < 0x7F then Fin.ofNat _ b.toNat else CodePoint.ofChar '.'

/-- The line for some bytes, in a dump of the given width. -/
def line (width : Nat) (address : Int) (chunk : Bytes) : Text :=
  Numeral.hexLower 8 address ++ "  " ++ (Bytes.hex chunk).padRight (width * 3 - 1) ++ "  " ++
    chunk.map character

/-- The lines of the dump of data, whose first byte has the given address. A negative width
gives no lines. -/
def lines (data : Bytes) (address width : Int) : Except Fault (List Text) :=
  if width = 0 then .error .zeroWidth
  else if width < 0 then .ok []
  else
    .ok ((chunks width.toNat data).zipIdx.map fun (chunk, (i : Nat)) =>
      line width.toNat (address + width * i) chunk)

end ActionBlock.HexDump
