/-!
# Binary floating point

Numbers in the two binary formats, held as bit patterns so that the sign of a zero and the
payload of a NaN are kept. A finite magnitude is a whole number of units `n * 2 ^ unit`; in a
format the units of a number are counted with at most `precision` bits, and the exponent of
the unit lies between `least` and `most`.

`Format.round` takes a magnitude to the nearest one of a format, a tie to the even neighbour,
and is undefined beyond the largest. Conversions between the formats, and from integers, are
by this rounding; a NaN keeps its sign and the top of its payload and becomes quiet.
-/

namespace ActionBlock

-- Powers are those of the core library, whatever else is imported.
attribute [local instance (high)] instPowNat

/-- A quotient rounded to the nearest integer, a tie to the even neighbour. -/
def roundDiv (n d : Nat) : Nat :=
  let q := n / d
  let r := n % d
  if 2 * r < d then q else if d < 2 * r then q + 1 else q + q % 2

/-- A binary format: how many bits count the units, and the range of the unit's exponent. -/
structure Format where
  precision : Nat
  least : Int
  most : Int
  deriving DecidableEq, Repr

namespace Format

/-- The format of 32 bits. -/
def single : Format := ⟨24, -149, 104⟩

/-- The format of 64 bits. -/
def double : Format := ⟨53, -1074, 971⟩

/-- The magnitude nearest to `m * 2 ^ e`, as a number of units and the exponent of the unit. -/
def round (f : Format) (m : Nat) (e : Int) : Option (Nat × Int) :=
  if m = 0 then some (0, f.least)
  else
    let unit := max f.least (e + (m.log2 + 1 : Nat) - f.precision)
    let n := if unit ≤ e then m * 2 ^ (e - unit).toNat else roundDiv m (2 ^ (unit - e).toNat)
    let (n, unit) := if n = 2 ^ f.precision then (2 ^ (f.precision - 1), unit + 1) else (n, unit)
    if f.most < unit then none else some (n, unit)

/-- The bit pattern, sign apart, of `n` units. -/
def pack (f : Format) (n : Nat) (unit : Int) : Nat :=
  (unit - f.least).toNat * 2 ^ (f.precision - 1) + n

/-- The units of a bit pattern, sign apart, of a finite number. -/
def unpack (f : Format) (pattern : Nat) : Nat × Int :=
  let field := pattern / 2 ^ (f.precision - 1)
  let fraction := pattern % 2 ^ (f.precision - 1)
  if field = 0 then (fraction, f.least)
  else (fraction + 2 ^ (f.precision - 1), f.least + field - 1)

/-- The bit pattern, sign apart, of an infinity; those of NaNs are larger. -/
def infinity (f : Format) : Nat := (f.most - f.least + 2).toNat * 2 ^ (f.precision - 1)

end Format

/-- A number in the format of 32 bits, by its bit pattern. -/
structure Single where
  bits : UInt32
  deriving DecidableEq, Repr

/-- A number in the format of 64 bits, by its bit pattern. -/
structure Double where
  bits : UInt64
  deriving DecidableEq, Repr

/-- What a bit pattern denotes. -/
inductive Meaning where
  | nan
  | infinite (negative : Bool)
  | finite (negative : Bool) (n : Nat) (unit : Int)
  deriving DecidableEq, Repr

namespace Single

/-- Whether the sign bit is set. -/
def negative (x : Single) : Bool := 2 ^ (31 : Nat) ≤ x.bits.toNat

/-- The bit pattern without the sign bit. -/
def pattern (x : Single) : Nat := x.bits.toNat % 2 ^ (31 : Nat)

/-- The number with a sign and a bit pattern. -/
def ofPattern (negative : Bool) (pattern : Nat) : Single :=
  ⟨UInt32.ofNat ((if negative then 2 ^ (31 : Nat) else 0) + pattern)⟩

end Single

namespace Double

/-- Whether the sign bit is set. -/
def negative (x : Double) : Bool := 2 ^ (63 : Nat) ≤ x.bits.toNat

/-- The bit pattern without the sign bit. -/
def pattern (x : Double) : Nat := x.bits.toNat % 2 ^ (63 : Nat)

/-- The number with a sign and a bit pattern. -/
def ofPattern (negative : Bool) (pattern : Nat) : Double :=
  ⟨UInt64.ofNat ((if negative then 2 ^ (63 : Nat) else 0) + pattern)⟩

/-- What the bit pattern denotes. -/
def meaning (x : Double) : Meaning :=
  if Format.double.infinity < x.pattern then .nan
  else if x.pattern = Format.double.infinity then .infinite x.negative
  else
    let (n, unit) := Format.double.unpack x.pattern
    .finite x.negative n unit

/-- The number nearest to an integer, unless it is beyond the largest. -/
def ofInt? (n : Int) : Option Double :=
  (Format.double.round n.natAbs 0).map fun (m, unit) =>
    ofPattern (n < 0) (Format.double.pack m unit)

/-- The number nearest in the format of 32 bits, unless it is beyond the largest. -/
def toSingle? (x : Double) : Option Single :=
  match x.meaning with
  | .nan => some (.ofPattern x.negative (Format.single.infinity + 2 ^ (22 : Nat) +
      (x.pattern % 2 ^ (52 : Nat) / 2 ^ (29 : Nat)) % 2 ^ (22 : Nat)))
  | .infinite negative => some (.ofPattern negative Format.single.infinity)
  | .finite negative n unit =>
    (Format.single.round n unit).map fun (m, unit) =>
      .ofPattern negative (Format.single.pack m unit)

/-- The number of the format of 32 bits, in that of 64. -/
def ofSingle (x : Single) : Double :=
  if Format.single.infinity < x.pattern then
    ofPattern x.negative (Format.double.infinity + 2 ^ (51 : Nat) +
      (x.pattern % 2 ^ (22 : Nat)) * 2 ^ (29 : Nat))
  else if x.pattern = Format.single.infinity then
    ofPattern x.negative Format.double.infinity
  else
    let (n, unit) := Format.single.unpack x.pattern
    match Format.double.round n unit with
    | some (m, unit) => ofPattern x.negative (Format.double.pack m unit)
    | none => ofPattern x.negative Format.double.infinity

/-- How a number compares with an integer; a NaN does not. -/
def compareInt? (x : Double) (i : Int) : Option Ordering :=
  match x.meaning with
  | .nan => none
  | .infinite negative => some (if negative then .lt else .gt)
  | .finite negative n unit =>
    let n : Int := if negative then -n else n
    if 0 ≤ unit then some (compare (n * 2 ^ unit.toNat) i)
    else some (compare n (i * 2 ^ (-unit).toNat))

/-- Equality of numbers: the two zeros are equal, and a NaN is equal to nothing. -/
def equal (x y : Double) : Bool :=
  x.meaning ≠ .nan && y.meaning ≠ .nan && (x = y || (x.pattern = 0 && y.pattern = 0))

/-- The integer part of a finite number. -/
def truncate? (x : Double) : Option Int :=
  match x.meaning with
  | .finite negative n unit =>
    let n := if 0 ≤ unit then n * 2 ^ unit.toNat else n / 2 ^ (-unit).toNat
    some (if negative then -n else n)
  | _ => none

/-- The number nearest to the sum of a number and an integer. -/
def addInt (x : Double) (i : Int) : Double :=
  match x.meaning with
  | .finite negative n unit =>
    let least := min unit 0
    let n : Int := if negative then -n else n
    let sum := n * 2 ^ (unit - least).toNat + i * 2 ^ (-least).toNat
    match Format.double.round sum.natAbs least with
    | some (m, unit) => ofPattern (sum < 0) (Format.double.pack m unit)
    | none => ofPattern (sum < 0) Format.double.infinity
  | _ => x

/-- Whether a number is not zero. -/
def isNonzero (x : Double) : Bool := x.pattern ≠ 0

end Double

end ActionBlock
