import ActionBlock.Text.Numeral
import ActionBlock.Number.Binary

/-!
# Decimal numerals of binary numbers

A finite number is written with the fewest significant digits that single it out among the
numbers of its format, the nearest such decimal if there are several, a tie to the even digit.
The numerals considered lie in the interval of reals that round to the number; its ends belong
to it if the number of units is even.

Numbers can also be written with a fixed number of places, rounded from their exact value.
-/

namespace ActionBlock

-- Powers are those of the core library, whatever else is imported.
attribute [local instance (high)] instPowNat

namespace Decimal

/-- A positive decimal: `digits * 10 ^ exponent`. -/
structure Scientific where
  digits : Nat
  exponent : Int
  deriving DecidableEq, Repr

/-- A value with the interval of reals around it, all four times the numbers they stand for,
over a common denominator. -/
structure Interval where
  low : Nat
  value : Nat
  high : Nat
  denominator : Nat
  closed : Bool

/-- The interval of the reals that round to `n * 2 ^ unit`. Below a power of two the numbers lie
twice as close. -/
def interval (f : Format) (n : Nat) (unit : Int) : Interval :=
  let up := 2 ^ unit.toNat
  let narrow := n = 2 ^ (f.precision - 1) && f.least < unit
  { low := (4 * n - (if narrow then 1 else 2)) * up
    value := 4 * n * up
    high := (4 * n + 2) * up
    denominator := 4 * 2 ^ (-unit).toNat
    closed := n % 2 = 0 }

/-- Multiplies the numbers of an interval by a power of ten. -/
def Interval.scale (i : Interval) (power : Int) : Interval :=
  let up := 10 ^ power.toNat
  { i with
    low := i.low * up
    value := i.value * up
    high := i.high * up
    denominator := i.denominator * 10 ^ (-power).toNat }

/-- Whether a whole number lies in the interval. -/
def Interval.contains (i : Interval) (d : Nat) : Bool :=
  let d := d * i.denominator
  if i.closed then i.low ≤ d && d ≤ i.high else i.low < d && d < i.high

/-- The whole number in the interval that is nearest to its value, of the two neighbours of
that value. -/
def Interval.neighbour? (i : Interval) : Option Nat :=
  let below := i.value / i.denominator
  match i.contains below, i.contains (below + 1) with
  | true, true => some (roundDiv i.value i.denominator)
  | true, false => some below
  | false, true => some (below + 1)
  | false, false => none

/-- The least exponent of a power of ten above `n * 2 ^ unit`. -/
def magnitude (n : Nat) (unit : Int) : Int :=
  let estimate := ((n.log2 : Int) + unit) * 30103 / 100000
  let atLeast (k : Int) : Bool :=
    10 ^ k.toNat * 2 ^ (-unit).toNat ≤ n * 2 ^ unit.toNat * 10 ^ (-k).toNat
  if !atLeast estimate then estimate
  else if !atLeast (estimate + 1) then estimate + 1
  else estimate + 2

/-- Tries numerals of more and more digits, up to the given number of further ones. -/
def shortestFrom (i : Interval) (top : Int) (size : Nat) : Nat → Scientific
  | 0 => ⟨roundDiv (i.scale (size - top)).value (i.scale (size - top)).denominator, top - size⟩
  | more + 1 =>
    match (i.scale (size - top)).neighbour? with
    | some d => ⟨d, top - size⟩
    | none => shortestFrom i top (size + 1) more

/-- The shortest decimal that rounds to `n * 2 ^ unit`, which is not zero. -/
def shortest (f : Format) (n : Nat) (unit : Int) : Scientific :=
  shortestFrom (interval f n unit) (magnitude n unit) 1 17

/-! ### Layout -/

/-- The exponents, of the first digit, between which a numeral is written without an exponent,
the upper one excluded. -/
def positional : Int × Int := (-4, 16)

/-- The numeral of a positive decimal. -/
def Scientific.text (s : Scientific) : Text :=
  let all := Numeral.nat s.digits
  let ds := Text.dropTrailing (CodePoint.ofChar '0') all
  let exponent := s.exponent + all.length - 1
  let zeros (k : Nat) : Text := List.replicate k (CodePoint.ofChar '0')
  if positional.1 ≤ exponent ∧ exponent < positional.2 then
    if exponent < 0 then "0." ++ zeros (-exponent - 1).toNat ++ ds
    else
      let whole := exponent.toNat + 1
      if ds.length ≤ whole then ds ++ zeros (whole - ds.length) ++ ".0"
      else ds.take whole ++ "." ++ ds.drop whole
  else
    let mantissa := if ds.length ≤ 1 then ds else ds.take 1 ++ "." ++ ds.drop 1
    mantissa ++ "e" ++ (if exponent < 0 then "-" else "+") ++
      Numeral.zeroPad 2 false (Numeral.nat exponent.natAbs)

end Decimal

namespace Double

/-- The shortest numeral of a number. -/
def text (x : Double) : Text :=
  match x.meaning with
  | .nan => "nan"
  | .infinite negative => if negative then "-inf" else "inf"
  | .finite negative n unit =>
    let sign : Text := if negative then "-" else []
    sign ++ (if n = 0 then ("0.0" : Text) else (Decimal.shortest .double n unit).text)

/-- The numeral of a number over a power of 1024, with one place, a tie to the even digit. -/
def onePlace (x : Double) (power : Nat) : Text :=
  match x.meaning with
  | .nan => "nan"
  | .infinite negative => if negative then "-inf" else "inf"
  | .finite negative n unit =>
    let sign : Text := if negative then "-" else []
    let unit := unit - 10 * power
    let tenths := roundDiv (10 * n * 2 ^ unit.toNat) (2 ^ (-unit).toNat)
    sign ++ Numeral.nat (tenths / 10) ++ "." ++ Numeral.nat (tenths % 10)

end Double

end ActionBlock
