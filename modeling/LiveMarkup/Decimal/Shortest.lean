/-
The shortest decimal text of a floating-point number.

Of all decimal numbers that read back as a given floating-point number, those with the fewest digits
are taken, and of those the nearest; of two that are equally near, the larger. Between two neighbouring
grids of decimal numbers nothing is lost: if a number of a grid reads back, so does the grid's neighbour
below or above the exact value, and these two are all that is looked at.

The text is always positional: there is no exponent, and a whole number has no point.
-/
import LiveMarkup.Decimal.Binary

set_option autoImplicit false

namespace LiveMarkup.Decimal

/-- A decimal number: `digits · 10 ^ power`. -/
structure Numeral where
  /-- The digits, as one number. -/
  digits : Nat
  /-- The power of ten by which they are multiplied. -/
  power : Int
deriving DecidableEq, Repr

/-- The number, as a quotient whose numerator and denominator are both scaled by a power of ten. -/
def tenfold (numerator denominator : Nat) (power : Int) : Nat × Nat :=
  (numerator * tenTo power.toNat, denominator * tenTo (-power).toNat)

/-- The interval of the numbers that read back as a floating-point number: its ends and the number
itself are quotients with one denominator, and `closed` tells whether the ends belong to it. -/
structure Interval where
  /-- The numerator of the lower end. -/
  low : Nat
  /-- The numerator of the number. -/
  middle : Nat
  /-- The numerator of the upper end. -/
  high : Nat
  /-- The common denominator. -/
  denominator : Nat
  /-- Whether the ends read back too. -/
  closed : Bool
deriving Repr

namespace Interval

/-- The interval of `mantissa · 2 ^ power`. The number below is nearer when the mantissa is the least
that its power has, unless that power is the lowest of the format. -/
def ofReading (f : Format) (mantissa : Nat) (power : Int) : Interval :=
  let step := twoTo power.toNat
  let below := if mantissa = twoTo f.fractionBits ∧ f.lowest < power then step else 2 * step
  ⟨4 * mantissa * step - below, 4 * mantissa * step, 4 * mantissa * step + 2 * step,
    4 * twoTo (-power).toNat, mantissa % 2 == 0⟩

/-- Whether `digits` of the grid `10 ^ power` lie in the interval. -/
def holds (i : Interval) (digits : Nat) (power : Int) : Bool :=
  let (n, d) := tenfold digits 1 power
  let value := n * i.denominator
  if i.closed then i.low * d ≤ value && value ≤ i.high * d
  else i.low * d < value && value < i.high * d

/-- The number of the grid `10 ^ power` that stands for the interval: one of the neighbours of its
middle that lies in it, the nearer of two, the upper one in a tie. -/
def onGrid? (i : Interval) (power : Int) : Option Numeral :=
  let (n, d) := tenfold i.middle i.denominator (-power)
  let under := n / d
  let nearer := if d ≤ 2 * (n % d) then under + 1 else under
  match i.holds under power, i.holds (under + 1) power with
  | false, false => none
  | true, true => some ⟨nearer, power⟩
  | true, false => some ⟨under, power⟩
  | false, true => some ⟨under + 1, power⟩

/-- The first grid, from `10 ^ power` to finer ones, with a number that lies in the interval. -/
def search (i : Interval) : Nat → Int → Option Numeral
  | 0, _ => none
  | grids + 1, power =>
    match i.onGrid? power with
    | some found => some found
    | none => search i grids (power - 1)

end Interval

/-- The shortest decimal number that reads back as `mantissa · 2 ^ power`. -/
def shortest (f : Format) (mantissa : Nat) (power : Int) : Numeral :=
  let i := Interval.ofReading f mantissa power
  let top := ((mantissa.log2 : Int) + power) * 30103 / 100000 + 1
  (i.search (f.fractionBits + 1) top).getD ⟨0, 0⟩

/-- A decimal number in positional notation. -/
def Numeral.positional (n : Numeral) : String :=
  let text := (toString n.digits).toList
  if 0 ≤ n.power then String.ofList (text ++ List.replicate n.power.toNat '0')
  else
    let places := (-n.power).toNat
    let padded := List.replicate (places + 1 - text.length) '0' ++ text
    let whole := padded.length - places
    String.ofList (padded.take whole ++ '.' :: padded.drop whole)

/-- The text of what a bit pattern stands for. A negative zero keeps its sign. -/
def Reading.text (f : Format) : Reading → String
  | .nan => "NaN"
  | .infinite negative => if negative then "-inf" else "inf"
  | .finite negative mantissa power =>
    let magnitude := if mantissa = 0 then "0" else (shortest f mantissa power).positional
    if negative then "-" ++ magnitude else magnitude

/-- The shortest text of a number of double precision. -/
def ofFloat (x : Float) : String := (Format.double.decode x.toBits.toNat).text Format.double

/-- The shortest text of a number of single precision. -/
def ofFloat32 (x : Float32) : String := (Format.single.decode x.toBits.toNat).text Format.single

end LiveMarkup.Decimal
