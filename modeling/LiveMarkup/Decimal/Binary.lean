/-
Binary floating-point formats.

A format has a number of fraction bits and a number of exponent bits. `decode` reads a bit pattern as a
sign with a multiple of a power of two, and `round` finds the bit pattern nearest to a quotient of two
natural numbers; a tie goes to the even pattern. Everything is computed in natural numbers, so nothing
is rounded on the way.
-/

set_option autoImplicit false

namespace LiveMarkup.Decimal

/-- The power of two with an exponent. -/
def twoTo (n : Nat) : Nat := Nat.pow 2 n

/-- The power of ten with an exponent. -/
def tenTo (n : Nat) : Nat := Nat.pow 10 n

/-- A binary floating-point format: one sign bit, the exponent bits, the fraction bits. -/
structure Format where
  /-- The number of fraction bits. -/
  fractionBits : Nat
  /-- The number of exponent bits. -/
  exponentBits : Nat
deriving DecidableEq, Repr

namespace Format

/-- The format of `Float`. -/
def double : Format := ⟨52, 11⟩

/-- The format of `Float32`. -/
def single : Format := ⟨23, 8⟩

/-- The power of two that the smallest number other than zero is. -/
def lowest (f : Format) : Int := 2 - twoTo (f.exponentBits - 1) - f.fractionBits

/-- The bit pattern of positive infinity. -/
def infinity (f : Format) : Nat := (twoTo f.exponentBits - 1) * twoTo f.fractionBits

/-- The bit that tells a negative number. -/
def signBit (f : Format) : Nat := twoTo (f.fractionBits + f.exponentBits)

end Format

/-- What a bit pattern stands for. -/
inductive Reading where
  /-- The number `mantissa · 2 ^ power`, with its sign. -/
  | finite (negative : Bool) (mantissa : Nat) (power : Int)
  | infinite (negative : Bool)
  | nan
deriving DecidableEq, Repr

/-- What a bit pattern of a format stands for. -/
def Format.decode (f : Format) (bits : Nat) : Reading :=
  let negative := decide (f.signBit ≤ bits)
  let magnitude := bits % f.signBit
  let exponent := magnitude / twoTo f.fractionBits
  let fraction := magnitude % twoTo f.fractionBits
  if magnitude = f.infinity then .infinite negative
  else if f.infinity < magnitude then .nan
  else if exponent = 0 then .finite negative fraction f.lowest
  else .finite negative (twoTo f.fractionBits + fraction) (f.lowest + exponent - 1)

/-- The natural number nearest to a quotient; a tie goes to the even one. -/
def roundQuotient (numerator denominator : Nat) : Nat :=
  let quotient := numerator / denominator
  let rest := 2 * (numerator % denominator)
  if rest < denominator then quotient
  else if denominator < rest then quotient + 1
  else quotient + quotient % 2

/-- A quotient multiplied by a power of two, as a new quotient. -/
def scale (numerator denominator : Nat) (power : Int) : Nat × Nat :=
  (numerator * twoTo power.toNat, denominator * twoTo (-power).toNat)

/-- The bit pattern nearest to a positive quotient. -/
def Format.round (f : Format) (numerator denominator : Nat) : Nat :=
  if numerator = 0 then 0
  else
    let guess : Int := (numerator.log2 : Int) - denominator.log2
    let (n, d) := scale numerator denominator (-guess)
    let log : Int := if d ≤ n then guess else guess - 1
    let power := max f.lowest (log - f.fractionBits)
    let (n, d) := scale numerator denominator (-power)
    min f.infinity ((power - f.lowest).toNat * twoTo f.fractionBits + roundQuotient n d)

/-- The bit pattern nearest to the decimal number `digits · 10 ^ power`. Powers far outside the range of
the format are not computed. -/
def Format.ofDecimal (f : Format) (digits : Nat) (power : Int) : Nat :=
  if digits = 0 then 0
  else if power + digits.log2 / 3 < -(twoTo f.exponentBits : Int) then 0
  else if twoTo f.exponentBits < power then f.infinity
  else f.round (digits * tenTo power.toNat) (tenTo (-power).toNat)

/-- The number of double precision nearest to a decimal number with a sign. -/
def toFloat (negative : Bool) (digits : Nat) (power : Int) : Float :=
  let magnitude := Format.double.ofDecimal digits power
  Float.ofBits (if negative then Format.double.signBit + magnitude else magnitude).toUInt64

end LiveMarkup.Decimal
