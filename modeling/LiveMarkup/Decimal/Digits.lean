/-
Numbers written in decimal digits.

An integer is written as one or more digits after at most one sign. A reader that has room for a
certain number of bits refuses what lies outside of two's complement. A real number is written as digits
with an optional point among them, at least one digit, between an optional sign and an optional exponent.
Infinity and what is no number are written as words, in any case.
-/
import LiveMarkup.Decimal.Binary
import LiveMarkup.Text.Ascii

set_option autoImplicit false

namespace LiveMarkup.Decimal

/-! ## Integers -/

/-- The integer, when it fits into two's complement of so many bits. -/
def fitting? (bits : Nat) (n : Int) : Option Int :=
  if -(twoTo (bits - 1) : Int) ≤ n ∧ n < twoTo (bits - 1) then some n else none

/-- The natural number that a text of digits writes; an empty text writes none. -/
def readDigits? (cs : List Char) : Option Nat :=
  if cs.isEmpty || cs.any (!·.isDigit) then none else some (Text.digitsValue 10 cs)

/-- The integer that a text writes, when it fits into so many bits. -/
def readInteger? (bits : Nat) (cs : List Char) : Option Int := do
  match cs with
  | '-' :: digits => fitting? bits (-(← readDigits? digits))
  | '+' :: digits => fitting? bits (← readDigits? digits)
  | digits => fitting? bits (← readDigits? digits)

/-- What fits is what was given. -/
theorem fitting?_eq_some {bits : Nat} {n m : Int} (h : fitting? bits n = some m) : m = n := by
  unfold fitting? at h
  split at h <;> simp_all

/-! ## Real numbers -/

/-- The sign at the start of a text, whether it is a minus, and what follows. -/
def takeSign : List Char → Bool × List Char
  | '-' :: cs => (true, cs)
  | '+' :: cs => (false, cs)
  | cs => (false, cs)

/-- The exponent that a text writes from its letter on; an empty text writes zero. -/
def readExponent? : List Char → Option Int
  | [] => some 0
  | e :: cs =>
    let (negative, digits) := takeSign cs
    if (e = 'e' ∨ e = 'E') ∧ digits ≠ [] ∧ digits.all Char.isDigit then
      let n : Int := Text.digitsValue 10 digits
      some (if negative then -n else n)
    else none

/-- The number in double precision that a text writes, without sign and in digits. -/
def readPositional? (negative : Bool) (cs : List Char) : Option Float := do
  let whole := cs.takeWhile Char.isDigit
  let rest := cs.drop whole.length
  let (places, rest) := match rest with
    | '.' :: rest => (rest.takeWhile Char.isDigit, rest.dropWhile Char.isDigit)
    | rest => ([], rest)
  let exponent ← readExponent? rest
  if whole.isEmpty && places.isEmpty then none
  else some (toFloat negative (Text.digitsValue 10 (whole ++ places)) (exponent - places.length))

/-- The number in double precision that a text writes. -/
def readReal? (text : String) : Option Float :=
  let (negative, cs) := takeSign text.toList
  match (String.ofList cs).toLower with
  | "inf" | "infinity" => some (if negative then -1 / 0 else 1 / 0)
  | "nan" => some (0 / 0)
  | _ => readPositional? negative cs

end LiveMarkup.Decimal
