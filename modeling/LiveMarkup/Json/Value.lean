/-
JSON values.

A value keeps what its text says and decides nothing more: a number stays as its digits until it is
read as an integer or in double precision, and an object keeps its members in order with repeated names.
A string with an escaped surrogate that belongs to no pair is grammatical but has no text, and an object
with such a name has no members to look up.
-/
import LiveMarkup.Decimal.Binary
import LiveMarkup.Text.Ascii

set_option autoImplicit false

namespace LiveMarkup

/-- A number as it is written. -/
structure Numeral where
  /-- Whether it starts with a minus. -/
  negative : Bool
  /-- The digits before the point. -/
  whole : List Char
  /-- The digits after the point; none without a point. -/
  fraction : List Char
  /-- The exponent, if there is one. -/
  exponent : Option Int
deriving DecidableEq, Repr

/-- A JSON value. -/
inductive Json where
  | null
  | bool (b : Bool)
  | number (n : Numeral)
  | string (text : String)
  /-- A string that stands for no text. -/
  | brokenString
  | array (items : List Json)
  | object (members : List (String × Json))
  /-- An object with a name that stands for no text. -/
  | brokenObject
deriving Repr, Inhabited

namespace Numeral

/-- A natural number. -/
def ofNat (n : Nat) : Numeral := ⟨false, (toString n).toList, [], none⟩

/-- The integer that is written, when it is written as one and fits into 64 bits, with or without a
sign. The negative zero is no integer. -/
def integer? (n : Numeral) : Option Int :=
  let magnitude := Text.digitsValue 10 n.whole
  if !n.fraction.isEmpty || n.exponent.isSome then none
  else if n.negative then
    if 0 < magnitude ∧ magnitude ≤ Decimal.twoTo 63 then some (-magnitude) else none
  else if magnitude < Decimal.twoTo 64 then some magnitude else none

/-- Puts digits behind a number as long as it fits into 64 bits; gives the number and the digits that
are left. -/
def gather : Nat → List Char → Nat × List Char
  | n, [] => (n, [])
  | n, c :: cs =>
    let next := 10 * n + (Text.digitValue? 10 c).getD 0
    if next < Decimal.twoTo 64 then gather next cs else (n, c :: cs)

/-- A power of ten in double precision. -/
def powerOfTen (power : Nat) : Float := Decimal.toFloat false 1 power

/-- A number multiplied by a power of ten, step by step where the power has no value in double
precision; none above the range. -/
def scaled (x : Float) (power : Int) : Option Float :=
  if 0 ≤ power then
    if 308 < power then if x == 0 then some x else none
    else
      let y := x * powerOfTen power.toNat
      if y.isInf then none else some y
  else if -308 ≤ power then some (x / powerOfTen (-power).toNat)
  else if x == 0 then some x
  else scaled (x / powerOfTen 308) (power + 308)
termination_by (-power).toNat
decreasing_by omega

/-- The number in double precision; none above the range. The leading digits that fit into 64 bits make
a number in double precision, which is then multiplied or divided by a power of ten. -/
def real? (n : Numeral) : Option Float :=
  let (leading, dropped) := gather 0 n.whole
  let (significand, left) := gather leading n.fraction
  let power : Int := n.exponent.getD 0 + dropped.length - (n.fraction.length - left.length)
  (scaled (Decimal.toFloat false significand 0) power).map fun x => if n.negative then -x else x

end Numeral

mutual

/-- Whether all that a value holds can be read: strings have texts and numbers are in range. -/
def Json.isReadable : Json → Bool
  | .number n => n.real?.isSome
  | .brokenString | .brokenObject => false
  | .array items => allReadable items
  | .object members => allMembersReadable members
  | _ => true

/-- Whether all items can be read. -/
def allReadable : List Json → Bool
  | [] => true
  | j :: rest => j.isReadable && allReadable rest

/-- Whether the values of all members can be read. -/
def allMembersReadable : List (String × Json) → Bool
  | [] => true
  | (_, j) :: rest => j.isReadable && allMembersReadable rest

end

mutual

/-- How deep arrays and objects are nested in a value. -/
def Json.depth : Json → Nat
  | .array items => depthOfItems items + 1
  | .object members => depthOfMembers members + 1
  | _ => 0

/-- How deep arrays and objects are nested in the items. -/
def depthOfItems : List Json → Nat
  | [] => 0
  | j :: rest => max j.depth (depthOfItems rest)

/-- How deep arrays and objects are nested in the members. -/
def depthOfMembers : List (String × Json) → Nat
  | [] => 0
  | (_, j) :: rest => max j.depth (depthOfMembers rest)

end

end LiveMarkup
