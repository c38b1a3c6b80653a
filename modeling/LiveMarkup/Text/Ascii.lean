/-
ASCII classes and ASCII case.

Markup and style sheets are case-insensitive in ASCII only: `A` and `a` name the same element, `Ä` and
`ä` do not. Core's `Char.toLower`, `Char.isAlpha`, `Char.isAlphanum` and `Char.isDigit` know exactly
the ASCII letters and digits, which is what is wanted here.
-/

set_option autoImplicit false

namespace LiveMarkup.Text

/-- ASCII white space: tab, line feed, form feed, carriage return and space. -/
def isAsciiSpace (c : Char) : Bool :=
  c == ' ' || c == '\t' || c == '\n' || c == '\x0c' || c == '\x0d'

/-- Whether two texts are equal up to the case of ASCII letters. -/
def eqIgnoreCase (s t : String) : Bool :=
  s.toLower == t.toLower

/-- Whether `cs` begins with `word`, up to the case of ASCII letters. -/
def startsWithIgnoreCase (cs : List Char) (word : String) : Bool :=
  (cs.take word.length).map Char.toLower == word.toList.map Char.toLower

/-- The value of a digit in a base up to sixteen. -/
def digitValue? (base : Nat) (c : Char) : Option Nat :=
  let value :=
    if '0' ≤ c ∧ c ≤ '9' then c.toNat - '0'.toNat
    else if 'a' ≤ c ∧ c ≤ 'f' then c.toNat - 'a'.toNat + 10
    else if 'A' ≤ c ∧ c ≤ 'F' then c.toNat - 'A'.toNat + 10
    else base
  if value < base then some value else none

/-- Whether `c` is a digit of the base. -/
def isDigitOf (base : Nat) (c : Char) : Bool :=
  (digitValue? base c).isSome

/-- The number that digits of a base write; other characters count as zero. -/
def digitsValue (base : Nat) (cs : List Char) : Nat :=
  cs.foldl (fun n c => base * n + (digitValue? base c).getD 0) 0

/-- A digit is below its base. -/
theorem lt_of_digitValue? {base n : Nat} {c : Char} (h : digitValue? base c = some n) : n < base := by
  simp only [digitValue?, Option.ite_none_right_eq_some, Option.some.injEq] at h
  exact h.2 ▸ h.1

end LiveMarkup.Text
