/-
UTF-16 code units.

The editor's text control counts UTF-16 code units: one for a character of the basic plane, two for
any other. A byte offset inside a character counts that character as not yet reached.
-/
import LiveMarkup.Text.Bytes

set_option autoImplicit false

namespace LiveMarkup.Text

/-- The number of UTF-16 code units of a character. -/
def unitSize (c : Char) : Nat :=
  if c.toNat < 0x10000 then 1 else 2

/-- The UTF-16 code units of the characters that lie wholly before a byte offset. -/
def unitOffset : List Char → Nat → Nat
  | [], _ => 0
  | c :: cs, offset =>
    if c.utf8Size ≤ offset then unitSize c + unitOffset cs (offset - c.utf8Size) else 0

/-- The UTF-16 code units that write a character: itself, or a surrogate pair. -/
def units (c : Char) : List UInt16 :=
  if c.toNat < 0x10000 then [c.toNat.toUInt16]
  else
    let v := c.toNat - 0x10000
    [(0xd800 + v / 0x400).toUInt16, (0xdc00 + v % 0x400).toUInt16]

end LiveMarkup.Text
