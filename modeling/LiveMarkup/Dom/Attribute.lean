/-
Attributes of elements.

An element's attributes are a list of names with values, in the order in which they were written.
Names of markup are looked up without regard to the case of ASCII letters.
-/
import LiveMarkup.Text.Ascii

set_option autoImplicit false

namespace LiveMarkup

/-- A name with its value. -/
structure Attribute where
  /-- The name. -/
  name : String
  /-- The value, with character references already decoded. -/
  value : String
deriving DecidableEq, Repr, Inhabited

end LiveMarkup
