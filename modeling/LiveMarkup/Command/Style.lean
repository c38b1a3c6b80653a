/-
Coloured text.

A terminal changes its colour or weight at an escape sequence, so a coloured text stands between the
sequence that turns its style on and the one that turns it off.
-/

set_option autoImplicit false

namespace LiveMarkup.Command

/-- The ways in which text is made to stand out. -/
inductive Style where
  | bold
  | dimmed
  | green
  | yellow
  | cyan
deriving DecidableEq, Repr

namespace Style

/-- The numbers that turn a style on and off. -/
def codes : Style → String × String
  | bold => ("1", "0")
  | dimmed => ("2", "0")
  | green => ("32", "39")
  | yellow => ("33", "39")
  | cyan => ("36", "39")

/-- The escape sequence with a number. -/
def escape (code : String) : String := "\x1b[" ++ code ++ "m"

/-- A text in a style. -/
def paint (s : Style) (text : String) : String := escape s.codes.1 ++ text ++ escape s.codes.2

end Style

/-- A text filled up with spaces to a number of characters. -/
def padded (width : Nat) (text : String) : String :=
  text ++ String.ofList (List.replicate (width - text.length) ' ')

end LiveMarkup.Command
