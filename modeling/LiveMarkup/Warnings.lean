/-
Warnings that are given once.

Markup and style sheets are read again at every key press, so a warning about them would be repeated
each time. The warnings given so far are kept, each as the line it was given in.
-/

set_option autoImplicit false

namespace LiveMarkup

/-- The warnings given so far. -/
structure Warnings where
  lines : List String
deriving DecidableEq, Repr

namespace Warnings

/-- No warnings yet. -/
def none : Warnings := ⟨[]⟩

/-- The line of a warning. -/
def line (component message : String) : String := "[" ++ component ++ "] " ++ message

/-- Whether a line was given before. -/
def contains (w : Warnings) (component message : String) : Bool := w.lines.contains (line component message)

/-- Gives a warning, if it was not given before. -/
def warn (w : Warnings) (component message : String) : Warnings :=
  if w.contains component message then w else ⟨line component message :: w.lines⟩

end Warnings

end LiveMarkup
