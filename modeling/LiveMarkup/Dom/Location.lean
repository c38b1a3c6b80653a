/-
Where an element stands in its source text.

The parser records the span of the start tag, the span of the end tag when one closed the element, and
the span of the whole element. An element that is closed without an end tag extends to the offset at
which it was closed.
-/
import LiveMarkup.Span

set_option autoImplicit false

namespace LiveMarkup

/-- Where an element's markup stands in the source text. -/
structure Location where
  /-- The start tag, angle brackets included. -/
  startTag : Span
  /-- The end tag, when one closed the element. -/
  endTag : Option Span
  /-- From the start of the start tag to the end of the element. -/
  span : Span
  /-- Whether the start tag ends with a slash. -/
  selfClosing : Bool
deriving DecidableEq, Repr

namespace Location

/-- The location of an element that was just opened: it extends to the end of its start tag. -/
def opened (startTag : Span) (selfClosing : Bool) : Location :=
  ⟨startTag, none, startTag, selfClosing⟩

/-- The location of the element once it is closed at an offset without an end tag. -/
def closedAt (l : Location) (offset : Nat) : Location :=
  { l with span := ⟨l.span.start, max offset l.startTag.stop⟩ }

/-- The location of the element once an end tag closed it. -/
def closedBy (l : Location) (endTag : Span) : Location :=
  { l with endTag := some endTag, span := ⟨l.span.start, endTag.stop⟩ }

/-- What stands between the two tags, when both are known. -/
def inner? (l : Location) : Option Span :=
  l.endTag.bind fun endTag => Span.ofBounds? l.startTag.stop endTag.start

end Location

end LiveMarkup
