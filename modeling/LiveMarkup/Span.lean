/-
Source ranges.

A span is a half-open range of byte offsets into a source text. Spans that the parser records lie in
the text and on character boundaries; a span may also be given from outside, so slicing is partial.
-/
import LiveMarkup.Text.Bytes
import LiveMarkup.Text.Units

set_option autoImplicit false

namespace LiveMarkup

/-- The bytes from `start` up to, but not including, `stop`. -/
structure Span where
  /-- Offset of the first byte. -/
  start : Nat
  /-- Offset one past the last byte. -/
  stop : Nat
deriving DecidableEq, Repr, Inhabited

namespace Span

/-- The span between two offsets, when they are in order. -/
def ofBounds? (start stop : Nat) : Option Span :=
  if stop < start then none else some ⟨start, stop⟩

/-- The length in bytes. -/
def length (s : Span) : Nat := s.stop - s.start

/-- Whether the span covers no byte. -/
def isEmpty (s : Span) : Bool := s.start == s.stop

/-- Whether a byte offset lies in the span. -/
def contains (s : Span) (offset : Nat) : Bool := s.start ≤ offset && offset < s.stop

/-- Whether the span lies in a text, on character boundaries and in order. -/
def fits (s : Span) (source : List Char) : Bool := (Text.slice? source s.start s.stop).isSome

/-- The text that the span covers, when it lies in the source on character boundaries. -/
def slice? (s : Span) (source : String) : Option String :=
  (Text.slice? source.toList s.start s.stop).map String.ofList

/-- The same range counted in UTF-16 code units. -/
def toUnits (s : Span) (source : String) : Span :=
  ⟨Text.unitOffset source.toList s.start, Text.unitOffset source.toList s.stop⟩

/-- Whether the two spans have no byte in common and stand in this order. -/
def before (s t : Span) : Prop := s.stop ≤ t.start

/-- The text with the part that the span covers replaced. Both ends of the span must lie on character
boundaries of the text, in order. -/
def splice? (s : Span) (source replacement : String) : Option String := do
  if s.stop < s.start then none
  let (head, rest) ← Text.splitAt? source.toList s.start
  let (_, tail) ← Text.splitAt? rest (s.stop - s.start)
  return String.ofList (head ++ replacement.toList ++ tail)

end Span

end LiveMarkup
