/-
Lines and columns.

The editor counts lines from one and columns from one, in UTF-16 code units. A line ends at a line feed;
a carriage return before it belongs to the line. Both directions walk through the text from its start.
-/
import LiveMarkup.Span

set_option autoImplicit false

namespace LiveMarkup.Source

open Text

/-- A place in the editor. -/
structure Position where
  /-- The line, counted from one. -/
  line : Nat
  /-- The column, counted from one in UTF-16 code units. -/
  column : Nat
deriving DecidableEq, Repr

namespace Position

/-- The start of a text. -/
def start : Position := ⟨1, 1⟩

/-- The place after a character. -/
def after (p : Position) (c : Char) : Position :=
  if c = '\n' then ⟨p.line + 1, 1⟩ else ⟨p.line, p.column + unitSize c⟩

/-- The place of a byte offset in a text that stands at a place. An offset inside a character counts as
that of the character, one past the end as the end. -/
def walk (p : Position) : List Char → Nat → Position
  | [], _ => p
  | c :: cs, offset => if c.utf8Size ≤ offset then walk (p.after c) cs (offset - c.utf8Size) else p

/-- The place of a byte offset. -/
def ofOffset (text : String) (offset : Nat) : Position := walk start text.toList offset

/-- The byte offset of a place, in a text that stands at an offset and a place. -/
def seek (target p : Position) (offset : Nat) : List Char → Option Nat
  | [] => if p = target then some offset else none
  | c :: cs => if p = target then some offset else seek target (p.after c) (offset + c.utf8Size) cs

/-- The byte offset of a place, if it is a place of the text. -/
def offset? (p : Position) (text : String) : Option Nat := seek p start 0 text.toList

end Position

/-- A range of places in the editor. -/
structure EditorRange where
  /-- The place of the first character. -/
  start : Position
  /-- The place after the last character. -/
  stop : Position
deriving DecidableEq, Repr

/-- The range of places of a span. -/
def EditorRange.ofSpan (text : String) (s : Span) : EditorRange :=
  ⟨.ofOffset text s.start, .ofOffset text s.stop⟩

/-- The number of lines of a text; an empty text has one. -/
def lineCount (text : String) : Nat := text.toList.count '\n' + 1

end LiveMarkup.Source
