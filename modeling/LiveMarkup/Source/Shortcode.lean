/-
Shortcodes.

A shortcode is a placeholder in square brackets: `[note /]`, `[gallery ids="1,2"]`, or a pair such as
`[quote]text[/quote]`. An opening tag that is followed later by the closing tag of its name reaches up
to it, otherwise it stands alone. Two opening brackets escape a placeholder. What stands inside of a
shortcode belongs to it.
-/
import LiveMarkup.Span
import LiveMarkup.Text.Blank
import LiveMarkup.Text.Words

set_option autoImplicit false

namespace LiveMarkup.Source

open Text

/-- A shortcode in a text. -/
structure Shortcode where
  /-- The name. -/
  name : String
  /-- The bytes of the whole placeholder, its closing tag included. -/
  span : Span
  /-- The text of the whole placeholder. -/
  fragment : String
deriving DecidableEq, Repr

namespace Shortcode

/-- Whether `c` can stand in a name. -/
def isNamePart (c : Char) : Bool := c.isAlphanum || c == '_' || c == '-'

/-- Whether a name can start with `c`. -/
def isNameStart (c : Char) : Bool := c.isAlpha || c == '_'

/-- What stands before the bracket that ends an opening tag; brackets in quoted values do not count, and
there must be no other opening bracket. -/
def takeTag : Option Char → List Char → Option (List Char)
  | _, [] => none
  | some quote, c :: cs => (takeTag (if c = quote then none else some quote) cs).map (c :: ·)
  | none, ']' :: _ => some []
  | none, '[' :: _ => none
  | none, c :: cs => (takeTag (if c = '"' ∨ c = '\'' then some c else none) cs).map (c :: ·)

/-- The name and the number of characters of the shortcode whose opening bracket stands before a
text. -/
def read? (cs : List Char) : Option (List Char × Nat) := do
  let name := cs.takeWhile isNamePart
  let rest := cs.drop name.length
  if !name.head?.any isNameStart then none
  if !rest.head?.any fun c => c == ']' || c == '/' || isBlank c then none
  let inner ← takeTag none rest
  let tag := 1 + name.length + inner.length + 1
  if (trimEnd inner).getLast? = some '/' then some (name, tag)
  else
    let closing := '[' :: '/' :: name ++ [']']
    match indexOf? closing (rest.drop (inner.length + 1)) with
    | some n => some (name, tag + n + closing.length)
    | none => some (name, tag)

/-- The number of characters of an escaped placeholder, from its first bracket on. -/
def escapedLength (cs : List Char) : Nat :=
  match indexOf? [']', ']'] cs with
  | some n => n + 2
  | none => 2

/-- The shortcodes of a text that stands at a byte offset; `skip` characters more belong to what was
found before. -/
def scan : Nat → Nat → List Char → List Shortcode
  | _, _, [] => []
  | skip + 1, offset, c :: cs => scan skip (offset + c.utf8Size) cs
  | 0, offset, '[' :: '[' :: cs => scan (escapedLength ('[' :: '[' :: cs) - 1) (offset + 1) ('[' :: cs)
  | 0, offset, '[' :: cs =>
    match read? cs with
    | some (name, length) =>
      let fragment := ('[' :: cs).take length
      ⟨String.ofList name, ⟨offset, offset + byteLength fragment⟩, String.ofList fragment⟩ ::
        scan (length - 1) (offset + 1) cs
    | none => scan 0 (offset + 1) cs
  | 0, offset, c :: cs => scan 0 (offset + c.utf8Size) cs

end Shortcode

/-- The shortcodes of a text, in order. -/
def shortcodes (text : String) : List Shortcode := Shortcode.scan 0 0 text.toList

end LiveMarkup.Source
