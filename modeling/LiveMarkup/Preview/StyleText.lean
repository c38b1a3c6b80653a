/-
Style sheets inside a page.

The text of a style sheet stands in a `style` element, which the first `</style` would end. A backslash
after the angle bracket keeps the element open and changes nothing for the style sheet.
-/
import LiveMarkup.Text.Ascii

set_option autoImplicit false

namespace LiveMarkup.Preview

/-- The characters of a style sheet as they stand in a `style` element. -/
def escapeStyleChars : List Char → List Char
  | [] => []
  | c :: cs =>
    if Text.startsWithIgnoreCase (c :: cs) "</style" then c :: '\\' :: escapeStyleChars cs
    else c :: escapeStyleChars cs

/-- The text of a style sheet as it stands in a `style` element. -/
def escapeStyleText (css : String) : String := String.ofList (escapeStyleChars css.toList)

end LiveMarkup.Preview
