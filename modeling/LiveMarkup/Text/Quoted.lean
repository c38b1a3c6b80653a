/-
Quoted texts.

Messages quote a text between double quotes. The quote and the backslash get a backslash before them,
the common controls are written by their letter, and other characters that cannot be shown are written
by their number.
-/
import LiveMarkup.Text.Unprintable

set_option autoImplicit false

namespace LiveMarkup.Text

/-- A character as it stands in a quoted text. -/
def quoteChar (c : Char) : List Char :=
  match c with
  | '\x00' => ['\\', '0']
  | '\t' => ['\\', 't']
  | '\n' => ['\\', 'n']
  | '\x0d' => ['\\', 'r']
  | '"' => ['\\', '"']
  | '\\' => ['\\', '\\']
  | c => if isUnprintable c then ['\\', 'u', '\x7b'] ++ Nat.toDigits 16 c.toNat ++ ['\x7d'] else [c]

/-- A text between double quotes. -/
def quoted (text : String) : String := String.ofList ('"' :: text.toList.flatMap quoteChar ++ ['"'])

end LiveMarkup.Text
