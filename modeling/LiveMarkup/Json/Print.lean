/-
Writing JSON.

`Json.compact` writes a value without white space. In strings only the quote, the backslash and the
control characters below the space are escaped, the common ones by their letter. `Json.pretty` writes a
value for people to read: every item and every member stands on a line of its own, two spaces further in
than what holds it, and an empty array or object stands on one line.
-/
import LiveMarkup.Json.Value

set_option autoImplicit false

namespace LiveMarkup.Json

/-! ## Without white space -/

/-- The lower-case hexadecimal digit of a number below sixteen. -/
def hexDigit (n : Nat) : Char := if n < 10 then Char.ofNat (48 + n) else Char.ofNat (87 + n)

/-- A character as it is written in a string. -/
def writeChar (c : Char) : List Char :=
  match c with
  | '"' => ['\\', '"']
  | '\\' => ['\\', '\\']
  | '\x08' => ['\\', 'b']
  | '\x0c' => ['\\', 'f']
  | '\n' => ['\\', 'n']
  | '\x0d' => ['\\', 'r']
  | '\t' => ['\\', 't']
  | c =>
    if c.toNat < 0x20 then ['\\', 'u', '0', '0', hexDigit (c.toNat / 16), hexDigit (c.toNat % 16)]
    else [c]

/-- A text as a string of JSON. -/
def writeString (text : String) : List Char := '"' :: text.toList.flatMap writeChar ++ ['"']

/-- A number as it was written. -/
def writeNumeral (n : Numeral) : List Char :=
  (if n.negative then ['-'] else []) ++ n.whole ++
    (if n.fraction.isEmpty then [] else '.' :: n.fraction) ++
    match n.exponent with
    | none => []
    | some e => 'e' :: (toString e).toList

mutual

/-- A value without white space. A string that stands for no text is written as an empty one, and so is
an object with such a name. -/
def write : Json → List Char
  | .null => "null".toList
  | .bool true => "true".toList
  | .bool false => "false".toList
  | .number n => writeNumeral n
  | .string text => writeString text
  | .brokenString => ['"', '"']
  | .array [] => ['[', ']']
  | .array (item :: items) => '[' :: write item ++ writeItems items
  | .object [] | .brokenObject => ['\x7b', '\x7d']
  | .object ((name, value) :: members) =>
    '\x7b' :: writeString name ++ ':' :: write value ++ writeMembers members

/-- The items after the first one, with the closing bracket. -/
def writeItems : List Json → List Char
  | [] => [']']
  | item :: items => ',' :: write item ++ writeItems items

/-- The members after the first one, with the closing brace. -/
def writeMembers : List (String × Json) → List Char
  | [] => ['\x7d']
  | (name, value) :: members => ',' :: writeString name ++ ':' :: write value ++ writeMembers members

end

/-- A value as a JSON text without white space. -/
def compact (j : Json) : String := String.ofList j.write

/-! ## With a line for each item -/

/-- A new line at a depth. -/
def newLine (depth : Nat) : List Char := '\n' :: List.replicate (2 * depth) ' '

mutual

/-- A value that stands at a depth. -/
def writePretty (depth : Nat) : Json → List Char
  | .array (item :: items) =>
    '[' :: newLine (depth + 1) ++ writePretty (depth + 1) item ++ writePrettyItems depth items
  | .object ((name, value) :: members) =>
    '\x7b' :: newLine (depth + 1) ++ writeString name ++ ':' :: ' ' :: writePretty (depth + 1) value ++
      writePrettyMembers depth members
  | j => write j

/-- The items after the first one, with the closing bracket. -/
def writePrettyItems (depth : Nat) : List Json → List Char
  | [] => newLine depth ++ [']']
  | item :: items =>
    ',' :: newLine (depth + 1) ++ writePretty (depth + 1) item ++ writePrettyItems depth items

/-- The members after the first one, with the closing brace. -/
def writePrettyMembers (depth : Nat) : List (String × Json) → List Char
  | [] => newLine depth ++ ['\x7d']
  | (name, value) :: members =>
    ',' :: newLine (depth + 1) ++ writeString name ++ ':' :: ' ' :: writePretty (depth + 1) value ++
      writePrettyMembers depth members

end

/-- A value as a JSON text with a line for each item. -/
def pretty (j : Json) : String := String.ofList (writePretty 0 j)

end LiveMarkup.Json
