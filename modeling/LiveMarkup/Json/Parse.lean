/-
Reading JSON.

`Json.parse?` accepts exactly the texts of the JSON grammar: no comments, no commas at the end, no
zeros before a number and no control characters in strings. The parts take the characters from their
position on and give what they read with the characters that are left.
-/
import LiveMarkup.Json.Value
import LiveMarkup.Text.Words

set_option autoImplicit false

namespace LiveMarkup.Json

open Text

/-- Whether `c` is white space between the tokens of JSON. -/
def isSpace (c : Char) : Bool := c == ' ' || c == '\t' || c == '\n' || c == '\x0d'

/-- A text without the white space at its start. -/
def skipSpace (cs : List Char) : List Char := cs.dropWhile isSpace

/-! ## Strings -/

/-- The number that four hexadecimal digits write. -/
def hex4? (a b c d : Char) : Option Nat :=
  if [a, b, c, d].all (isDigitOf 16) then some (digitsValue 16 [a, b, c, d]) else none

/-- What a simple escape stands for. -/
def escaped? : Char → Option Char
  | '"' => some '"'
  | '\\' => some '\\'
  | '/' => some '/'
  | 'b' => some '\x08'
  | 'f' => some '\x0c'
  | 'n' => some '\n'
  | 'r' => some '\x0d'
  | 't' => some '\t'
  | _ => none

/-- The code points of a string up to its closing quote, escaped surrogates one by one, and what is
left. -/
def takeCodes : List Char → Option (List Nat × List Char)
  | '"' :: cs => some ([], cs)
  | '\\' :: 'u' :: a :: b :: c :: d :: cs => do
    let code ← hex4? a b c d
    let (codes, rest) ← takeCodes cs
    return (code :: codes, rest)
  | '\\' :: e :: cs => do
    let c ← escaped? e
    let (codes, rest) ← takeCodes cs
    return (c.toNat :: codes, rest)
  | c :: cs => do
    if c.toNat < 0x20 ∨ c = '\\' then none
    let (codes, rest) ← takeCodes cs
    return (c.toNat :: codes, rest)
  | [] => none

/-- The character with a code point, when it is no surrogate. -/
def char? (code : Nat) : Option Char := if code.isValidChar then some (Char.ofNat code) else none

/-- The text of code points, each pair of surrogates joined. -/
def textOfCodes : List Nat → Option (List Char)
  | [] => some []
  | [code] => (char? code).map ([·])
  | high :: low :: rest =>
    if 0xd800 ≤ high ∧ high < 0xdc00 then
      if 0xdc00 ≤ low ∧ low < 0xe000 then do
        let c ← char? (0x10000 + (high - 0xd800) * 0x400 + (low - 0xdc00))
        return c :: (← textOfCodes rest)
      else none
    else do
      let c ← char? high
      return c :: (← textOfCodes (low :: rest))

/-- The text of a string after its opening quote, if it stands for one, and what is left. -/
def takeText (cs : List Char) : Option (Option String × List Char) :=
  (takeCodes cs).map fun (codes, rest) => ((textOfCodes codes).map String.ofList, rest)

/-- A string after its opening quote, and what is left. -/
def takeString (cs : List Char) : Option (Json × List Char) :=
  (takeText cs).map fun (text, rest) => (text.elim .brokenString .string, rest)

/-! ## Numbers -/

/-- The digits at the start of a text, at least one, and what is left. -/
def takeDigits (cs : List Char) : Option (List Char × List Char) :=
  match cs.takeWhile Char.isDigit with
  | [] => none
  | digits => some (digits, cs.dropWhile Char.isDigit)

/-- The digits before the point: a zero stands alone. -/
def takeWhole (cs : List Char) : Option (List Char × List Char) :=
  match takeDigits cs with
  | some ('0' :: _ :: _, _) => none
  | r => r

/-- The digits after a point, if there is one. -/
def takeFraction : List Char → Option (List Char × List Char)
  | '.' :: cs => takeDigits cs
  | cs => some ([], cs)

/-- The exponent, if there is one. -/
def takeExponent (cs : List Char) : Option (Option Int × List Char) :=
  let signed (sign : Int) (cs : List Char) : Option (Option Int × List Char) :=
    (takeDigits cs).map fun (digits, rest) => (some (sign * digitsValue 10 digits), rest)
  match cs with
  | e :: cs =>
    if e = 'e' ∨ e = 'E' then
      match cs with
      | '+' :: cs => signed 1 cs
      | '-' :: cs => signed (-1) cs
      | _ => signed 1 cs
    else some (none, e :: cs)
  | [] => some (none, [])

/-- A number, and what is left. -/
def takeNumeral (cs : List Char) : Option (Numeral × List Char) := do
  let (negative, cs) := match cs with
    | '-' :: cs => (true, cs)
    | _ => (false, cs)
  let (whole, cs) ← takeWhole cs
  let (fraction, cs) ← takeFraction cs
  let (exponent, cs) ← takeExponent cs
  return (⟨negative, whole, fraction, exponent⟩, cs)

/-! ## Values -/

/-- The members of an object, when all their names stand for texts. -/
def namedMembers? (members : List (Option String × Json)) : Option (List (String × Json)) :=
  members.mapM fun (name, value) => name.map fun name => (name, value)

mutual

/-- A value, and what is left, in at most `fuel` steps. -/
def takeValue : Nat → List Char → Option (Json × List Char)
  | 0, _ => none
  | fuel + 1, cs =>
    match skipSpace cs with
    | '\x7b' :: cs =>
      match skipSpace cs with
      | '\x7d' :: cs => some (.object [], cs)
      | cs => (takeMembers fuel cs).map fun (members, rest) =>
        ((namedMembers? members).elim .brokenObject .object, rest)
    | '[' :: cs =>
      match skipSpace cs with
      | ']' :: cs => some (.array [], cs)
      | cs => (takeItems fuel cs).map fun (items, rest) => (.array items, rest)
    | '"' :: cs => takeString cs
    | 't' :: 'r' :: 'u' :: 'e' :: cs => some (.bool true, cs)
    | 'f' :: 'a' :: 'l' :: 's' :: 'e' :: cs => some (.bool false, cs)
    | 'n' :: 'u' :: 'l' :: 'l' :: cs => some (.null, cs)
    | cs => (takeNumeral cs).map fun (n, rest) => (.number n, rest)

/-- The items of an array up to its closing bracket, at least one, and what is left. -/
def takeItems : Nat → List Char → Option (List Json × List Char)
  | 0, _ => none
  | fuel + 1, cs => do
    let (item, cs) ← takeValue fuel cs
    match skipSpace cs with
    | ']' :: rest => return ([item], rest)
    | ',' :: cs =>
      let (items, rest) ← takeItems fuel cs
      return (item :: items, rest)
    | _ => none

/-- The members of an object up to its closing brace, at least one, and what is left. A name is missing
when it stands for no text. -/
def takeMembers : Nat → List Char → Option (List (Option String × Json) × List Char)
  | 0, _ => none
  | fuel + 1, cs => do
    let '"' :: cs := skipSpace cs | none
    let (name, cs) ← takeText cs
    let ':' :: cs := skipSpace cs | none
    let (value, cs) ← takeValue fuel cs
    match skipSpace cs with
    | '\x7d' :: rest => return ([(name, value)], rest)
    | ',' :: cs =>
      let (members, rest) ← takeMembers fuel cs
      return ((name, value) :: members, rest)
    | _ => none

end

/-- Reads a JSON text: one value with white space around it. Every step but the last of a chain takes
a character, so twice as many steps as there are characters are enough. -/
def parse? (text : String) : Option Json := do
  let cs := text.toList
  let (value, rest) ← takeValue (2 * cs.length + 2) cs
  if (skipSpace rest).isEmpty then some value else none

end LiveMarkup.Json
