/-
The tokens of style sheets.

These are the tokens that selectors and media queries are made of. A number keeps its value in double
precision and, when it was written as an integer that fits into 64 bits, also that integer.
-/
import LiveMarkup.Decimal.Shortest
import LiveMarkup.Span

set_option autoImplicit false

namespace LiveMarkup.Css

/-- A number as it was written. -/
structure Number where
  /-- The value. -/
  value : Float
  /-- The integer, when it was written as one. -/
  whole : Option Int
deriving BEq, Repr

/-- A token of a style sheet. Functions are reported without their parenthesis, at-keywords and hashes
without their sign, strings without their quotes; escapes are decoded. -/
inductive Token where
  | ident (name : String)
  | function (name : String)
  | atKeyword (name : String)
  /-- `isId` tells whether the name could stand as an identifier. -/
  | hash (name : String) (isId : Bool)
  | string (text : String)
  /-- A string cut off by a line feed. -/
  | badString
  | delim (c : Char)
  | number (n : Number)
  | percentage (value : Float)
  | dimension (n : Number) (unit : String)
  | space
  | colon
  | semicolon
  | comma
  | openBracket
  | closeBracket
  | openParen
  | closeParen
  | openBrace
  | closeBrace
  | endOfInput
deriving BEq, Repr

namespace Token

/-- Whether the token opens a block that another token closes. -/
def opensBlock : Token → Bool
  | function _ | openParen | openBracket | openBrace => true
  | _ => false

/-- Whether the token closes a block. -/
def closesBlock : Token → Bool
  | closeParen | closeBracket | closeBrace => true
  | _ => false

/-- The token as it is shown in messages. -/
def describe : Token → String
  | ident name => name
  | function name => name ++ "("
  | atKeyword name => "@" ++ name
  | hash name _ => "#" ++ name
  | string text => "\"" ++ text ++ "\""
  | badString => "<bad-string>"
  | delim c => c.toString
  | number n => Decimal.ofFloat n.value
  | percentage value => Decimal.ofFloat value ++ "%"
  | dimension n unit => Decimal.ofFloat n.value ++ unit
  | space => " "
  | colon => ":"
  | semicolon => ";"
  | comma => ","
  | openBracket => "["
  | closeBracket => "]"
  | openParen => "("
  | closeParen => ")"
  | openBrace => "\x7b"
  | closeBrace => "\x7d"
  | endOfInput => "end of input"

end Token

/-- A token with the bytes that it was read from. -/
structure Lexeme where
  /-- The token. -/
  token : Token
  /-- Its bytes in the text. -/
  span : Span
deriving BEq, Repr

/-- The token at the start of a list; the end of the input stands after the last one. -/
def peek : List Lexeme → Token
  | [] => .endOfInput
  | l :: _ => l.token

end LiveMarkup.Css
