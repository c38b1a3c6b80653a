/-
Tokens of markup.

The lexer turns a source text into start tags, end tags, comments, document type declarations and
single characters of text, closed by one end-of-file token. A token of markup carries the span of
source text it was read from.
-/
import LiveMarkup.Dom.Attribute
import LiveMarkup.Span

set_option autoImplicit false

namespace LiveMarkup.Html

/-- A token of markup. -/
inductive Token where
  /-- A document type declaration; its name may be missing. -/
  | doctype (name : Option String) (span : Span)
  /-- A start tag. Its name is in ASCII lower case and its attributes have distinct names. -/
  | startTag (name : String) (selfClosing : Bool) (attributes : List Attribute) (span : Span)
  /-- An end tag. Attributes written on it are dropped. -/
  | endTag (name : String) (span : Span)
  /-- A comment. -/
  | comment (data : String) (span : Span)
  /-- A character of text. -/
  | character (c : Char)
  /-- The end of the text, at its length in bytes. -/
  | endOfFile (offset : Nat)
deriving DecidableEq, Repr

namespace Token

/-- The source range of a token. Characters have none; the end of the text is empty. -/
def span? : Token → Option Span
  | doctype _ span => some span
  | startTag _ _ _ span => some span
  | endTag _ span => some span
  | comment _ span => some span
  | character _ => none
  | endOfFile offset => some ⟨offset, offset⟩

/-- Whether the token is the end of the text. -/
def isEndOfFile : Token → Bool
  | endOfFile _ => true
  | _ => false

/-- The token as one line of a listing; blanks are written by name. -/
def describe : Token → String
  | doctype none _ => "DOCTYPE"
  | doctype (some name) _ => "DOCTYPE " ++ name
  | startTag name selfClosing attributes _ =>
    "<" ++ name
      ++ String.join (attributes.map fun a => " " ++ a.name ++ "=\"" ++ a.value ++ "\"")
      ++ (if selfClosing then " /" else "") ++ ">"
  | endTag name _ => "</" ++ name ++ ">"
  | comment data _ => "<!--" ++ data ++ "-->"
  | character '\n' => "Character(\\n)"
  | character '\t' => "Character(\\t)"
  | character ' ' => "Character(SPACE)"
  | character c => "Character(" ++ c.toString ++ ")"
  | endOfFile _ => "EOF"

end Token

end LiveMarkup.Html
