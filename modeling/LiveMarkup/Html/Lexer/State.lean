/-
The states of the markup lexer.

The lexer is a machine that looks at the next character of the text and either consumes it or goes to
another state that looks at it again. Each state carries the token that is being read, so that no state
is without the data it needs.
-/
import LiveMarkup.Html.Token

set_option autoImplicit false

namespace LiveMarkup.Html

/-- How the text of an element is read. -/
inductive Content where
  /-- Markup and character references. -/
  | markup
  /-- Character references, and the end tag of the element (`title`, `textarea`). -/
  | escapable
  /-- Only the end tag of the element (`style` and its like). -/
  | raw
  /-- Only the end tag of the element (`script`). -/
  | script
  /-- Plain characters to the end of the text. -/
  | plain
deriving DecidableEq, Repr

/-- How the text after the start tag of an element is read. -/
def Content.ofElement (name : String) : Content :=
  if name ∈ ["title", "textarea"] then .escapable
  else if name ∈ ["style", "xmp", "iframe", "noembed", "noframes", "noscript"] then .raw
  else if name = "script" then .script
  else if name = "plaintext" then .plain
  else .markup

/-- A tag that is being read. -/
structure TagDraft where
  /-- Whether it is an end tag. -/
  closing : Bool
  /-- Offset of its opening angle bracket. -/
  start : Nat
  /-- The name read so far. -/
  name : String
  /-- The attributes read so far, the last one first. -/
  attributes : List Attribute
deriving DecidableEq, Repr

/-- A comment that is being read. -/
structure CommentDraft where
  /-- Offset of its opening angle bracket. -/
  start : Nat
  /-- The data read so far. -/
  data : String
deriving DecidableEq, Repr

/-- What surrounds an attribute value. -/
inductive Quoting where
  | double
  | single
  | unquoted
deriving DecidableEq, Repr

/-- The mark at both ends of a quoted value. -/
def Quoting.mark? : Quoting → Option Char
  | .double => some '"'
  | .single => some '\''
  | .unquoted => none

/-- Where a character reference stands. -/
inductive Site where
  /-- In text. -/
  | text (content : Content)
  /-- In the value of the last attribute of a tag. -/
  | value (tag : TagDraft) (quoting : Quoting)
deriving DecidableEq, Repr

/-- The states of the lexer. -/
inductive State where
  | text (content : Content)
  | tagOpen (start : Nat)
  | endTagOpen (start : Nat)
  | tagName (tag : TagDraft)
  | rawLessThan (content : Content) (start : Nat)
  | rawEndTagOpen (content : Content) (start : Nat)
  /-- Reading what may be the end tag of a raw text element; `written` is the name as it stands. -/
  | rawEndTagName (content : Content) (start : Nat) (written : String)
  | beforeAttributeName (tag : TagDraft)
  | attributeName (tag : TagDraft)
  | afterAttributeName (tag : TagDraft)
  | beforeAttributeValue (tag : TagDraft)
  | attributeValue (tag : TagDraft) (quoting : Quoting)
  | afterQuotedValue (tag : TagDraft)
  | selfClosing (tag : TagDraft)
  | bogusComment (comment : CommentDraft)
  | markupDeclaration (start : Nat)
  | commentStart (comment : CommentDraft)
  | commentStartDash (comment : CommentDraft)
  | comment (comment : CommentDraft)
  | commentEndDash (comment : CommentDraft)
  | commentEnd (comment : CommentDraft)
  | commentEndBang (comment : CommentDraft)
  | doctype (start : Nat)
  | beforeDoctypeName (start : Nat)
  | doctypeName (start : Nat) (name : String)
  | afterDoctypeName (start : Nat) (name : String)
  | reference (site : Site)
  | namedReference (site : Site)
  | ambiguousAmpersand (site : Site)
  | numericReference (site : Site)
  /-- Before the first digit; `written` is the reference so far, kept if no digit follows. -/
  | numericStart (site : Site) (base : Nat) (written : String)
  | numericDigits (site : Site) (base : Nat) (code : Nat)
  | numericEnd (site : Site) (code : Nat)
deriving DecidableEq, Repr

/-- The lexer between two steps. -/
structure Lexer where
  /-- The text from the next character on. -/
  rest : List Char
  /-- Byte offset of the next character. -/
  offset : Nat
  /-- Name of the last start tag that was reported: the only end tag that raw text ends with. -/
  lastStart : Option String
  /-- The state. -/
  state : State
deriving DecidableEq, Repr

/-- What one step does. -/
structure Step where
  /-- The tokens that it reports. -/
  tokens : List Token
  /-- The parse errors that it counts. -/
  errors : Nat
  /-- The lexer after it; none after the end of the text was reported. -/
  next : Option Lexer

end LiveMarkup.Html
