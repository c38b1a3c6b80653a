/-
Finding the end of an element in its source.

Where the parser has no end tag for an element, the source is searched for one: start and end tags of
the same name are balanced, void and self-closing tags do not count, and comments are skipped.
-/
import LiveMarkup.Dom.Node

set_option autoImplicit false

namespace LiveMarkup.Source

open Text

/-- The text after a name at the start of a text, when it is that of a tag: letters are compared without
regard to case, and white space, a slash, a closing bracket or the end of the text follows. -/
def afterTagName? (name : List Char) (cs : List Char) : Option (List Char) :=
  let rest := cs.drop name.length
  if (cs.take name.length).map Char.toLower = name.map Char.toLower ∧
      rest.head?.all fun c => isAsciiSpace c || c == '/' || c == '>' then
    some rest
  else none

/-- The number of characters up to and including the bracket that ends a tag; brackets in quoted values
do not count. A tag without an end reaches to the end of the text. -/
def tagLength : Option Char → List Char → Nat
  | _, [] => 0
  | some quote, c :: cs => tagLength (if c = quote then none else some quote) cs + 1
  | none, '>' :: _ => 1
  | none, c :: cs => tagLength (if c = '"' ∨ c = '\'' then some c else none) cs + 1

/-- What a search for a closing tag finds at an opening bracket, from the text after it. -/
inductive TagMark where
  /-- Nothing that counts; so many characters belong to it. -/
  | other (length : Nat)
  /-- A start tag of the name that has to be closed. -/
  | opening (length : Nat)
  /-- An end tag of the name. -/
  | closing (length : Nat)
  /-- A comment that reaches to the end of the text. -/
  | endless
deriving DecidableEq, Repr

/-- What stands after an opening bracket, for a search for the end of an element of a name. -/
def tagMark (name : List Char) (cs : List Char) : TagMark :=
  if beginsWith cs "!--" then
    match indexOf? ['-', '-', '>'] cs.tail with
    | some n => .other (1 + n + 3)
    | none => .endless
  else
    let isEnd := cs.head? == some '/'
    match afterTagName? name (if isEnd then cs.tail else cs) with
    | none => .other 0
    | some rest =>
      let length := cs.length - rest.length + tagLength none rest
      let selfClosing := ('<' :: cs.take length).reverse.tail.head? == some '/'
      if isEnd then .closing length
      else if isVoidName (String.ofList name) || selfClosing then .other length
      else .opening length

/-- The byte offset of the end tag that closes an element, in a text that stands at an offset inside of
`depth` elements of the same name; `skip` characters more belong to what was found before. -/
def seekClosing (name : List Char) : Nat → Nat → Nat → List Char → Option Nat
  | _, _, _, [] => none
  | skip + 1, depth, offset, c :: cs => seekClosing name skip depth (offset + c.utf8Size) cs
  | 0, depth, offset, '<' :: cs =>
    match tagMark name cs with
    | .other length => seekClosing name length depth (offset + 1) cs
    | .opening length => seekClosing name length (depth + 1) (offset + 1) cs
    | .closing length => if depth = 0 then some offset else seekClosing name length (depth - 1) (offset + 1) cs
    | .endless => none
  | 0, depth, offset, c :: cs => seekClosing name 0 depth (offset + c.utf8Size) cs

/-- The byte offset of the end tag that closes an element of a name whose content starts at `start`. -/
def closingTag? (source name : String) (start : Nat) : Option Nat := do
  let (_, rest) ← splitAt? source.toList start
  seekClosing name.toList 0 0 start rest

/-- The bytes between the tags of an element. An element that the parser closed without an end tag
reaches to the end tag that is found in the source. -/
def innerSpan? (source name : String) (l : Location) : Option Span := do
  let stop ← match l.endTag with
    | some endTag => some endTag.start
    | none => closingTag? source name l.startTag.stop
  (Span.ofBounds? l.startTag.stop stop).filter fun s => s.stop ≤ source.utf8ByteSize

end LiveMarkup.Source
