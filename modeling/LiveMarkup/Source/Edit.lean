/-
Editing an element in its source.

An element is named by its token. The text between its tags can be edited when it is flat, that is when
it holds only text, comments and a few inline elements; its start tag can be edited when the parser knows
where it is. An edit changes those bytes and nothing else.
-/
import LiveMarkup.Html.Builder
import LiveMarkup.Html.Serialize
import LiveMarkup.Identity.Assign
import LiveMarkup.Source.ClosingTag
import LiveMarkup.Text.Quoted

set_option autoImplicit false

namespace LiveMarkup.Source

open Identity

/-- Why an edit is refused. -/
inductive EditError where
  /-- The token names nothing that can be edited. -/
  | unlocatable (token : String)
  /-- The name of an attribute cannot be written. -/
  | attributeName (name : String)
deriving DecidableEq, Repr

/-- The text of the error. -/
def EditError.message : EditError → String
  | unlocatable token => "no editable source range for token " ++ Text.quoted token
  | attributeName name => "invalid attribute name " ++ Text.quoted name

/-- The element that a token names, in the tree of a source. -/
def locate? (s : Scheme) (source token : String) : Option (Tree × NodeId × Element) := do
  let t ← (Html.parse source).toOption
  let a ← find? t s source.utf8ByteSize token
  return (t, a.node, ← t.element? a.node)

/-! ## The text of an element -/

/-- The inline elements that flat text may hold. -/
def inlineNames : List String := ["br", "span"]

/-- Whether a name is one that an element can be written with: an ASCII letter, then letters, digits, a
few signs or characters outside of ASCII. -/
def isElementName (name : String) : Bool :=
  match name.toList with
  | [] => false
  | c :: cs => c.isAlpha && cs.all fun c =>
      c.isAlphanum || ['-', '_', '.', ':'].contains c || 0x80 ≤ c.toNat

/-- Whether a node can stand in text that is edited as a whole. -/
def isFlat : Kind → Bool
  | .text _ | .comment _ => true
  | .element e => (e.space == .html && inlineNames.contains e.name) || !isElementName e.name
  | _ => false

/-- The text between the tags of the element that a token names, when it is flat. -/
def textSpan? (s : Scheme) (source token : String) : Option Span := do
  let (t, id, e) ← locate? s source token
  if e.isVoid then none
  let span ← innerSpan? source e.name (← e.location)
  let content := (t.contents? id).getD id
  if (t.children content).all fun child => (t.get? child).any (isFlat ·.kind) then
    if span.fits source.toList then some span else none
  else none

/-- The source with the text of an element replaced. -/
def editText (s : Scheme) (source token text : String) : Except EditError String :=
  match (textSpan? s source token).bind (·.splice? source text) with
  | some edited => .ok edited
  | none => .error (.unlocatable token)

/-! ## The start tag of an element -/

/-- A start tag taken apart. -/
structure OpeningTag where
  /-- The name of the element. -/
  name : String
  /-- The attributes, without that of the identity. -/
  attributes : List Attribute
  /-- The attribute of the identity, when it is written. -/
  identity : Option Attribute
  /-- Whether the tag ends with a slash. -/
  selfClosing : Bool
deriving DecidableEq, Repr

namespace OpeningTag

/-- An attribute as it is written: an empty value is left out. -/
def renderAttribute (a : Attribute) : String :=
  " " ++ a.name ++ if a.value.isEmpty then "" else "=\"" ++ Html.escapeAttribute a.value ++ "\""

/-- The start tag as it is written, with the identity as the last attribute. -/
def render (tag : OpeningTag) : String :=
  "<" ++ tag.name ++ String.join ((tag.attributes ++ tag.identity.toList).map renderAttribute) ++
    if tag.selfClosing then " />" else ">"

end OpeningTag

/-- The start tag of the element that a token names: where it is, whether the element is void, and its
parts. -/
def openingTag? (s : Scheme) (source token : String) : Option (Span × Bool × OpeningTag) := do
  let (_, _, e) ← locate? s source token
  let l ← e.location
  let isIdentity (a : Attribute) : Bool := Text.eqIgnoreCase a.name s.key
  return (l.startTag, e.isVoid,
    ⟨e.name, e.attributes.filter (!isIdentity ·), e.attributes.find? isIdentity, l.selfClosing⟩)

/-- The source with the attributes of an element replaced; the identity stays as it is. -/
def editAttributes (s : Scheme) (source token : String) (attributes : List Attribute) :
    Except EditError String :=
  match attributes.find? fun a => !isAttributeName a.name with
  | some bad => .error (.attributeName bad.name)
  | none =>
    let kept := attributes.filter fun a => !Text.eqIgnoreCase a.name s.key
    let edited := (openingTag? s source token).bind fun (span, _, tag) =>
      span.splice? source { tag with attributes := kept }.render
    match edited with
    | some edited => .ok edited
    | none => .error (.unlocatable token)

end LiveMarkup.Source
