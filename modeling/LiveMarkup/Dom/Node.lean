/-
The nodes of a document.

A node is a document, a fragment, an element, a text or a comment. Names of elements and attributes
are looked up without regard to the case of ASCII letters, values exactly.
-/
import LiveMarkup.Dom.Attribute
import LiveMarkup.Dom.Location
import LiveMarkup.Text.Words

set_option autoImplicit false

namespace LiveMarkup

/-- The place of a node in its tree. Places are handed out in order; the document has place 0. -/
abbrev NodeId := Nat

/-- The language that an element belongs to. -/
inductive Namespace where
  | html
  | svg
  | mathml
deriving DecidableEq, Repr, Inhabited

/-- The name of a language. -/
def Namespace.name : Namespace → String
  | html => "html"
  | svg => "svg"
  | mathml => "mathml"

/-- The names of the elements of HTML that have no content and no end tag. -/
def voidNames : List String :=
  ["area", "base", "br", "col", "embed", "hr", "img", "input", "link", "meta", "param", "source",
   "track", "wbr"]

/-- Whether a name is that of a void element. -/
def isVoidName (name : String) : Bool := voidNames.any (Text.eqIgnoreCase · name)

/-- An element. -/
structure Element where
  /-- The name. -/
  name : String
  /-- The attributes, in the order in which they were written. -/
  attributes : List Attribute
  /-- The language that the element belongs to. -/
  space : Namespace
  /-- The fragment that holds the contents of a template. -/
  contents : Option NodeId
  /-- The root of the element's shadow tree. -/
  shadow : Option NodeId
  /-- Where the element stands in the source text. An element that the parser added has no place. -/
  location : Option Location
deriving DecidableEq, Repr

namespace Element

/-- An element of HTML without attributes, contents or place. -/
def ofName (name : String) : Element := ⟨name, [], .html, none, none, none⟩

/-- Whether the element has no content and no end tag. -/
def isVoid (e : Element) : Bool := e.space == .html && isVoidName e.name

/-- The value of an attribute. -/
def attribute? (e : Element) (name : String) : Option String :=
  (e.attributes.find? fun a => Text.eqIgnoreCase a.name name).map (·.value)

/-- The attributes with one value changed, or a new attribute at the end. -/
def setIn (name value : String) : List Attribute → List Attribute
  | [] => [⟨name, value⟩]
  | a :: rest =>
    if Text.eqIgnoreCase a.name name then { a with value } :: rest else a :: setIn name value rest

/-- The element with an attribute set: the first of the name is changed and keeps its spelling, else
one is added at the end. -/
def setAttribute (e : Element) (name value : String) : Element :=
  { e with attributes := setIn name value e.attributes }

/-- The element without the first attribute of a name. -/
def eraseAttribute (e : Element) (name : String) : Element :=
  { e with attributes := e.attributes.eraseP fun a => Text.eqIgnoreCase a.name name }

/-- The value of the `id` attribute. -/
def id? (e : Element) : Option String := e.attribute? "id"

/-- The words of the `class` attribute, in the order in which they are written. -/
def classes (e : Element) : List String :=
  match e.attribute? "class" with
  | none => []
  | some value => (Text.wordsWhere Text.isAsciiSpace value.toList).map String.ofList

end Element

/-- What a node is. -/
inductive Kind where
  | document
  /-- The root of a template's contents or of a shadow tree; `host` is the element that the fragment
  belongs to in the composed tree. -/
  | fragment (host : Option NodeId)
  | element (element : Element)
  | text (text : String)
  | comment (data : String)
deriving DecidableEq, Repr

/-- A node with its links. -/
structure Node where
  /-- What the node is. -/
  kind : Kind
  /-- The node whose child it is. -/
  parent : Option NodeId
  /-- Its children, in order. -/
  children : List NodeId
  /-- The child of the same parent before it. -/
  previous : Option NodeId
  /-- The child of the same parent after it. -/
  next : Option NodeId
deriving DecidableEq, Repr

/-- A node that is not yet linked to any other. -/
def Node.detached (kind : Kind) : Node := ⟨kind, none, [], none, none⟩

end LiveMarkup
