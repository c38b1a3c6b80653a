/-
Writing a tree as markup.

Text and attribute values are escaped, except text under the raw text elements. A void element has no
end tag. The contents of a template are written in place of its children.
-/
import LiveMarkup.Dom.View

set_option autoImplicit false

namespace LiveMarkup.Html

/-- The elements whose text is written as it is. -/
def rawTextNames : List String :=
  ["style", "script", "xmp", "iframe", "noembed", "noframes", "plaintext", "noscript"]

/-- A character of an attribute value as it is written. -/
def escapeInAttribute : Char → String
  | '&' => "&amp;"
  | '\u00a0' => "&nbsp;"
  | '"' => "&quot;"
  | c => c.toString

/-- A character of text as it is written. -/
def escapeInText : Char → String
  | '&' => "&amp;"
  | '\u00a0' => "&nbsp;"
  | '<' => "&lt;"
  | '>' => "&gt;"
  | c => c.toString

/-- An attribute value as it is written between double quotes. -/
def escapeAttribute (value : String) : String := String.join (value.toList.map escapeInAttribute)

/-- Text as it is written. -/
def escapeText (text : String) : String := String.join (text.toList.map escapeInText)

/-- An attribute as it is written in a start tag, after a space. -/
def writeAttribute (a : Attribute) : String := " " ++ a.name ++ "=\"" ++ escapeAttribute a.value ++ "\""

/-- A start tag as it is written. -/
def writeStartTag (e : Element) : String :=
  "<" ++ e.name ++ String.join (e.attributes.map writeAttribute) ++ ">"

mutual

/-- A view as markup; `raw` says that its parent is a raw text element. -/
def write (raw : Bool) : View → String
  | .node _ .document _ children => writeAll false children
  | .node _ (.fragment _) _ children => writeAll false children
  | .node _ (.text text) _ _ => if raw then text else escapeText text
  | .node _ (.comment data) _ _ => "<!--" ++ data ++ "-->"
  | .node _ (.element e) contents children =>
    if e.isVoid then writeStartTag e
    else
      writeStartTag e
        ++ (if e.contents.isSome then writeContents contents
            else writeAll (rawTextNames.contains e.name) children)
        ++ "</" ++ e.name ++ ">"

/-- Several views as markup. -/
def writeAll (raw : Bool) : List View → String
  | [] => ""
  | v :: rest => write raw v ++ writeAll raw rest

/-- The children of a template's contents as markup. -/
def writeContents : List View → String
  | [] => ""
  | .node _ kind _ children :: rest =>
    writeAll (match kind with | .element e => rawTextNames.contains e.name | _ => false) children
      ++ writeContents rest

end

/-- Whether the parent of a node is a raw text element. -/
def isRawText (t : Tree) (id : NodeId) : Bool :=
  ((t.parent? id).bind t.element?).any fun e => rawTextNames.contains e.name

/-- A node as markup. -/
def serialize (t : Tree) (id : NodeId) : String :=
  match t.view? id with
  | some v => write (isRawText t id) v
  | none => ""

/-- The children of a node as markup; for a template, those of its contents. -/
def serializeChildren (t : Tree) (id : NodeId) : String :=
  String.join ((t.children ((t.contents? id).getD id)).map (serialize t))

end LiveMarkup.Html
