/-
Outlines of trees.

An outline has a line per node, indented by depth. Spaces and line ends in text are made visible.
-/
import LiveMarkup.Dom.View

set_option autoImplicit false

namespace LiveMarkup.Html

/-- A text with its spaces and line ends made visible. -/
def showBlanks (text : String) : String :=
  String.join (text.toList.map fun c =>
    if c = '\n' then "\\n" else if c = ' ' then "\u00b7" else c.toString)

/-- What an outline says of a node. -/
def outlineNode : Kind → String
  | .document => "#document"
  | .fragment _ => "#fragment"
  | .element e =>
    "<" ++ e.name ++ String.join (e.attributes.map fun a => " " ++ a.name ++ "=\"" ++ a.value ++ "\"") ++ ">"
      ++ (match e.location with
          | some l => " @" ++ toString l.span.start ++ ".." ++ toString l.span.stop
          | none => "")
  | .text text => "\"" ++ showBlanks text ++ "\""
  | .comment data => "<!-- " ++ data ++ " -->"

/-- What stands before a line at a depth. -/
def indentation (depth : Nat) : String := String.ofList (List.replicate (2 * depth) ' ')

mutual

/-- The outline of a view; the contents of a template come before its children. -/
def outlineView (depth : Nat) : View → String
  | .node _ kind contents children =>
    indentation depth ++ outlineNode kind ++ "\n"
      ++ (outlineAll (depth + 1) contents ++ outlineAll (depth + 1) children)

/-- The outlines of several views. -/
def outlineAll (depth : Nat) : List View → String
  | [] => ""
  | v :: rest => outlineView depth v ++ outlineAll depth rest

end

/-- The outline of what is under a node. -/
def outline (t : Tree) (id : NodeId) : String :=
  match t.view? id with
  | some v => outlineView 0 v
  | none => ""

end LiveMarkup.Html
