/-
A tree seen as nested nodes.

`Tree.view?` reads the part of a tree under a node as a value that holds its own children, on which
functions are defined by recursion. The contents of a template stand beside its children. A circle of
links is unrolled as deep as the tree has nodes.
-/
import LiveMarkup.Dom.Tree

set_option autoImplicit false

namespace LiveMarkup

/-- A node with all that is under it. -/
inductive View where
  /-- A node at its place, with the contents of a template (at most one fragment) and its children. -/
  | node (id : NodeId) (kind : Kind) (contents : List View) (children : List View)
deriving Repr

namespace View

/-- The place of the node. -/
def id : View → NodeId
  | node id _ _ _ => id

/-- What the node is. -/
def kind : View → Kind
  | node _ kind _ _ => kind

/-- The contents of a template, as a list of at most one fragment. -/
def contents : View → List View
  | node _ _ contents _ => contents

/-- The children of the node. -/
def children : View → List View
  | node _ _ _ children => children

end View

namespace Tree

/-- What is under a node, down to a depth. -/
def viewTo (t : Tree) : Nat → NodeId → Option View
  | 0, _ => none
  | depth + 1, id =>
    (t.get? id).map fun node =>
      .node id node.kind ((t.contents? id).toList.filterMap (t.viewTo depth))
        (node.children.filterMap (t.viewTo depth))

/-- What is under a node; none when there is no such node. -/
def view? (t : Tree) (id : NodeId) : Option View := t.viewTo t.size id

end Tree

mutual

/-- The elements of a view in document order; the contents of a template come before its children. -/
def View.elements : View → List (NodeId × Element)
  | .node id (.element e) contents children => (id, e) :: (elementsOf contents ++ elementsOf children)
  | .node _ _ contents children => elementsOf contents ++ elementsOf children

/-- The elements of several views, one view after the other. -/
def View.elementsOf : List View → List (NodeId × Element)
  | [] => []
  | v :: rest => v.elements ++ elementsOf rest

end

/-- The elements under the document in document order, template contents included. -/
def Tree.allElements (t : Tree) : List (NodeId × Element) :=
  match t.view? Tree.root with
  | some v => v.elements
  | none => []

end LiveMarkup
