/-
Walks through a tree.

A walk lists nodes by following links: up to the ancestors, along the siblings, or down in document
order. Links may form a circle, since a node may be made a child of its own descendant, so each walk
takes the number of nodes after which it stops. In a tree without circles no walk is longer than the
tree has nodes, and the forms without a limit list everything.
-/
import LiveMarkup.Dom.Tree

set_option autoImplicit false

namespace LiveMarkup.Tree

/-- The nodes reached by following a link again and again, at most `limit` of them. -/
def follow (next : NodeId → Option NodeId) : Nat → Option NodeId → List NodeId
  | 0, _ => []
  | _ + 1, none => []
  | limit + 1, some id => id :: follow next limit (next id)

/-- The nearest `limit` ancestors of a node, the parent first. -/
def ancestorsUpTo (t : Tree) (limit : Nat) (id : NodeId) : List NodeId :=
  follow t.parent? limit (t.parent? id)

/-- The ancestors of a node, the parent first. -/
def ancestors (t : Tree) (id : NodeId) : List NodeId := t.ancestorsUpTo t.size id

/-- The first `limit` nodes of the way from a node up through the composed tree. -/
def composedPathUpTo (t : Tree) (limit : Nat) (id : NodeId) : List NodeId :=
  follow t.composedParent? limit (some id)

/-- The node and its ancestors in the composed tree, from the inside out. -/
def composedPath (t : Tree) (id : NodeId) : List NodeId := t.composedPathUpTo (t.size + 1) id

/-- The siblings before a node, the nearest first. -/
def precedingSiblings (t : Tree) (id : NodeId) : List NodeId := follow t.previous? t.size (t.previous? id)

/-- The siblings after a node, the nearest first. -/
def followingSiblings (t : Tree) (id : NodeId) : List NodeId := follow t.next? t.size (t.next? id)

/-- The first `limit` nodes in document order, where `pending` are the nodes to visit. -/
def visit (t : Tree) : Nat → List NodeId → List NodeId
  | 0, _ => []
  | _ + 1, [] => []
  | limit + 1, id :: pending => id :: visit t limit (t.children id ++ pending)

/-- The first `limit` descendants of a node in document order. -/
def descendantsUpTo (t : Tree) (limit : Nat) (id : NodeId) : List NodeId :=
  t.visit limit (t.children id)

/-- The descendants of a node in document order. The contents of a template are not among them. -/
def descendants (t : Tree) (id : NodeId) : List NodeId := t.descendantsUpTo t.size id

/-- Whether a node is a descendant of another. -/
def isDescendantOf (t : Tree) (id ancestor : NodeId) : Bool := (t.ancestors id).contains ancestor

/-- The text under a node, in document order. -/
def textContent (t : Tree) (id : NodeId) : String :=
  String.join ((t.descendants id).filterMap t.text?)

/-- The first element under `scope` with an `id` attribute. -/
def elementById? (t : Tree) (scope : NodeId) (name : String) : Option NodeId :=
  (t.descendants scope).find? fun id => (t.element? id).bind Element.id? == some name

/-- The value of an element's attribute. -/
def attribute? (t : Tree) (id : NodeId) (key : String) : Option String :=
  (t.element? id).bind (·.attribute? key)

/-- The first element under `scope` with a value of an attribute. -/
def descendantWith? (t : Tree) (scope : NodeId) (key value : String) : Option NodeId :=
  (t.descendants scope).find? fun id => t.attribute? id key == some value

end LiveMarkup.Tree
