/-
Where elements are on the screen.

The preview does no layout of its own; whoever shows the page says where the boxes of its elements are.
Later siblings are painted over earlier ones and descendants over their ancestors, and an element with a
shadow tree shows that tree in place of its children.
-/
import LiveMarkup.Dom.Tree

set_option autoImplicit false

namespace LiveMarkup.Preview

/-- A point on the screen. -/
structure Point where
  x : Float32
  y : Float32

/-- A box on the screen. -/
structure Rect where
  x : Float32
  y : Float32
  width : Float32
  height : Float32

/-- Whether a point lies in a box: the left and the upper edge belong to the box, the others do not. -/
def Rect.contains (r : Rect) (p : Point) : Bool :=
  decide (r.x ≤ p.x) && decide (r.y ≤ p.y) && decide (p.x < r.x + r.width) &&
    decide (p.y < r.y + r.height)

/-- Says where the box of a node is, if it has one. -/
abbrev Layout := Tree → NodeId → Option Rect

/-- The children that a node shows. -/
def composedChildren (t : Tree) (id : NodeId) : List NodeId := t.children ((t.shadow? id).getD id)

/-- The nodes under a node and the node itself, down to a depth, in the order in which they are
painted. -/
def paintOrderTo (t : Tree) : Nat → NodeId → List NodeId
  | 0, _ => []
  | depth + 1, id => id :: (composedChildren t id).flatMap (paintOrderTo t depth)

/-- The nodes under a node and the node itself in the order in which they are painted. -/
def paintOrder (t : Tree) (id : NodeId) : List NodeId := paintOrderTo t t.size id

/-- Whether a node is an element whose box has a point in it. -/
def isHit (t : Tree) (layout : Layout) (p : Point) (id : NodeId) : Bool :=
  t.isElement id && (layout t id).any (·.contains p)

/-- The topmost element at a point, among the nodes under a node down to a depth. -/
def hitTestTo (t : Tree) (layout : Layout) (p : Point) : Nat → NodeId → Option NodeId
  | 0, _ => none
  | depth + 1, id =>
    match (composedChildren t id).reverse.findSome? (hitTestTo t layout p depth) with
    | some hit => some hit
    | none => if isHit t layout p id then some id else none

/-- The topmost element at a point, among the nodes under a node. No path in a tree without circles is
longer than the tree has nodes. -/
def hitTest (t : Tree) (layout : Layout) (p : Point) (id : NodeId) : Option NodeId :=
  hitTestTo t layout p t.size id

end LiveMarkup.Preview
