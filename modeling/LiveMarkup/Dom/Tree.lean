/-
Trees of nodes.

A tree is an array of nodes that refer to one another by place. A node is never removed from the array,
only detached. Every operation accepts any places: one that names no node changes nothing.
-/
import LiveMarkup.Dom.Node

set_option autoImplicit false

namespace LiveMarkup

/-- A tree of nodes; the document stands at place 0. -/
structure Tree where
  /-- The nodes, by place. -/
  nodes : Array Node
deriving DecidableEq, Repr

namespace Tree

/-- The tree that holds an empty document. -/
def empty : Tree := ⟨#[.detached .document]⟩

/-- The place of the document. -/
def root : NodeId := 0

/-- The number of nodes, attached or not. -/
def size (t : Tree) : Nat := t.nodes.size

/-- The node at a place. -/
def get? (t : Tree) (id : NodeId) : Option Node := t.nodes[id]?

/-- The tree with the node at a place changed. -/
def modify (t : Tree) (id : NodeId) (f : Node → Node) : Tree := ⟨t.nodes.modify id f⟩

/-! ## Links and data -/

/-- The parent of a node. -/
def parent? (t : Tree) (id : NodeId) : Option NodeId := (t.get? id).bind (·.parent)

/-- The children of a node, in order. -/
def children (t : Tree) (id : NodeId) : List NodeId :=
  match t.get? id with
  | some node => node.children
  | none => []

/-- The sibling before a node. -/
def previous? (t : Tree) (id : NodeId) : Option NodeId := (t.get? id).bind (·.previous)

/-- The sibling after a node. -/
def next? (t : Tree) (id : NodeId) : Option NodeId := (t.get? id).bind (·.next)

/-- The element at a place. -/
def element? (t : Tree) (id : NodeId) : Option Element :=
  match t.get? id with
  | some ⟨.element e, _, _, _, _⟩ => some e
  | _ => none

/-- The text at a place. -/
def text? (t : Tree) (id : NodeId) : Option String :=
  match t.get? id with
  | some ⟨.text s, _, _, _, _⟩ => some s
  | _ => none

/-- Whether a node is an element. -/
def isElement (t : Tree) (id : NodeId) : Bool := (t.element? id).isSome

/-- Whether a node is an element of a name. -/
def isElementNamed (t : Tree) (id : NodeId) (name : String) : Bool :=
  (t.element? id).any fun e => Text.eqIgnoreCase e.name name

/-- The fragment with a template's contents. -/
def contents? (t : Tree) (id : NodeId) : Option NodeId := (t.element? id).bind (·.contents)

/-- The root of an element's shadow tree. -/
def shadow? (t : Tree) (id : NodeId) : Option NodeId := (t.element? id).bind (·.shadow)

/-- The children that are elements. -/
def elementChildren (t : Tree) (id : NodeId) : List NodeId := (t.children id).filter t.isElement

/-- The parent in the composed tree: a fragment without a parent continues at its host. -/
def composedParent? (t : Tree) (id : NodeId) : Option NodeId :=
  match t.get? id with
  | none => none
  | some node =>
    match node.parent, node.kind with
    | some parent, _ => some parent
    | none, .fragment host => host
    | none, _ => none

/-- The outermost element of the document. -/
def documentElement? (t : Tree) : Option NodeId := (t.elementChildren root).head?

/-- The body of the document. -/
def body? (t : Tree) : Option NodeId :=
  t.documentElement?.bind fun html =>
    (t.elementChildren html).find? fun id => t.isElementNamed id "body" || t.isElementNamed id "frameset"

/-! ## Changes -/

/-- Adds a node that is not linked to any other; its place is the size of the tree before. -/
def alloc (t : Tree) (kind : Kind) : Tree × NodeId := (⟨t.nodes.push (.detached kind)⟩, t.size)

/-- Changes the element at a place. -/
def modifyElement (t : Tree) (id : NodeId) (f : Element → Element) : Tree :=
  t.modify id fun node =>
    match node.kind with
    | .element e => { node with kind := .element (f e) }
    | _ => node

/-- Links the nodes of a list of siblings to one another; `before` is the sibling before the list. -/
def linkSiblings (t : Tree) (before : Option NodeId) : List NodeId → Tree
  | [] => t
  | id :: rest =>
    (t.modify id fun node => { node with previous := before, next := rest.head? }).linkSiblings (some id)
      rest

/-- Links the children of a node to one another. -/
def relink (t : Tree) (parent : NodeId) : Tree := t.linkSiblings none (t.children parent)

/-- Takes a node out of its parent. -/
def detach (t : Tree) (id : NodeId) : Tree :=
  match t.parent? id with
  | none => t
  | some parent =>
    let t := t.modify parent fun node => { node with children := node.children.filter (· != id) }
    let t := t.modify id fun node => { node with parent := none, previous := none, next := none }
    t.relink parent

/-- A list with `id` in front of the first `reference`, or at the end. -/
def insertInto (id : NodeId) (reference : Option NodeId) : List NodeId → List NodeId
  | [] => [id]
  | c :: rest => if reference = some c then id :: c :: rest else c :: insertInto id reference rest

/-- Makes a node a child of another, before `reference` when that is one of its children, else at the
end. The node is first taken out of the parent that it has. -/
def insertBefore (t : Tree) (parent child : NodeId) (reference : Option NodeId) : Tree :=
  if t.size ≤ child ∨ t.size ≤ parent ∨ parent = child then t
  else
    let t := t.detach child
    let t := t.modify parent fun node =>
      { node with children := insertInto child reference node.children }
    let t := t.modify child fun node => { node with parent := some parent }
    t.relink parent

/-- Makes a node the last child of another. -/
def appendChild (t : Tree) (parent child : NodeId) : Tree := t.insertBefore parent child none

/-- Takes a node out of its parent, if `parent` is it. -/
def removeChild (t : Tree) (parent child : NodeId) : Tree :=
  if t.parent? child = some parent then t.detach child else t

/-- Takes all children out of a node. -/
def clearChildren (t : Tree) (parent : NodeId) : Tree :=
  (t.children parent).foldl
    (fun t child => t.modify child fun node => { node with parent := none, previous := none, next := none })
    (t.modify parent fun node => { node with children := [] })

/-- Gives an element a shadow tree, unless it has one, and says where its root is. -/
def attachShadow (t : Tree) (host : NodeId) : Tree × Option NodeId :=
  match t.element? host with
  | none => (t, none)
  | some e =>
    match e.shadow with
    | some root => (t, some root)
    | none =>
      let (t, root) := t.alloc (.fragment (some host))
      (t.modifyElement host fun e => { e with shadow := some root }, some root)

/-- Changes the text at a place. -/
def modifyText (t : Tree) (id : NodeId) (f : String → String) : Tree :=
  t.modify id fun node =>
    match node.kind with
    | .text s => { node with kind := .text (f s) }
    | _ => node

end Tree

end LiveMarkup
