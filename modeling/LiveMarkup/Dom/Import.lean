/-
Copying part of one tree into another.

The copy is detached and has no place in the source text and no shadow tree; the contents of templates
are copied with it. A document, like a fragment, is copied as a fragment.
-/
import LiveMarkup.Dom.Tree

set_option autoImplicit false

namespace LiveMarkup.Tree

/-- What the copy of a node is. -/
def copiedKind : Kind → Kind
  | .document => .fragment none
  | .fragment _ => .fragment none
  | .element e => .element ⟨e.name, e.attributes, e.space, none, none, none⟩
  | .text s => .text s
  | .comment s => .comment s

/-- Copies what is under a node of `source`, down to a depth, and says where the copy is. -/
def importTo (source : Tree) : Nat → Tree → NodeId → Tree × Option NodeId
  | 0, t, _ => (t, none)
  | depth + 1, t, id =>
    match source.get? id with
    | none => (t, none)
    | some node =>
      let (t, copy) := t.alloc (copiedKind node.kind)
      let t :=
        match source.contents? id with
        | none => t
        | some contents =>
          let (t, copied) := importTo source depth t contents
          t.modifyElement copy fun e => { e with contents := copied }
      let t := node.children.foldl
        (fun t child =>
          match importTo source depth t child with
          | (t, some copied) => t.appendChild copy copied
          | (t, none) => t) t
      (t, some copy)

/-- Copies what is under a node of `source` and says where the copy is; none when there is no such
node. -/
def importSubtree (t source : Tree) (id : NodeId) : Tree × Option NodeId :=
  importTo source source.size t id

/-- Copies the children of a node of `source` and makes the copies children of `parent`, before
`reference` when that is one of its children, else at the end. -/
def importChildren (t source : Tree) (id parent : NodeId) (reference : Option NodeId) : Tree :=
  (source.children id).foldl
    (fun t child =>
      match t.importSubtree source child with
      | (t, some copy) => t.insertBefore parent copy reference
      | (t, none) => t) t

/-- Adds a node and makes it a child of `parent`, before `reference` when that is one of its children,
else at the end; says where the node is. -/
def addChild (t : Tree) (kind : Kind) (parent : NodeId) (reference : Option NodeId) : Tree × NodeId :=
  let (t, id) := t.alloc kind
  (t.insertBefore parent id reference, id)

end LiveMarkup.Tree
