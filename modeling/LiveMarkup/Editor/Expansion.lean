/-
Shortcodes in place of their renderings.

The shortcodes of a source are rendered by someone else. Each is asked for once and its rendering kept;
one that is not answered is rendered as nothing. Renderings take the place of shortcodes in text only:
attributes and text that is no markup, as that of a script, keep them as they are.
-/
import LiveMarkup.Dom.Import
import LiveMarkup.Dom.Walk
import LiveMarkup.Html.Builder
import LiveMarkup.Html.Serialize
import LiveMarkup.Source.Shortcode

set_option autoImplicit false

namespace LiveMarkup.Editor

open Source

/-- A shortcode that is to be rendered. -/
structure RenderRequest where
  /-- The name of the request. -/
  id : String
  /-- The text of the shortcode. -/
  fragment : String
deriving DecidableEq, Repr

/-- Who renders shortcodes: gives the markup for each request, by its name. -/
abbrev Expander := List RenderRequest → List (String × String)

/-- The renderings so far. -/
structure Renderings where
  /-- The markup of each shortcode, by its text. -/
  known : List (String × String)
  /-- The number of the last request. -/
  lastNumber : Nat
deriving DecidableEq, Repr

namespace Renderings

/-- No renderings yet. -/
def empty : Renderings := ⟨[], 0⟩

/-- The requests for the shortcodes that are not known, each once, in order. -/
def requests (r : Renderings) (fragments : List String) : List RenderRequest :=
  ((fragments.eraseDups.filter fun f => (r.known.lookup f).isNone).zipIdx (r.lastNumber + 1)).map
    fun (fragment, number) => ⟨"shortcode-" ++ toString number, fragment⟩

/-- The renderings with the answers to requests; a request without an answer is rendered as nothing. -/
def learn (r : Renderings) (requests : List RenderRequest) (answers : List (String × String)) :
    Renderings where
  known := r.known ++ requests.map fun q => (q.fragment, (answers.lookup q.id).getD "")
  lastNumber := r.lastNumber + requests.length

end Renderings

/-! ## Texts with shortcodes -/

/-- A part of a text whose shortcodes are rendered. -/
inductive Piece where
  /-- Text between shortcodes. -/
  | text (text : String)
  /-- The rendering of a shortcode, as markup. -/
  | rendering (html : String)
deriving DecidableEq, Repr

/-- The text between two byte offsets, unless it is empty. -/
def textPiece (text : String) (start stop : Nat) : List Piece :=
  if start < stop then [.text ((Span.slice? ⟨start, stop⟩ text).getD "")] else []

/-- The parts of a text from a byte offset on, where its shortcodes are known. -/
def piecesFrom (text : String) (r : Renderings) (start : Nat) : List Shortcode → List Piece
  | [] => textPiece text start text.utf8ByteSize
  | s :: rest =>
    match r.known.lookup s.fragment with
    | none => piecesFrom text r start rest
    | some html => textPiece text start s.span.start ++ .rendering html :: piecesFrom text r s.span.stop rest

/-- Puts a part of a text into a tree, before a node. A rendering that cannot be read is left out. -/
def insertPiece (parent node : NodeId) (t : Tree) : Piece → Tree
  | .text text => (t.addChild (.text text) parent (some node)).1
  | .rendering html =>
    match Html.parse html with
    | .ok rendered => t.importChildren rendered Tree.root parent (some node)
    | .error _ => t

/-- A text whose shortcodes are to be rendered. -/
structure Placement where
  /-- The text. -/
  node : NodeId
  /-- Its shortcodes, in order. -/
  shortcodes : List Shortcode
deriving DecidableEq, Repr

/-- The tree with a text replaced by its parts. -/
def Placement.splice (p : Placement) (r : Renderings) (t : Tree) : Tree :=
  match t.parent? p.node, t.text? p.node with
  | some parent, some text =>
    ((piecesFrom text r 0 p.shortcodes).foldl (insertPiece parent p.node) t).removeChild parent p.node
  | _, _ => t

/-! ## Markup with shortcodes -/

/-- The elements whose text is no markup. -/
def opaqueNames : List String := ["script", "style", "textarea", "title"]

/-- Whether a node stands in an element whose text is no markup. -/
def isOpaque (t : Tree) (id : NodeId) : Bool :=
  ((t.parent? id).bind t.element?).any fun e => opaqueNames.contains e.name

/-- The texts of a tree with the shortcodes that also stand in the source. -/
def placements (t : Tree) (inSource : List String) : List Placement :=
  ((t.descendants Tree.root).filter (!isOpaque t ·)).filterMap fun id => do
    let found := (shortcodes (← t.text? id)).filter fun s => inSource.contains s.fragment
    if found.isEmpty then none else some ⟨id, found⟩

/-- Markup whose shortcodes are rendered. -/
structure Expansion where
  /-- The markup. -/
  html : String
  /-- The renderings, with those that were asked for. -/
  renderings : Renderings
  /-- What was asked for. -/
  requests : List RenderRequest
deriving DecidableEq, Repr

/-- The canonical markup of a source with its shortcodes rendered. -/
def expandShortcodes (expander : Expander) (r : Renderings) (source html : String) : Expansion :=
  match (shortcodes source).map (·.fragment), Html.parse html with
  | [], _ => ⟨html, r, []⟩
  | _, .error _ => ⟨html, r, []⟩
  | inSource, .ok t =>
    match placements t inSource with
    | [] => ⟨html, r, []⟩
    | found =>
      let requests := r.requests (found.flatMap fun p => p.shortcodes.map (·.fragment))
      let r := if requests.isEmpty then r else r.learn requests (expander requests)
      ⟨Html.serializeChildren (found.foldl (fun t p => p.splice r t) t) Tree.root, r, requests⟩

end LiveMarkup.Editor
