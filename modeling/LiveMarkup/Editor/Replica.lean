/-
The editor's replica of the page.

To tell which style rules apply to a selected element, the editor keeps a tree of the markup that the
preview shows. The markup stands in a body, so that selectors of the whole document select as they do
in the preview.
-/
import LiveMarkup.Dom.Import
import LiveMarkup.Dom.Walk
import LiveMarkup.Html.Builder

set_option autoImplicit false

namespace LiveMarkup.Editor

/-- A tree of the markup that the preview shows. -/
structure Replica where
  /-- The markup. -/
  html : String
  /-- Its tree, inside of a body. -/
  tree : Tree
deriving DecidableEq, Repr

namespace Replica

/-- The replica of a page with this markup; none when the markup cannot be read. -/
def ofHtml? (html : String) : Option Replica :=
  match Html.parse html with
  | .error _ => none
  | .ok source =>
    let (t, outer) := Tree.empty.addChild (.element (.ofName "html")) Tree.root none
    let (t, body) := t.addChild (.element (.ofName "body")) outer none
    some ⟨html, t.importChildren source Tree.root body none⟩

/-- The first element with a value of an attribute. -/
def find? (r : Replica) (key value : String) : Option NodeId :=
  r.tree.descendantWith? Tree.root key value

end Replica

end LiveMarkup.Editor
