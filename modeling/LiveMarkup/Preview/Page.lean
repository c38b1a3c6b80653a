/-
The page of a preview.

The page has a fixed skeleton. Its head holds the style sheet and the scripts that the page uses, its
body the region with the content, followed by the user's script. In shadow mode the content stands in
the shadow tree of the region, together with the style sheet, and the style element of the head is empty.
-/
import LiveMarkup.Dom.Import
import LiveMarkup.Dom.Walk
import LiveMarkup.Html.Builder
import LiveMarkup.Html.Serialize
import LiveMarkup.Preview.Setup
import LiveMarkup.Preview.StyleText

set_option autoImplicit false

namespace LiveMarkup.Preview

/-- The page of a preview. -/
structure Page where
  tree : Tree
  head : NodeId
  body : NodeId
  /-- The style element of the head. -/
  style : NodeId
  /-- The region that the content is put into. -/
  region : NodeId
  /-- The id of the region. -/
  regionId : String
  /-- The style element of the shadow tree, in shadow mode. -/
  shadowStyle : Option NodeId
  /-- Whether the content was put into the shadow tree. -/
  shadowMode : Bool
  /-- The style sheet. -/
  css : String
  /-- The id of the element with the user's script. -/
  scriptId : String
  /-- The elements of the scripts that the page uses. -/
  externalScripts : List NodeId
deriving DecidableEq, Repr

/-- An element of HTML with one attribute. -/
def elementWith (name key value : String) : Kind := .element ((Element.ofName name).setAttribute key value)

namespace Page

/-- The page before anything is shown. -/
def ofSetup (s : Setup) : Page :=
  let (t, outer) := Tree.empty.addChild (.element (.ofName "html")) Tree.root none
  let (t, head) := t.addChild (.element (.ofName "head")) outer none
  let (t, body) := t.addChild (.element (.ofName "body")) outer none
  let (t, style) := t.addChild (elementWith "style" "id" s.styleId) head none
  let (tree, region) := t.addChild (elementWith "div" "id" s.contentId) body none
  { tree, head, body, style, region
    regionId := s.contentId, scriptId := s.scriptId
    shadowStyle := none, shadowMode := false, css := "", externalScripts := [] }

/-! ## Content -/

/-- The node that the content was put under. -/
def contentRoot (p : Page) : NodeId :=
  if p.shadowMode then (p.tree.shadow? p.region).getD p.region else p.region

/-- Writes the style sheet into the style element in use and empties the other one. -/
def applyCss (p : Page) : Page :=
  let active := p.shadowStyle.getD p.style
  let t := (p.tree.clearChildren p.style).clearChildren active
  let text := escapeStyleText p.css
  { p with tree := if text.isEmpty then t else (t.addChild (.text text) active none).1 }

/-- The page with another style sheet. -/
def setCss (p : Page) (css : String) : Page := { p with css }.applyCss

/-- The page without content, and without a style element for it. -/
def clearContent (p : Page) : Page :=
  let t := p.tree.clearChildren p.region
  let t := match t.shadow? p.region with
    | some root => t.clearChildren root
    | none => t
  { p with tree := t, shadowStyle := none }

/-- The page with the node under which content is to be put, and that node. -/
def attachRoot (p : Page) (shadowMode : Bool) : Page × NodeId :=
  let p := { p with shadowMode }
  if shadowMode then
    let (t, root) := p.tree.attachShadow p.region
    let root := root.getD p.region
    let (t, style) := t.addChild (.element (.ofName "style")) root none
    ({ p with tree := t, shadowStyle := some style }, root)
  else
    ({ p with tree := p.tree.modifyElement p.region fun e => { e with shadow := none } }, p.region)

/-- The page with other content. Markup that cannot be read is shown as text. -/
def render (p : Page) (html : String) (shadowMode : Bool) : Page :=
  let (p, root) := p.clearContent.attachRoot shadowMode
  let t := match Html.parse html with
    | .ok content => p.tree.importChildren content Tree.root root none
    | .error _ => (p.tree.addChild (.text html) root none).1
  { p with tree := t }.applyCss

/-- The first element of the content with a value of an attribute. -/
def find? (p : Page) (key value : String) : Option NodeId :=
  p.tree.descendantWith? p.contentRoot key value

/-- Whether a node belongs to the content. -/
def contains (p : Page) (id : NodeId) : Bool := id != p.region && (p.tree.composedPath id).contains p.region

/-! ## Scripts -/

/-- The element with the user's script. -/
def userScript? (p : Page) : Option NodeId := p.tree.elementById? p.body p.scriptId

/-- The page without the user's script. -/
def removeUserScript (p : Page) : Page :=
  match p.userScript? with
  | some id => { p with tree := p.tree.detach id }
  | none => p

/-- The page with a new user's script. -/
def insertUserScript (p : Page) (text : String) : Page :=
  let p := p.removeUserScript
  let (t, script) := p.tree.alloc (elementWith "script" "id" p.scriptId)
  let (t, _) := t.addChild (.text text) script none
  { p with tree := t.appendChild p.body script }

/-- The page with one more script that it uses. -/
def addExternalScript (p : Page) (url : String) : Page :=
  let (t, script) := p.tree.addChild (elementWith "script" "src" url) p.head none
  { p with tree := t, externalScripts := p.externalScripts ++ [script] }

/-- The page without the scripts that it uses. -/
def clearExternalScripts (p : Page) : Page :=
  { p with tree := p.externalScripts.foldl (fun t id => t.detach id) p.tree, externalScripts := [] }

/-! ## Markup -/

/-- A copy of the page's document, in which a template at the start of the region holds its shadow
tree. -/
def exported (p : Page) : Tree :=
  let t := Tree.empty.importChildren p.tree Tree.root Tree.root none
  match p.tree.shadow? p.region, t.elementById? Tree.root p.regionId with
  | some shadow, some host =>
    let (t, contents) := t.alloc (.fragment none)
    let t := t.importChildren p.tree shadow contents none
    let template := { (Element.ofName "template").setAttribute "shadowrootmode" "open" with
      contents := some contents }
    (t.addChild (.element template) host (t.children host).head?).1
  | _, _ => t

/-- The markup of the whole page. -/
def html (p : Page) : String := "<!DOCTYPE html>" ++ Html.serializeChildren p.exported Tree.root

end Page

end LiveMarkup.Preview
