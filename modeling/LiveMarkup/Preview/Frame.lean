/-
The preview's side.

A frame shows what the editor sends it, outlines the element under the pointer and the selected one, and
tells the editor what was clicked. It is a machine: an event changes it and makes it send messages.
Where scripts come from and where the boxes of elements are is given with each event. What scripts do
when they run does not show in the page.
-/
import LiveMarkup.Preview.Layout
import LiveMarkup.Preview.Page
import LiveMarkup.Wire.Channel

set_option autoImplicit false

namespace LiveMarkup.Preview

open Wire

/-! ## State -/

/-- An element that is outlined. -/
structure Outline where
  node : NodeId
  /-- Its token. -/
  token : String
  /-- Its box, if it has one. -/
  rect : Option Rect

/-- A script that the page uses. -/
structure LoadedScript where
  url : String
  /-- Its text, unless it could not be loaded. -/
  source : Option String
deriving DecidableEq, Repr

/-- The preview's side. -/
structure Frame where
  setup : Setup
  /-- The settings of the session. -/
  settings : Settings
  /-- The session that was last answered. -/
  session : Option String
  page : Page
  /-- Whether content is put into the shadow tree. -/
  shadowMode : Bool
  /-- Whether the element under the pointer is outlined. -/
  highlight : Bool
  /-- The markup that was last shown. -/
  rendered : Option String
  /-- The element under the pointer. -/
  hover : Option Outline
  /-- The element that was last clicked. -/
  selection : Option Outline
  externalScripts : List LoadedScript
  /-- The user's script. -/
  userScript : Option String

/-- What is around a frame. -/
structure Surroundings where
  /-- Gives the script at an address, if there is one. -/
  fetch : String → Option String
  /-- Says where the boxes of elements are, if anyone does. -/
  layout : Option Layout

/-- The frame after an event. -/
structure Outcome where
  frame : Frame
  /-- The messages for the editor. -/
  sent : List Message
  /-- Whether the event was a click into the content, which has no effect of its own then. -/
  prevented : Bool

namespace Frame

/-- A frame with an empty page. -/
def ofSetup (setup : Setup) : Frame where
  setup := setup
  settings := .default
  session := none
  page := .ofSetup setup
  shadowMode := Settings.default.shadowMode
  highlight := Settings.default.highlight
  rendered := none
  hover := none
  selection := none
  externalScripts := []
  userScript := none

/-- An event that sends no message. -/
def quietly (f : Frame) : Outcome := ⟨f, [], false⟩

/-! ## Outlines -/

/-- The box of a node. -/
def rect? (f : Frame) (w : Surroundings) (id : NodeId) : Option Rect :=
  w.layout.bind fun layout => layout f.page.tree id

/-- The nearest node with a token, from a node up through the composed tree, and the token. -/
def nearestToken? (f : Frame) (id : NodeId) : Option (NodeId × String) :=
  (f.page.tree.composedPath id).findSome? fun node =>
    (f.page.tree.attribute? node f.settings.identityAttribute).map fun token => (node, token)

/-- The outline of the nearest element of the content that has a token. -/
def outlineAt? (f : Frame) (w : Surroundings) (target : NodeId) : Option Outline :=
  if f.page.contains target then
    match f.nearestToken? target with
    | some (node, token) => if f.page.contains node then some ⟨node, token, f.rect? w node⟩ else none
    | none => none
  else none

/-- The outline of the first element of the content with a token. -/
def outlineOf? (f : Frame) (w : Surroundings) (token : String) : Option Outline :=
  (f.page.find? f.settings.identityAttribute token).map fun node => ⟨node, token, f.rect? w node⟩

/-- The outline with the box that its element has now. -/
def refreshed (f : Frame) (w : Surroundings) (o : Outline) : Outline := { o with rect := f.rect? w o.node }

/-! ## Content -/

/-- Shows markup. All nodes of the content are new, so nothing is under the pointer, and the selected
element is looked for by its token. -/
def render (f : Frame) (w : Surroundings) (html : String) : Frame :=
  let f := { f with page := f.page.render html f.shadowMode, rendered := some html, hover := none }
  { f with selection := f.selection.bind fun o => f.outlineOf? w o.token }

/-- Shows the same markup again, if there was any. -/
def rerender (f : Frame) (w : Surroundings) : Frame :=
  match f.rendered with
  | some html => f.render w html
  | none => f

/-- Switches shadow mode. -/
def setShadowMode (f : Frame) (w : Surroundings) (shadowMode : Bool) : Frame :=
  { f with shadowMode }.rerender w

/-- Switches outlining; without it nothing is outlined as under the pointer. -/
def switchHighlight (f : Frame) (highlight : Bool) : Frame :=
  { f with highlight, hover := if highlight then f.hover else none }

/-- Switches outlining and shows the markup again. -/
def setHighlight (f : Frame) (w : Surroundings) (highlight : Bool) : Frame :=
  (f.switchHighlight highlight).rerender w

/-! ## Scripts -/

/-- Loads scripts one after the other; one that cannot be loaded is left out of the page. The same
scripts as before are not loaded again. -/
def loadScripts (f : Frame) (w : Surroundings) (urls : List String) : Frame :=
  if f.externalScripts.map (·.url) = urls then f
  else
    let loaded := urls.map fun url => (⟨url, w.fetch url⟩ : LoadedScript)
    let added := loaded.filter fun s => s.source.isSome
    { f with
      externalScripts := loaded
      page := added.foldl (fun p s => p.addExternalScript s.url) f.page.clearExternalScripts }

/-! ## Messages -/

/-- The editor greets the page. -/
def onInit (f : Frame) (session : String) (settings : Settings) : Outcome :=
  ⟨{ f with
      settings, session := some session, shadowMode := settings.shadowMode,
      highlight := settings.highlight },
    [.ready session], false⟩

/-- The editor sends content. -/
def onRender (f : Frame) (w : Surroundings) (html css : String) (shadowMode highlight : Bool) : Frame :=
  let f := { f with shadowMode }.switchHighlight highlight
  { f with page := f.page.setCss css }.render w html

/-- A message arrived. Only the editor is listened to. -/
def onMessage (f : Frame) (w : Surroundings) (e : Envelope) : Outcome :=
  if e.origin = f.setup.editorOrigin then
    match e.message with
    | .init session settings => f.onInit session settings
    | .render html css shadowMode highlight => (f.onRender w html css shadowMode highlight).quietly
    | .setCss css => { f with page := f.page.setCss css }.quietly
    | .setHighlight highlight => (f.setHighlight w highlight).quietly
    | .runScript text => { f with page := f.page.insertUserScript text, userScript := some text }.quietly
    | .disableScript => { f with page := f.page.removeUserScript, userScript := none }.quietly
    | .externalScripts urls => (f.loadScripts w urls).quietly
    | .ready _ | .select _ => f.quietly
  else f.quietly

/-! ## The pointer -/

/-- The pointer came over a node. -/
def pointerOver (f : Frame) (w : Surroundings) (target : NodeId) : Frame :=
  { f with hover := (f.outlineAt? w target).filter fun _ => f.highlight }

/-- The pointer left the content. -/
def pointerOut (f : Frame) : Frame := { f with hover := none }

/-- A node was clicked. -/
def click (f : Frame) (w : Surroundings) (target : NodeId) : Outcome :=
  match f.outlineAt? w target with
  | some o => ⟨{ f with selection := some o }, [.select o.token], true⟩
  | none => ⟨f, [], f.page.contains target⟩

/-- The topmost element at a point. -/
def elementAt? (f : Frame) (w : Surroundings) (p : Point) : Option NodeId :=
  w.layout.bind fun layout => hitTest f.page.tree layout p Tree.root

/-- The layout changed. -/
def refreshLayout (f : Frame) (w : Surroundings) : Frame :=
  { f with hover := f.hover.map (f.refreshed w), selection := f.selection.map (f.refreshed w) }

end Frame

/-! ## Events -/

/-- What can happen to a frame. -/
inductive Event where
  /-- A message arrived. -/
  | message (e : Envelope)
  /-- The pointer came over a node. -/
  | pointerOver (target : NodeId)
  | pointerOut
  /-- A node was clicked. -/
  | click (target : NodeId)
  /-- The pointer came to a point. -/
  | hoverAt (p : Point)
  /-- A point was clicked. -/
  | clickAt (p : Point)
  /-- The layout changed. -/
  | refreshLayout
  | shadowMode (on : Bool)
  | highlight (on : Bool)

namespace Frame

/-- What an event does. -/
def step (w : Surroundings) (f : Frame) : Event → Outcome
  | .message e => f.onMessage w e
  | .pointerOver target => (f.pointerOver w target).quietly
  | .pointerOut => f.pointerOut.quietly
  | .click target => f.click w target
  | .hoverAt p =>
    match f.elementAt? w p with
    | some target => (f.pointerOver w target).quietly
    | none => f.pointerOut.quietly
  | .clickAt p =>
    match f.elementAt? w p with
    | some target => f.click w target
    | none => f.quietly
  | .refreshLayout => (f.refreshLayout w).quietly
  | .shadowMode on => (f.setShadowMode w on).quietly
  | .highlight on => (f.setHighlight w on).quietly

/-- The frame after one event after another. -/
def run (w : Surroundings) (f : Frame) (events : List Event) : Frame :=
  events.foldl (fun f e => (f.step w e).frame) f

end Frame

end LiveMarkup.Preview
