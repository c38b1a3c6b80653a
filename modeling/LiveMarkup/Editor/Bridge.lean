/-
The editor's side of a preview.

A bridge knows what is edited and what one preview shows of it. It is a machine: an event changes it and
has effects, which are messages for the preview, changes to what the editor shows, and requests to those
who compile style sheets and render shortcodes. Who these are is given with each event.

A preview that was loaded is greeted with the name of a new session and listens once it has answered
with that name. Until then what it should show is not sent but remembered; what is sent in the end is
made from the state at that time.
-/
import LiveMarkup.Css.Applies
import LiveMarkup.Editor.Compilation
import LiveMarkup.Editor.Expansion
import LiveMarkup.Editor.Replica
import LiveMarkup.Editor.Setup
import LiveMarkup.Identity.Canonical
import LiveMarkup.Source.Position
import LiveMarkup.Wire.Channel

set_option autoImplicit false

namespace LiveMarkup.Editor

open Source Wire

/-! ## State -/

/-- How far the editor and the preview have come in meeting each other. -/
inductive Phase where
  /-- No preview was loaded yet. -/
  | initializing
  /-- The preview was greeted. -/
  | awaitingReady
  /-- The preview listens. -/
  | ready
deriving DecidableEq, Repr

/-- The name of a phase. -/
def Phase.name : Phase → String
  | initializing => "Initializing"
  | awaitingReady => "AwaitingReady"
  | ready => "Ready"

/-- What is to be done with the user's script. -/
inductive ScriptAction where
  | run
  | disable
deriving DecidableEq, Repr

/-- What has to be sent once the preview listens. -/
structure Pending where
  render : Bool
  externalScripts : Bool
  script : Option ScriptAction
deriving DecidableEq, Repr

/-- Nothing has to be sent. -/
def Pending.nothing : Pending := ⟨false, false, none⟩

/-- The editor's side of a preview. -/
structure Bridge where
  setup : Setup
  phase : Phase
  /-- The name of the session. -/
  session : Option String
  /-- How often a preview was loaded. -/
  loads : Nat
  pending : Pending
  /-- The source as the user edits it. -/
  source : String
  /-- The style sheet as the user edits it. -/
  css : String
  /-- The script as the user edits it. -/
  script : String
  /-- The addresses of the scripts that the page uses. -/
  externalScripts : List String
  /-- What was last asked for with the user's script. -/
  scriptAction : Option ScriptAction
  /-- Whether anything was asked to be shown yet. -/
  rendered : Bool
  canonicalizer : Identity.Canonicalizer
  /-- The markup that is shown: canonical, with shortcodes rendered. -/
  html : String
  /-- A tree of that markup, when it can be read. -/
  replica : Option Replica
  /-- The token of the selected element. -/
  selected : Option String
  compilation : Compilation
  renderings : Renderings
deriving Repr

/-- What an event leads to outside of the bridge. -/
inductive Effect where
  /-- A message for the preview. -/
  | post (m : Message)
  /-- The source of the selected element is marked. -/
  | highlightSource (r : EditorRange)
  /-- The source of the selected element is scrolled into view. -/
  | revealSource (r : EditorRange)
  /-- These rules of the style sheet are marked, and no others. -/
  | highlightRules (rs : List EditorRange)
  /-- All marks are removed. -/
  | clearHighlights
  /-- A status is shown, or none. -/
  | showStatus (text : Option String)
  /-- A style sheet is to be compiled. -/
  | compile (request : CompileRequest)
  /-- Shortcodes are to be rendered. -/
  | expand (requests : List RenderRequest)
deriving DecidableEq, Repr

/-- The message that an effect sends. -/
def Effect.message? : Effect → Option Message
  | post m => some m
  | _ => none

/-- Those who work for the editor. -/
structure Helpers where
  /-- Whether there is a compiler of style sheets. -/
  hasCompiler : Bool
  /-- Who renders shortcodes, if anyone does. -/
  expander : Option Expander

/-- The bridge after an event, and the effects in their order. -/
structure Step where
  bridge : Bridge
  effects : List Effect
deriving Repr

/-- One step after another. -/
def Step.andThen (s : Step) (next : Bridge → Step) : Step :=
  let t := next s.bridge
  ⟨t.bridge, s.effects ++ t.effects⟩

namespace Bridge

/-- A bridge to a preview that was not loaded yet. -/
def ofSetup (setup : Setup) : Bridge where
  setup := setup
  phase := .initializing
  session := none
  loads := 0
  pending := .nothing
  source := ""
  css := ""
  script := ""
  externalScripts := []
  scriptAction := none
  rendered := false
  canonicalizer := .ofScheme setup.identity
  html := ""
  replica := none
  selected := none
  compilation := .ofDelay setup.compileDelay
  renderings := .empty

/-- The style sheet that is shown: the last compiled one in utility mode, else the user's. -/
def shownCss (b : Bridge) : String := if b.setup.utilityCss then b.compilation.lastGood else b.css

/-- A step without effects. -/
def quietly (b : Bridge) : Step := ⟨b, []⟩

/-- A step that sends a message. -/
def posting (b : Bridge) (m : Message) : Step := ⟨b, [.post m]⟩

/-! ## Meeting the preview -/

/-- The message that shows the page. -/
def renderMessage (b : Bridge) : Message :=
  .render b.html b.shownCss b.setup.shadowMode b.setup.highlight

/-- The message that carries out a script action. -/
def scriptMessage (b : Bridge) : ScriptAction → Message
  | .run => .runScript b.script
  | .disable => .disableScript

/-- A preview was loaded. What the one before showed is gone and has to be sent again. -/
def onLoaded (b : Bridge) : Step :=
  let loads := b.loads + 1
  let session := b.setup.postId ++ ":" ++ toString loads
  let script := match b.pending.script, b.scriptAction with
    | none, some .run => some .run
    | waiting, _ => waiting
  let pending := ⟨b.pending.render || b.rendered,
    b.pending.externalScripts || !b.externalScripts.isEmpty, script⟩
  { b with loads, session := some session, phase := .awaitingReady, pending }.posting
    (.init session b.setup.previewSettings)

/-- The messages for what is pending: first the page, then the scripts it uses, then the user's. -/
def pendingMessages (b : Bridge) : List Message :=
  (if b.pending.render then [b.renderMessage] else []) ++
    (if b.pending.externalScripts then [.externalScripts b.externalScripts] else []) ++
    b.pending.script.toList.map b.scriptMessage

/-- The preview answered a greeting; what is pending is sent if the greeting was the last one. -/
def onReady (b : Bridge) (session : String) : Step :=
  if b.phase = .awaitingReady ∧ b.session = some session then
    ⟨{ b with phase := .ready, pending := .nothing }, b.pendingMessages.map .post⟩
  else b.quietly

/-- Sends a message if the preview listens; else the bridge remembers what it is for. -/
def postOr (b : Bridge) (m : Message) (remember : Pending → Pending) : Step :=
  if b.phase = .ready then b.posting m else { b with pending := remember b.pending }.quietly

/-! ## The page -/

/-- The canonical markup of the source, with the shortcodes rendered if anyone renders them. -/
def expanded (b : Bridge) (h : Helpers) (canonical : String) : Expansion :=
  match h.expander with
  | none => ⟨canonical, b.renderings, []⟩
  | some expander => expandShortcodes expander b.renderings b.source canonical

/-- The replica of the page with some markup; the one at hand is kept if it is of that markup. -/
def replicaOf? (b : Bridge) (html : String) : Option Replica :=
  match b.replica with
  | some r => if r.html = html then some r else Replica.ofHtml? html
  | none => Replica.ofHtml? html

/-- Brings the markup that is shown up to date with the source. -/
def refresh (b : Bridge) (h : Helpers) : Step :=
  let (canonical, canonicalizer) := b.canonicalizer.run b.source
  let e := b.expanded h canonical.html
  ⟨{ b with
      canonicalizer, html := e.html, replica := b.replicaOf? e.html, renderings := e.renderings },
    if e.requests.isEmpty then [] else [.expand e.requests]⟩

/-- Shows the page. -/
def sendRender (b : Bridge) (h : Helpers) : Step :=
  ({ b with rendered := true }.refresh h).andThen fun b =>
    b.postOr b.renderMessage fun p => { p with render := true }

/-! ## The selection -/

/-- The places in the style sheet of the rules that apply to an element of the replica. -/
def ruleRanges (b : Bridge) (r : Replica) (node : NodeId) : List EditorRange :=
  ((Css.applyingRules b.css r.tree b.setup.media node).filterMap fun rule =>
    Span.ofBounds? rule.span.start rule.span.stop).map (EditorRange.ofSpan b.css)

/-- Marks the rules that apply to the element with a token. -/
def highlightRules (b : Bridge) (token : String) : Step :=
  match b.replica with
  | none => b.quietly
  | some r =>
    match r.find? b.setup.identity.key token with
    | none => b.quietly
    | some node => ⟨b, [.highlightRules (b.ruleRanges r node)]⟩

/-- The element with a token was selected in the preview. A token that the source does not have any
more is ignored. -/
def onSelect (b : Bridge) (token : String) : Step :=
  match b.canonicalizer.cached?.bind (·.span? token) with
  | none => b.quietly
  | some span =>
    let range := EditorRange.ofSpan b.source span
    let step : Step :=
      ⟨{ b with selected := some token }, [.highlightSource range, .revealSource range]⟩
    step.andThen fun b => if b.setup.utilityCss then b.quietly else b.highlightRules token

/-- Nothing is selected any more. -/
def clearSelection (b : Bridge) : Step := ⟨{ b with selected := none }, [.clearHighlights]⟩

/-- A message arrived. Only the preview is listened to, and only when it is ready or something was
selected. -/
def onMessage (b : Bridge) (e : Envelope) : Step :=
  if e.origin = b.setup.previewOrigin then
    match e.message with
    | .ready session => b.onReady session
    | .select token => b.onSelect token
    | _ => b.quietly
  else b.quietly

/-! ## Edits -/

/-- A compilation is wanted, after a pause from now on. -/
def requestCompile (b : Bridge) (now : Nat) : Bridge :=
  { b with compilation := b.compilation.schedule now }

/-- The source was edited. -/
def onSource (b : Bridge) (h : Helpers) (source : String) (now : Nat) : Step :=
  ({ b with source, canonicalizer := b.canonicalizer.invalidate }.clearSelection.andThen
    fun b => b.sendRender h).andThen
    fun b => if b.setup.utilityCss then (b.requestCompile now).quietly else b.quietly

/-- Sends the style sheet alone, if the preview listens. -/
def sendCss (b : Bridge) : Step :=
  if b.phase = .ready then b.posting (.setCss b.shownCss) else b.quietly

/-- The style sheet was edited. In utility mode it has to be compiled first. -/
def onCss (b : Bridge) (css : String) (now : Nat) : Step :=
  let b := { b with css }
  if b.setup.utilityCss then (b.requestCompile now).quietly
  else b.sendCss.andThen fun b =>
    match b.selected with
    | some token => b.highlightRules token
    | none => b.quietly

/-! ## Modes -/

/-- Shadow mode is switched. -/
def setShadowMode (b : Bridge) (h : Helpers) (shadowMode : Bool) : Step :=
  { b with setup := { b.setup with shadowMode } }.sendRender h

/-- Outlining is switched. -/
def setHighlight (b : Bridge) (highlight : Bool) : Step :=
  let b := { b with setup := { b.setup with highlight } }
  if b.phase = .ready then b.posting (.setHighlight highlight) else b.quietly

/-- Utility mode is switched. -/
def setUtilityCss (b : Bridge) (utilityCss : Bool) (now : Nat) : Step :=
  let b := { b with setup := { b.setup with utilityCss } }
  let compilation := if utilityCss then b.compilation.schedule now else b.compilation.cancel
  { b with compilation }.sendCss

/-! ## Scripts -/

/-- The page uses other scripts. -/
def setExternalScripts (b : Bridge) (urls : List String) : Step :=
  { b with externalScripts := urls }.postOr (.externalScripts urls) fun p => { p with externalScripts := true }

/-- Something is to be done with the user's script. -/
def requestScript (b : Bridge) (action : ScriptAction) : Step :=
  { b with scriptAction := some action }.postOr (b.scriptMessage action) fun p =>
    { p with script := some action }

/-! ## Compilation -/

/-- Asks for a compilation if one is due. -/
def poll (b : Bridge) (h : Helpers) (now : Nat) : Step :=
  let (id, compilation) := b.compilation.poll h.hasCompiler now
  ⟨{ b with compilation }, id.toList.map fun id => .compile ⟨id, b.source, b.css⟩⟩

/-- The compiler answered a request. -/
def onCompiled (b : Bridge) (id : Nat) (result : Except CompileError String) : Step :=
  match b.compilation.answer? id result with
  | none => b.quietly
  | some compilation =>
    let step : Step := ⟨{ b with compilation }, [.showStatus compilation.status]⟩
    match result with
    | .ok _ => step.andThen sendCss
    | .error _ => step

end Bridge

/-! ## Events -/

/-- What can happen to a bridge; `now` is the time in milliseconds. -/
inductive Event where
  /-- A preview was loaded. -/
  | loaded
  /-- A message arrived. -/
  | message (e : Envelope)
  /-- The source was edited. -/
  | source (text : String) (now : Nat)
  /-- The style sheet was edited. -/
  | css (text : String) (now : Nat)
  /-- The script was edited. -/
  | script (text : String)
  /-- The page is to be shown. -/
  | render
  /-- The style sheet is to be shown. -/
  | showCss
  | shadowMode (on : Bool)
  | highlight (on : Bool)
  | utilityCss (on : Bool) (now : Nat)
  /-- The page uses these scripts. -/
  | externalScripts (urls : List String)
  /-- Something is to be done with the user's script. -/
  | requestScript (action : ScriptAction)
  /-- An element was selected. -/
  | select (token : String)
  | clearSelection
  /-- A compilation is wanted. -/
  | requestCompile (now : Nat)
  /-- Time has passed. -/
  | poll (now : Nat)
  /-- The compiler answered. -/
  | compiled (id : Nat) (result : Except CompileError String)

namespace Bridge

/-- What an event does. -/
def step (h : Helpers) (b : Bridge) : Event → Step
  | .loaded => b.onLoaded
  | .message e => b.onMessage e
  | .source text now => b.onSource h text now
  | .css text now => b.onCss text now
  | .script text => { b with script := text }.quietly
  | .render => b.sendRender h
  | .showCss => b.sendCss
  | .shadowMode on => b.setShadowMode h on
  | .highlight on => b.setHighlight on
  | .utilityCss on now => b.setUtilityCss on now
  | .externalScripts urls => b.setExternalScripts urls
  | .requestScript action => b.requestScript action
  | .select token => b.onSelect token
  | .clearSelection => b.clearSelection
  | .requestCompile now => (b.requestCompile now).quietly
  | .poll now => b.poll h now
  | .compiled id result => b.onCompiled id result

/-- What one event after another does. -/
def run (h : Helpers) (b : Bridge) (events : List Event) : Step :=
  events.foldl (fun s e => s.andThen fun b => b.step h e) b.quietly

end Bridge

end LiveMarkup.Editor
