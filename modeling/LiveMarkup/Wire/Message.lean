/-
Messages between the editor and the preview.

A message travels as a JSON text: an object whose `type` names the kind of the message, with the fields
of that kind beside it. Each kind has its direction, and a receiver refuses a message that it could only
have sent itself.
-/
import LiveMarkup.Json.Build
import LiveMarkup.Json.Parse
import LiveMarkup.Json.Print
import LiveMarkup.Wire.Settings

set_option autoImplicit false

namespace LiveMarkup.Wire

/-- Which way a message travels. -/
inductive Direction where
  | toPreview
  | toEditor
deriving DecidableEq, Repr

/-- A direction in words. -/
def Direction.name : Direction → String
  | toPreview => "parent to preview"
  | toEditor => "preview to parent"

/-- The kinds of messages. -/
inductive Kind where
  | init | ready | render | setCss | setHighlight | runScript | disableScript | externalScripts | select
deriving DecidableEq, Repr

namespace Kind

/-- The name of a kind, as a message carries it. -/
def name : Kind → String
  | init => "INIT"
  | ready => "READY"
  | render => "RENDER"
  | setCss => "SET_CSS"
  | setHighlight => "SET_HIGHLIGHT"
  | runScript => "RUN_JS"
  | disableScript => "DISABLE_JS"
  | externalScripts => "EXTERNAL_SCRIPTS"
  | select => "SELECT"

/-- All kinds. -/
def all : List Kind :=
  [init, ready, render, setCss, setHighlight, runScript, disableScript, externalScripts, select]

/-- The kind with a name. -/
def ofName? (name : String) : Option Kind := all.find? fun k => k.name = name

/-- The preview says when it is ready and what was selected; all else comes from the editor. -/
def direction : Kind → Direction
  | ready | select => .toEditor
  | _ => .toPreview

/-- A kind is known by its name. -/
theorem ofName?_name (k : Kind) : ofName? k.name = some k := by cases k <;> decide

end Kind

/-- A message. -/
inductive Message where
  /-- The editor greets the page that was loaded. -/
  | init (session : String) (settings : Settings)
  /-- The page answers the greeting of a session. -/
  | ready (session : String)
  /-- Show this content. -/
  | render (html css : String) (shadowMode highlight : Bool)
  /-- Show the content with this style sheet. -/
  | setCss (css : String)
  /-- Outline the element under the pointer, or stop doing so. -/
  | setHighlight (highlight : Bool)
  /-- Run this script, in place of the one before. -/
  | runScript (script : String)
  /-- Take the script away. -/
  | disableScript
  /-- Load these scripts one after the other. -/
  | externalScripts (urls : List String)
  /-- The element with this token was clicked. -/
  | select (token : String)
deriving DecidableEq, Repr

/-- Why a text is no message for its receiver. -/
inductive ReadError where
  | malformed
  | wrongDirection (kind : Kind) (expected : Direction)
deriving DecidableEq, Repr

/-- The text of the error. -/
def ReadError.message : ReadError → String
  | malformed => "malformed preview message"
  | wrongDirection kind expected => kind.name ++ " is not expected in the " ++ expected.name ++ " direction"

namespace Message

/-- The kind of a message. -/
def kind : Message → Kind
  | init .. => .init
  | ready _ => .ready
  | render .. => .render
  | setCss _ => .setCss
  | setHighlight _ => .setHighlight
  | runScript _ => .runScript
  | disableScript => .disableScript
  | externalScripts _ => .externalScripts
  | select _ => .select

/-- Which way a message travels. -/
def direction (m : Message) : Direction := m.kind.direction

/-! ## Writing -/

/-- The fields of a message. -/
def payload : Message → List (String × Json)
  | init session settings => [("sessionId", .string session), ("settings", settings.toJson)]
  | ready session => [("sessionId", .string session)]
  | render html css shadowMode highlight =>
    [("canonicalHtml", .string html), ("cssText", .string css), ("shadowMode", .bool shadowMode),
     ("highlight", .bool highlight)]
  | setCss css => [("cssText", .string css)]
  | setHighlight highlight => [("highlight", .bool highlight)]
  | runScript script => [("scriptText", .string script)]
  | disableScript => []
  | externalScripts urls => [("urls", .ofList urls .string)]
  | select token => [("token", .string token)]

/-- A message as JSON. -/
def toJson (m : Message) : Json := .object (("type", .string m.kind.name) :: m.payload)

/-- The text of a message. -/
def write (m : Message) : String := m.toJson.compact

/-! ## Reading -/

/-- The kind that a JSON value names and the value that holds the fields: the value itself, or what
follows the name in an array. -/
def tagged? (j : Json) : Option (Kind × Json) :=
  match j with
  | .array (.string name :: items) => (Kind.ofName? name).map fun k => (k, .array items)
  | .object _ => do
    match ← j.fields? ["type"] with
    | [some (.string name)] => return (← Kind.ofName? name, j)
    | _ => none
  | _ => none

/-- The message of a kind with the given fields; none of them may be left out. -/
def ofFields? (kind : Kind) (j : Json) : Option Message :=
  match kind with
  | .init => do
    match ← j.fields? ["sessionId", "settings"] with
    | [session, settings] => return init (← session.bind Json.text?) (← settings.bind Settings.ofJson?)
    | _ => none
  | .ready => do
    match ← j.fields? ["sessionId"] with
    | [session] => return ready (← session.bind Json.text?)
    | _ => none
  | .render => do
    match ← j.fields? ["canonicalHtml", "cssText", "shadowMode", "highlight"] with
    | [html, css, shadowMode, highlight] =>
      return render (← html.bind Json.text?) (← css.bind Json.text?) (← shadowMode.bind Json.flag?)
        (← highlight.bind Json.flag?)
    | _ => none
  | .setCss => do
    match ← j.fields? ["cssText"] with
    | [css] => return setCss (← css.bind Json.text?)
    | _ => none
  | .setHighlight => do
    match ← j.fields? ["highlight"] with
    | [highlight] => return setHighlight (← highlight.bind Json.flag?)
    | _ => none
  | .runScript => do
    match ← j.fields? ["scriptText"] with
    | [script] => return runScript (← script.bind Json.text?)
    | _ => none
  | .disableScript => (j.fields? []).map fun _ => disableScript
  | .externalScripts => do
    match ← j.fields? ["urls"] with
    | [urls] => return externalScripts (← urls.bind (Json.list? Json.text?))
    | _ => none
  | .select => do
    match ← j.fields? ["token"] with
    | [token] => return select (← token.bind Json.text?)
    | _ => none

/-- The message that a JSON value describes. -/
def ofJson? (j : Json) : Option Message := do
  let (kind, fields) ← tagged? j
  ofFields? kind fields

/-- How deep the values of a message may be nested. -/
def maxDepth : Nat := 127

/-- The message that a text describes. Also what the message does not use has to be readable. -/
def read? (text : String) : Option Message := do
  let j ← Json.parse? text
  if j.isReadable && j.depth ≤ maxDepth then ofJson? j else none

/-- The message that a text describes. -/
def read (text : String) : Except ReadError Message :=
  match read? text with
  | some m => .ok m
  | none => .error .malformed

/-- The message that a text describes, for a receiver of messages in one direction. -/
def readFor (expected : Direction) (text : String) : Except ReadError Message := do
  let m ← read text
  if m.direction = expected then return m else throw (.wrongDirection m.kind expected)

end Message

end LiveMarkup.Wire
