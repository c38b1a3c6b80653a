/-
Answering a command line.

A command reads files and reports about them, in text for people or in JSON. A failure is reported with
its cause and leaves nothing on the standard output.
-/
import LiveMarkup.Command.Arguments
import LiveMarkup.Command.Folder
import LiveMarkup.Command.Style
import LiveMarkup.Css.Applies
import LiveMarkup.Decimal.Shortest
import LiveMarkup.Identity.Canonical
import LiveMarkup.Json.Build
import LiveMarkup.Json.Print
import LiveMarkup.Preview.Frame
import LiveMarkup.Source.Edit
import LiveMarkup.Source.Position

set_option autoImplicit false

namespace LiveMarkup

/-! ## JSON -/

/-- A span as JSON. -/
def Span.toJson (s : Span) : Json := .object [("startOffset", .ofNat s.start), ("endOffset", .ofNat s.stop)]

/-- An attribute as JSON. -/
def Attribute.toJson (a : Attribute) : Json := .object [("name", a.name), ("value", a.value)]

/-- A rule as JSON. -/
def Css.Rule.toJson (r : Css.Rule) : Json :=
  .object [("selectorText", r.selector), ("startOffset", .ofNat r.span.start),
    ("endOffset", .ofNat r.span.stop), ("mediaQueries", .ofList r.media .string)]

/-- Canonical markup as JSON. -/
def Identity.Canonical.toJson (c : Canonical) : Json :=
  .object ([("canonicalHTML", Json.string c.html),
      ("map", .object (c.map.map fun (token, span) => (token, span.toJson)))] ++
    c.failure.toList.map fun f => ("error", Json.string f.message))

namespace Command

open Source

/-! ## Failures -/

/-- Why a command fails. -/
inductive Failure where
  /-- A file cannot be read. -/
  | reading (file : String) (cause : ReadError)
  /-- The identity attribute cannot be written. -/
  | identity (f : Identity.Failure)
  /-- A token names nothing whose text can be edited. -/
  | noText (token : String)
  /-- A token names no element of a file. -/
  | noElement (token file : String)
  /-- A file cannot be parsed. -/
  | parse (e : Html.ParseError)
deriving DecidableEq, Repr

/-- The text of the failure. -/
def Failure.message : Failure → String
  | reading file _ => "reading " ++ file
  | identity f => f.message
  | noText token => token ++ " has no editable inner text"
  | noElement token file => token ++ " names no element in " ++ file
  | parse e => e.message

/-- What lies behind the failure. -/
def Failure.cause? : Failure → Option String
  | reading _ cause => some cause.message
  | _ => none

/-- The failure as it is reported. -/
def Failure.describe (f : Failure) : String :=
  "Error: " ++ f.message ++
    (match f.cause? with
    | some cause => "\n\nCaused by:\n    " ++ cause
    | none => "") ++ "\n"

/-! ## Reports -/

/-- The text of a file. -/
def Files.read (files : Files) (file : String) : Except Failure String :=
  (files file).mapError (.reading file)

/-- A line. -/
def line (text : String) : String := text ++ "\n"

/-- A place, as in `1:4`. -/
def showPosition (p : Position) : String := toString p.line ++ ":" ++ toString p.column

/-- A range of places, as in `1:4-2:7`. -/
def showRange (r : EditorRange) : String := showPosition r.start ++ "-" ++ showPosition r.stop

/-- A range of bytes, as in `3..9`. -/
def showBytes (s : Span) : String := toString s.start ++ ".." ++ toString s.stop

/-- Where a span is in a source. -/
def showPlace (source : String) (s : Span) : String :=
  showRange (.ofSpan source s) ++ " (bytes " ++ showBytes s ++ ")"

/-- The report on canonical markup. -/
def reportCanonical (source : String) (c : Identity.Canonical) : String :=
  let warning := match c.failure with
    | some f => line (Style.bold.paint (Style.yellow.paint "warning:") ++ " " ++ f.message)
    | none => ""
  let entry := fun ((token, span) : String × Span) =>
    line ("  " ++ Style.cyan.paint (padded 8 token) ++ " " ++ padded 16 (showRange (.ofSpan source span)) ++
      " bytes " ++ showBytes span)
  warning ++ line "=== Canonical HTML ===" ++ line c.html ++ line "\n=== Offset Map ===" ++
    String.join (c.entriesByOffset.map entry) ++ line ("\n" ++ toString c.map.length ++ " elements")

/-- The report on the text of an element. -/
def reportText (source token text : String) (s : Span) : String :=
  line ("=== Text of " ++ Style.cyan.paint token ++ " ===") ++ line text ++
    line ("\n" ++ showPlace source s)

/-- A line with the name and the value of an attribute. -/
def reportAttribute (style : Style) (a : Attribute) (note : String) : String :=
  line ("  " ++ style.paint a.name ++ " = " ++ Text.quoted a.value ++ note)

/-- The report on a start tag. -/
def reportTag (source token : String) (s : Span) (isVoid : Bool) (tag : OpeningTag) : String :=
  line ("=== Opening tag of " ++ Style.cyan.paint token ++ " ===") ++
    line ("<" ++ Style.bold.paint tag.name ++ ">") ++
    String.join (tag.attributes.map (reportAttribute .green · "")) ++
    String.join (tag.identity.toList.map (reportAttribute .dimmed · " (identity)")) ++
    line ("\n" ++ showPlace source s ++ (if isVoid then ", void" else "") ++
      if tag.selfClosing then ", self-closing" else "")

/-- The lines on some rules of a style sheet. -/
def reportRules (css : String) (rules : List Css.Rule) : String :=
  String.join (rules.map fun r =>
    let place := match Span.ofBounds? r.span.start r.span.stop with
      | some span => showRange (.ofSpan css span)
      | none => ""
    line ("  " ++ padded 16 place ++ " " ++ Style.green.paint r.selector ++
      String.join (r.media.map fun query => "  " ++ Style.dimmed.paint "@media" ++ " " ++ query)))

/-- The start tag of an element as JSON. -/
def tagJson (s : Span) (isVoid : Bool) (tag : OpeningTag) : Json :=
  .object ([("attributes", Json.ofList tag.attributes Attribute.toJson), ("range", s.toJson),
      ("tagName", .string tag.name), ("isVoid", .bool isVoid), ("selfClosing", .bool tag.selfClosing)] ++
    tag.identity.toList.map fun a => ("identity", a.toJson))

/-- The page that a preview shows of canonical markup. -/
def previewPage (s : Identity.Scheme) (html css : String) (shadowMode : Bool) : String :=
  let setup := Preview.Setup.ofOrigins "vellum://preview" "vellum://editor"
  let messages : List Wire.Message :=
    [.init "cli:1" { Wire.Settings.default with identityAttribute := s.key, shadowMode },
     .render html css shadowMode false]
  ((Preview.Frame.ofSetup setup).run ⟨fun _ => none, none⟩
    (messages.map fun m => .message ⟨setup.editorOrigin, m⟩)).page.html

/-- What is written for a request. -/
def Request.output (r : Request) (s : Identity.Scheme) (json : Bool) (files : Files) :
    Except Failure String := do
  let choose := fun (j : Json) (text : String) => if json then line j.pretty else text
  match r with
  | .canonicalize file =>
    let source ← files.read file
    let result := Identity.canonicalize s source
    return choose result.toJson (reportCanonical source result)
  | .text file token =>
    let source ← files.read file
    match textSpan? s source token with
    | none => throw (.noText token)
    | some span =>
      let text := (span.slice? source).getD ""
      return choose (.object [("text", .string text), ("range", span.toJson)])
        (reportText source token text span)
  | .attributes file token =>
    let source ← files.read file
    match openingTag? s source token with
    | none => throw (.noElement token file)
    | some (span, isVoid, tag) =>
      return choose (tagJson span isVoid tag) (reportTag source token span isVoid tag)
  | .rules cssFile file token width height =>
    let css ← files.read cssFile
    let html ← files.read file
    let t ← (Html.parse html).mapError Failure.parse
    match Identity.find? t s html.utf8ByteSize token with
    | none => throw (.noElement token file)
    | some a =>
      let rules := Css.applyingRules css t { Media.Environment.default with width, height } a.node
      return choose (.ofList rules Css.Rule.toJson)
        (line ("=== Rules for " ++ Style.cyan.paint token ++ " (" ++ Decimal.ofFloat width ++ "x" ++
            Decimal.ofFloat height ++ ") ===") ++
          reportRules css rules ++ line ("\n" ++ toString rules.length ++ " matching rules"))
  | .index cssFile =>
    let css ← files.read cssFile
    let rules := Css.rulesOf css
    return choose (.ofList rules Css.Rule.toJson)
      (line "=== Rule Index ===" ++ reportRules css rules ++
        line ("\n" ++ toString rules.length ++ " rules"))
  | .preview file cssFile shadowMode =>
    let source ← files.read file
    let css ← match cssFile with
      | some cssFile => files.read cssFile
      | none => pure ""
    return line (previewPage s (Identity.canonicalize s source).html css shadowMode)

/-- What an invocation writes. -/
def Invocation.output (i : Invocation) (files : Files) : Except Failure String := do
  match Identity.Scheme.checked i.key i.stem with
  | .error name => throw (.identity (.attributeName name))
  | .ok s => i.request.output s i.json files

/-- The files that a request needs. -/
def Request.files : Request → List String
  | .canonicalize file | .text file _ | .attributes file _ | .index file => [file]
  | .rules css html _ _ _ => [css, html]
  | .preview file css _ => file :: css.toList

/-- What a run of the program leaves behind. -/
structure Report where
  code : UInt32
  stdout : String
  stderr : String
deriving DecidableEq, Repr

/-- What a run with some arguments leaves behind. -/
def Report.ofArguments (args : List String) (files : Files) : Report :=
  match Invocation.ofArguments args with
  | .error e => ⟨2, "", e.message⟩
  | .ok i =>
    match i.output files with
    | .ok text => ⟨0, text, ""⟩
    | .error f => ⟨1, "", f.describe⟩

end Command

end LiveMarkup
