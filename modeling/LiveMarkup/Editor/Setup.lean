/-
How the editor's side of a preview is set up.

A setup says who talks to whom, how the preview shows the page, where the style sheet comes from and
how elements are told apart. The ways of showing the page can be switched later.
-/
import LiveMarkup.Media.Settings
import LiveMarkup.Wire.Settings

set_option autoImplicit false

namespace LiveMarkup.Editor

/-- The setup of the editor's side. -/
structure Setup where
  /-- The origin of the editor. -/
  editorOrigin : String
  /-- The origin of the preview; messages from any other are dropped. -/
  previewOrigin : String
  /-- The post that is edited; sessions are named after it. -/
  postId : String
  /-- Whether the content stands under a shadow root. -/
  shadowMode : Bool
  /-- Whether the element under the pointer is outlined. -/
  highlight : Bool
  /-- Whether the style sheet is compiled rather than written by hand. -/
  utilityCss : Bool
  /-- How many milliseconds of quiet a compilation waits for. -/
  compileDelay : Nat
  /-- How elements are told apart. -/
  identity : Identity.Scheme
  /-- The device that rules are matched for. -/
  media : Media.Environment
deriving Repr

namespace Setup

/-- The names of the settings, in the order in which an array gives them. -/
def settingNames : List String :=
  ["editorOrigin", "previewOrigin", "postId", "shadowMode", "highlight", "utilityCss",
   "compileDebounceMs", "identity", "media"]

/-- The setup that settings describe; only the origins and the post have to be given. -/
def ofJson? (j : Json) : Option Setup := do
  match ← j.fields? settingNames with
  | [editorOrigin, previewOrigin, postId, shadowMode, highlight, utilityCss, delay, identity, media] =>
    return {
      editorOrigin := ← editorOrigin.bind Json.text?
      previewOrigin := ← previewOrigin.bind Json.text?
      postId := ← postId.bind Json.text?
      shadowMode := ← Json.orElse shadowMode Json.flag? false
      highlight := ← Json.orElse highlight Json.flag? true
      utilityCss := ← Json.orElse utilityCss Json.flag? false
      compileDelay := ← Json.orElse delay Json.natural? 300
      identity := ← Json.orElse identity Identity.Scheme.ofJson? .default
      media := ← Json.orElse media Media.Environment.ofJson? .default }
  | _ => none

/-- The settings that the preview is greeted with. -/
def previewSettings (s : Setup) : Wire.Settings := ⟨s.identity.key, s.shadowMode, s.highlight⟩

end Setup

end LiveMarkup.Editor
