/-
How a preview page is set up.

A setup says where the page is, whom it listens to and how the elements of its skeleton are called.
What concerns the content comes later, with the settings of a session.
-/
import LiveMarkup.Json.Fields

set_option autoImplicit false

namespace LiveMarkup.Preview

/-- The setup of a preview page. -/
structure Setup where
  /-- The origin of the page. -/
  origin : String
  /-- The origin of the editor; messages from any other are dropped. -/
  editorOrigin : String
  /-- The id of the element that the content is put into. -/
  contentId : String
  /-- The id of the style element in the head. -/
  styleId : String
  /-- The id of the element with the user's script. -/
  scriptId : String
deriving DecidableEq, Repr

namespace Setup

/-- The setup with the usual ids. -/
def ofOrigins (origin editorOrigin : String) : Setup :=
  ⟨origin, editorOrigin, "vellum-content", "vellum-style", "vellum-user-script"⟩

/-- The names of the settings, in the order in which an array gives them. -/
def settingNames : List String := ["origin", "parentOrigin", "contentRegionId", "styleId", "scriptId"]

/-- The setup that settings describe; the ids may be left out. -/
def ofJson? (j : Json) : Option Setup := do
  match ← j.fields? settingNames with
  | [origin, editorOrigin, contentId, styleId, scriptId] =>
    let usual := ofOrigins (← origin.bind Json.text?) (← editorOrigin.bind Json.text?)
    return { usual with
      contentId := ← Json.orElse contentId Json.text? usual.contentId
      styleId := ← Json.orElse styleId Json.text? usual.styleId
      scriptId := ← Json.orElse scriptId Json.text? usual.scriptId }
  | _ => none

end Setup

end LiveMarkup.Preview
