/-
The settings of a preview.

They travel from the editor to the preview when the two first meet, and say how the page is to be shown.
-/
import LiveMarkup.Identity.Scheme

set_option autoImplicit false

namespace LiveMarkup.Wire

/-- How a page is to be shown. -/
structure Settings where
  /-- The attribute that carries the token of an element. -/
  identityAttribute : String
  /-- Whether the content stands under a shadow root, so that the page's own styles do not reach it. -/
  shadowMode : Bool
  /-- Whether the element under the pointer is outlined. -/
  highlight : Bool
deriving DecidableEq, Repr

namespace Settings

/-- The settings before the editor has sent any. -/
def default : Settings := ⟨Identity.Scheme.default.key, false, true⟩

/-- The names of the settings, in the order in which an array gives them. -/
def names : List String := ["identityAttribute", "shadowMode", "highlight"]

/-- Settings as JSON. -/
def toJson (s : Settings) : Json :=
  .object [("identityAttribute", .string s.identityAttribute), ("shadowMode", .bool s.shadowMode),
    ("highlight", .bool s.highlight)]

/-- The settings that a JSON value describes; none of them may be left out. -/
def ofJson? (j : Json) : Option Settings := do
  match ← j.fields? names with
  | [identityAttribute, shadowMode, highlight] =>
    return ⟨← identityAttribute.bind Json.text?, ← shadowMode.bind Json.flag?,
      ← highlight.bind Json.flag?⟩
  | _ => none

end Settings

end LiveMarkup.Wire
