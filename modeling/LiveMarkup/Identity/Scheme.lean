/-
How elements are told apart.

Every element of canonical markup carries a token in a reserved attribute. A scheme names the attribute
and says how new tokens look: a stem with a number.
-/
import LiveMarkup.Dom.Attribute
import LiveMarkup.Json.Fields
import LiveMarkup.Text.Blank

set_option autoImplicit false

namespace LiveMarkup

/-- Whether a name can be written as that of an attribute: it is not empty and holds no white space, no
control character and none of the characters that end a name. -/
def isAttributeName (name : String) : Bool :=
  !name.isEmpty && name.toList.all fun c =>
    !Text.isControl c && !Text.isBlank c && !("\"'>/=<".toList.contains c)

namespace Identity

/-- The reserved attribute and the form of new tokens. -/
structure Scheme where
  /-- The attribute that carries the token. -/
  key : String
  /-- What a new token starts with; a number follows. -/
  stem : String
deriving DecidableEq, Repr

namespace Scheme

/-- The scheme that is used unless another one is asked for. -/
def default : Scheme := ⟨"data-vellum-id", "v"⟩

/-- A scheme whose attribute, in lower case, can be written into markup; the error is the attribute that
cannot. -/
def checked (key stem : String) : Except String Scheme :=
  let key := key.toLower
  if isAttributeName key then .ok ⟨key, stem⟩ else .error key

/-- The new token with a number. -/
def mint (s : Scheme) (n : Nat) : String := s.stem ++ toString n

/-- The scheme that settings describe; what is left out is as in the default scheme. -/
def ofJson? (j : Json) : Option Scheme := do
  match ← j.fields? ["attribute", "prefix"] with
  | [key, stem] =>
    return ⟨← Json.orElse key Json.text? default.key, ← Json.orElse stem Json.text? default.stem⟩
  | _ => none

end Scheme

end Identity

end LiveMarkup
