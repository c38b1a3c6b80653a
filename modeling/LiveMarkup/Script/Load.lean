/-
Loading scripts by their address.

A script can be written into its address or lie on a server. A `data:` URL holds a description, a comma
and the bytes of the resource, either in Base64 or as text in which a percent sign and two hexadecimal
digits stand for a byte. There is no network here, so of the addresses with a server it is only said that
they cannot be reached.
-/
import LiveMarkup.Text.Ascii
import LiveMarkup.Text.Base64

set_option autoImplicit false

namespace LiveMarkup.Script

/-! ## Resources that are written into their own address -/

/-- The parts of a `data:` URL. -/
structure DataUrl where
  /-- What stands before the first comma: the type of the resource and how it is written. -/
  metadata : List Char
  /-- What stands after it. -/
  payload : List Char
deriving DecidableEq, Repr

/-- The value of a byte that is the code of a hexadecimal digit. -/
def hexValue? (b : UInt8) : Option Nat := Text.digitValue? 16 (Char.ofNat b.toNat)

/-- Bytes with the percent escapes replaced by the bytes they stand for. A percent sign that no two
digits follow stands for itself. -/
def percentDecode : List UInt8 → List UInt8
  | 0x25 :: a :: b :: rest =>
    match hexValue? a, hexValue? b with
    | some high, some low => .ofNat (16 * high + low) :: percentDecode rest
    | _, _ => 0x25 :: percentDecode (a :: b :: rest)
  | b :: rest => b :: percentDecode rest
  | [] => []

namespace DataUrl

/-- The parts of a URL. The scheme belongs to the description unless it is written in lower case. -/
def parse? (url : String) : Option DataUrl :=
  let cs := url.toList
  let body := if "data:".toList.isPrefixOf cs then cs.drop 5 else cs
  match body.span (· ≠ ',') with
  | (metadata, _ :: payload) => some ⟨metadata, payload⟩
  | (_, []) => none

/-- Whether the resource is written in Base64. -/
def isBase64 (u : DataUrl) : Bool := ";base64".toList.isSuffixOf u.metadata

/-- The bytes of the resource; none when they are to be in Base64 and are not. -/
def decode? (u : DataUrl) : Option (List UInt8) :=
  if u.isBase64 then Text.Base64.decode? u.payload
  else some (percentDecode (String.ofList u.payload).toUTF8.toList)

end DataUrl

/-! ## Addresses -/

/-- Why there is no script at an address. -/
inductive LoadError where
  /-- A `data:` URL has no comma. -/
  | missingComma
  /-- The resource is to be in Base64 and is not. -/
  | badBase64
  /-- The bytes are no text. -/
  | notText (url : String)
  | unsupportedScheme (url : String)
  /-- The script lies on a server. -/
  | unreachable (url : String)
deriving DecidableEq, Repr

/-- The text of the error. -/
def LoadError.message : LoadError → String
  | missingComma => "invalid data URL: missing comma"
  | badBase64 => "invalid data URL payload"
  | notText url => url ++ " is not UTF-8 text"
  | unsupportedScheme url => "unsupported URL scheme in " ++ url
  | unreachable url => "request to " ++ url ++ " failed"

/-- The scheme of an address, in lower case: what stands before the first colon. -/
def schemeOf (url : String) : String :=
  let cs := url.toList
  if cs.contains ':' then (String.ofList (cs.takeWhile (· ≠ ':'))).toLower else ""

/-- The script at an address. -/
def load (url : String) : Except LoadError String := do
  if schemeOf url = "data" then
    let some u := DataUrl.parse? url | throw .missingComma
    let some bytes := u.decode? | throw .badBase64
    let some text := String.fromUTF8? ⟨bytes.toArray⟩ | throw (.notText url)
    return text
  else if schemeOf url = "http" ∨ schemeOf url = "https" then throw (.unreachable url)
  else throw (.unsupportedScheme url)

end LiveMarkup.Script
