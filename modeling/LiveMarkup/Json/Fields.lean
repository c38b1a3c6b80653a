/-
Reading records from JSON.

A record is read from an object by the names of its fields, or from an array by their order. Members
with other names are ignored, a repeated field is refused, and so is an array that is too long. Each
field is then read with the reader of its type; a value of any other type is refused.
-/
import LiveMarkup.Json.Value

set_option autoImplicit false

namespace LiveMarkup.Json

/-- The values of the fields with the given names, in their order. -/
def fields? (j : Json) (names : List String) : Option (List (Option Json)) :=
  match j with
  | .object members => names.mapM fun name =>
      match members.filter fun (n, _) => n == name with
      | [] => some none
      | [(_, value)] => some (some value)
      | _ => none
  | .array items =>
    if items.length ≤ names.length then
      some (items.map some ++ List.replicate (names.length - items.length) none)
    else none
  | _ => none

/-- The text of a string. -/
def text? : Json → Option String
  | .string text => some text
  | _ => none

/-- The value of a flag. -/
def flag? : Json → Option Bool
  | .bool b => some b
  | _ => none

/-- A number in double precision; integers are converted. -/
def real? : Json → Option Float
  | .number n => n.real?
  | _ => none

/-- A natural number of 64 bits. -/
def natural? : Json → Option Nat
  | .number n => n.integer?.bind fun i => if 0 ≤ i then some i.toNat else none
  | _ => none

/-- A list whose items are read one by one. -/
def list? {α : Type} (read : Json → Option α) : Json → Option (List α)
  | .array items => items.mapM read
  | _ => none

/-- One of several named values, written as its name or as an object of the name with null. -/
def choice? {α : Type} (values : List (String × α)) : Json → Option α
  | .string name => values.lookup name
  | .object [(name, .null)] => values.lookup name
  | _ => none

/-- A field that may be missing. -/
def orElse {α : Type} (field : Option Json) (read : Json → Option α) (default : α) : Option α :=
  match field with
  | none => some default
  | some value => read value

end LiveMarkup.Json
