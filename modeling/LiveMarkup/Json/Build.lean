/-
Building JSON.

Texts and flags are JSON values by themselves; this file says how numbers, lists and optional values
become JSON.
-/
import LiveMarkup.Json.Value

set_option autoImplicit false

namespace LiveMarkup.Json

instance : Coe String Json := ⟨.string⟩

instance : Coe Bool Json := ⟨.bool⟩

/-- A natural number. -/
def ofNat (n : Nat) : Json := .number (.ofNat n)

/-- An integer. -/
def ofInt (n : Int) : Json := .number { Numeral.ofNat n.natAbs with negative := n < 0 }

/-- An array with an item for each element of a list. -/
def ofList {α : Type} (items : List α) (f : α → Json) : Json := .array (items.map f)

/-- A value that may be missing; null stands for a missing one. -/
def ofOption {α : Type} (f : α → Json) : Option α → Json
  | some a => f a
  | none => .null

end LiveMarkup.Json
