/-
Environments in settings.

An environment is read from JSON. Every feature may be left out and then has the value of the default
environment.
-/
import LiveMarkup.Json.Fields
import LiveMarkup.Media.Environment

set_option autoImplicit false

namespace LiveMarkup.Media.Environment

/-- The names of the settings, in the order in which an array gives them. -/
def settingNames : List String :=
  ["mediaType", "width", "height", "resolution", "fontSize", "colorScheme", "reducedMotion", "hover",
   "pointer"]

/-- The environment that settings describe. -/
def ofJson? (j : Json) : Option Environment := do
  match ← j.fields? settingNames with
  | [deviceType, width, height, resolution, fontSize, colorScheme, reducedMotion, hover, pointer] =>
    return {
      deviceType := ← Json.orElse deviceType
        (Json.choice? ([.screen, .print].map fun v => (DeviceType.name v, v))) default.deviceType
      width := ← Json.orElse width Json.real? default.width
      height := ← Json.orElse height Json.real? default.height
      resolution := ← Json.orElse resolution Json.real? default.resolution
      fontSize := ← Json.orElse fontSize Json.real? default.fontSize
      colorScheme := ← Json.orElse colorScheme
        (Json.choice? ([.light, .dark].map fun v => (ColorScheme.name v, v))) default.colorScheme
      reducedMotion := ← Json.orElse reducedMotion
        (Json.choice? ([.noPreference, .reduce].map fun v => (ReducedMotion.name v, v)))
        default.reducedMotion
      hover := ← Json.orElse hover (Json.choice? ([.none, .hover].map fun v => (Hover.name v, v)))
        default.hover
      pointer := ← Json.orElse pointer
        (Json.choice? ([.none, .coarse, .fine].map fun v => (Pointer.name v, v))) default.pointer }
  | _ => none

end LiveMarkup.Media.Environment
