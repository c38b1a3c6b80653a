/-
The device that media queries ask about.

An environment gives a value for every feature that can be asked for. The default is a wide screen with
a mouse.
-/

set_option autoImplicit false

namespace LiveMarkup.Media

/-- The kind of a device. -/
inductive DeviceType where
  | screen
  | print
deriving DecidableEq, Repr

/-- The colours that are preferred. -/
inductive ColorScheme where
  | light
  | dark
deriving DecidableEq, Repr

/-- How much motion is wanted. -/
inductive ReducedMotion where
  | noPreference
  | reduce
deriving DecidableEq, Repr

/-- Whether the pointing device can hover. -/
inductive Hover where
  | none
  | hover
deriving DecidableEq, Repr

/-- How exact the pointing device is. -/
inductive Pointer where
  | none
  | coarse
  | fine
deriving DecidableEq, Repr

/-- The name of a device type. -/
def DeviceType.name : DeviceType → String
  | screen => "screen"
  | print => "print"

/-- The name of a colour scheme. -/
def ColorScheme.name : ColorScheme → String
  | light => "light"
  | dark => "dark"

/-- The name of a motion preference. -/
def ReducedMotion.name : ReducedMotion → String
  | noPreference => "no-preference"
  | reduce => "reduce"

/-- The name of a hover capability. -/
def Hover.name : Hover → String
  | none => "none"
  | hover => "hover"

/-- The name of a pointer accuracy. -/
def Pointer.name : Pointer → String
  | none => "none"
  | coarse => "coarse"
  | fine => "fine"

/-- A device. -/
structure Environment where
  /-- The kind of the device. -/
  deviceType : DeviceType
  /-- The width of the viewport in pixels. -/
  width : Float
  /-- The height of the viewport in pixels. -/
  height : Float
  /-- The device pixels per pixel. -/
  resolution : Float
  /-- The initial font size in pixels. -/
  fontSize : Float
  /-- The preferred colours. -/
  colorScheme : ColorScheme
  /-- The preferred motion. -/
  reducedMotion : ReducedMotion
  /-- Whether the pointing device can hover. -/
  hover : Hover
  /-- The accuracy of the pointing device. -/
  pointer : Pointer
deriving Repr

namespace Environment

/-- A wide screen with a mouse. -/
def default : Environment := ⟨.screen, 1280, 800, 1, 16, .light, .noPreference, .hover, .fine⟩

/-- The orientation: portrait unless the viewport is wider than high. -/
def orientation (e : Environment) : String := if e.width ≤ e.height then "portrait" else "landscape"

end Environment

end LiveMarkup.Media
