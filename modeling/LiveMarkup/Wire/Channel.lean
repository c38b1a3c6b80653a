/-
The channel between the editor and the preview.

The two windows post texts to each other. A text is on its way until the receiver takes everything that
has arrived; what was addressed to another origin, and what is no message for the receiver, is dropped
then. Order is kept and nothing is delivered twice.
-/
import LiveMarkup.Wire.Message

set_option autoImplicit false

namespace LiveMarkup.Wire

/-- The two ends of a channel. -/
inductive Side where
  | editor
  | preview
deriving DecidableEq, Repr

namespace Side

/-- The other end. -/
def other : Side → Side
  | editor => preview
  | preview => editor

/-- The direction of the messages that arrive at an end. -/
def accepts : Side → Direction
  | editor => .toEditor
  | preview => .toPreview

end Side

/-- A text on its way. -/
structure Packet where
  /-- The origin of the sender. -/
  origin : String
  /-- The origin that it is addressed to. -/
  target : String
  data : String
deriving DecidableEq, Repr

/-- A message that has arrived. -/
structure Envelope where
  /-- The origin of the sender. -/
  origin : String
  message : Message
deriving DecidableEq, Repr

/-- A channel. -/
structure Channel where
  /-- The origin of each window. -/
  origin : Side → String
  /-- What is on its way to each window, the oldest first. -/
  waiting : Side → List Packet

namespace Channel

/-- A channel between windows of two origins, with nothing on its way. -/
def between (editorOrigin previewOrigin : String) : Channel where
  origin side := match side with
    | .editor => editorOrigin
    | .preview => previewOrigin
  waiting _ := []

/-- The origin that a side addresses unless it says otherwise: that of the other window. -/
def target (c : Channel) (side : Side) : String := c.origin side.other

/-- The target that every window belongs to. -/
def anyOrigin : String := "*"

/-- The channel with other texts on their way to a side. -/
def setWaiting (c : Channel) (side : Side) (packets : List Packet) : Channel :=
  { c with waiting := fun s => if s = side then packets else c.waiting s }

/-- A side posts a text. -/
def postText (c : Channel) (side : Side) (data target : String) : Channel :=
  c.setWaiting side.other (c.waiting side.other ++ [⟨c.origin side, target, data⟩])

/-- A side posts a message to a target. -/
def postTo (c : Channel) (side : Side) (m : Message) (target : String) : Channel :=
  c.postText side m.write target

/-- A side posts a message to the other window. -/
def post (c : Channel) (side : Side) (m : Message) : Channel := c.postTo side m (c.target side)

/-- The message that a side finds in a packet. -/
def receive? (c : Channel) (side : Side) (p : Packet) : Option Envelope :=
  if p.target = anyOrigin ∨ p.target = c.origin side then
    match Message.readFor side.accepts p.data with
    | .ok m => some ⟨p.origin, m⟩
    | .error _ => none
  else none

/-- A side takes everything that has arrived. -/
def drain (c : Channel) (side : Side) : List Envelope × Channel :=
  ((c.waiting side).filterMap (c.receive? side), c.setWaiting side [])

end Channel

end LiveMarkup.Wire
