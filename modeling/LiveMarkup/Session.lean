/-
An editor and a preview that talk to each other.

A session puts a bridge and a frame at the two ends of a channel. What one side sends is on its way until
the other side takes it.
-/
import LiveMarkup.Editor.Bridge
import LiveMarkup.Preview.Frame

set_option autoImplicit false

namespace LiveMarkup

open Wire

/-- An editor and a preview with the channel between them. -/
structure Session where
  bridge : Editor.Bridge
  frame : Preview.Frame
  channel : Channel

namespace Session

/-- A session in which nothing has happened. -/
def between (editor : Editor.Setup) (preview : Preview.Setup) : Session :=
  ⟨.ofSetup editor, .ofSetup preview, .between editor.editorOrigin editor.previewOrigin⟩

/-- An event on the editor's side; what it sends is on its way to the preview. -/
def editorStep (s : Session) (h : Editor.Helpers) (e : Editor.Event) : Session × List Editor.Effect :=
  let step := s.bridge.step h e
  ({ s with
      bridge := step.bridge
      channel := (step.effects.filterMap (·.message?)).foldl (·.post .editor ·) s.channel }, step.effects)

/-- An event on the preview's side; what it sends is on its way to the editor. -/
def previewStep (s : Session) (w : Preview.Surroundings) (e : Preview.Event) :
    Session × Preview.Outcome :=
  let outcome := s.frame.step w e
  ({ s with frame := outcome.frame, channel := outcome.sent.foldl (·.post .preview ·) s.channel }, outcome)

/-- The editor takes what has arrived. Gives also how many messages there were, and the effects. -/
def editorPump (s : Session) (h : Editor.Helpers) : Session × Nat × List Editor.Effect :=
  let (received, channel) := s.channel.drain .editor
  let (s, effects) := received.foldl
    (fun (s, effects) e =>
      let (s, more) := editorStep s h (.message e)
      (s, effects ++ more)) ({ s with channel }, [])
  (s, received.length, effects)

/-- The preview takes what has arrived. Gives also how many messages there were. -/
def previewPump (s : Session) (w : Preview.Surroundings) : Session × Nat :=
  let (received, channel) := s.channel.drain .preview
  (received.foldl (fun s e => (previewStep s w (.message e)).1) { s with channel }, received.length)

end Session

end LiveMarkup
