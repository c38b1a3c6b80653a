/-
What the editor's messages make a preview show.

The page of a preview is large, but few of its parts are the editor's to choose. What a message does to them does not
depend on the page (`shown_onMessage`), and what the user does in the page does nothing to them (`shown_step`).
-/
import LiveMarkup.Preview.Frame

set_option autoImplicit false

namespace LiveMarkup.Preview

open Wire

/-! ## The style sheet of a page -/

namespace Page

variable (p : Page)

@[simp] theorem css_attachRoot (shadowMode : Bool) : (p.attachRoot shadowMode).1.css = p.css := by
  cases shadowMode <;> rfl

@[simp] theorem css_render (html : String) (shadowMode : Bool) : (p.render html shadowMode).css = p.css :=
  css_attachRoot p.clearContent shadowMode

@[simp] theorem css_removeUserScript : p.removeUserScript.css = p.css := by
  unfold removeUserScript
  split <;> rfl

@[simp] theorem css_insertUserScript (text : String) : (p.insertUserScript text).css = p.css := css_removeUserScript p

@[simp] theorem css_clearExternalScripts : p.clearExternalScripts.css = p.css := rfl

/-- The scripts that a page uses do not change its style sheet. -/
theorem css_addExternalScripts (scripts : List LoadedScript) :
    (scripts.foldl (fun p s => p.addExternalScript s.url) p).css = p.css := by
  induction scripts generalizing p with
  | nil => rfl
  | cons s scripts ih => exact ih (p.addExternalScript s.url)

end Page

/-! ## What is shown -/

/-- What of a frame the editor chooses. -/
structure Shown where
  html : Option String
  css : String
  shadowMode : Bool
  highlight : Bool
  urls : List String
  script : Option String
deriving DecidableEq, Repr

namespace Shown

/-- What is shown after a message. -/
def after (s : Shown) : Message → Shown
  | .init _ settings => { s with shadowMode := settings.shadowMode, highlight := settings.highlight }
  | .render html css shadowMode highlight => { s with html := some html, css, shadowMode, highlight }
  | .setCss css => { s with css }
  | .setHighlight highlight => { s with highlight }
  | .runScript text => { s with script := some text }
  | .disableScript => { s with script := none }
  | .externalScripts urls => { s with urls }
  | .ready _ | .select _ => s

/-- What is shown after a message arrived, when only one origin is listened to. -/
def receive (trusted : String) (s : Shown) (e : Envelope) : Shown :=
  if e.origin = trusted then s.after e.message else s

end Shown

/-- Whether an event is the user's, or the layout's. -/
def Event.isLocal : Event → Bool
  | .message _ | .shadowMode _ | .highlight _ => false
  | .pointerOver _ | .pointerOut | .click _ | .hoverAt _ | .clickAt _ | .refreshLayout => true

namespace Frame

/-- What a frame shows. -/
def shown (f : Frame) : Shown where
  html := f.rendered
  css := f.page.css
  shadowMode := f.shadowMode
  highlight := f.highlight
  urls := f.externalScripts.map (·.url)
  script := f.userScript

variable (f : Frame) (w : Surroundings)

theorem shown_render (html : String) : (f.render w html).shown = { f.shown with html := some html } :=
  congrArg (fun css => ({ f.shown with html := some html, css } : Shown)) (f.page.css_render html f.shadowMode)

/-- What is shown again is what was shown. -/
theorem shown_rerender : (f.rerender w).shown = f.shown := by
  unfold rerender
  split
  · rename_i html hrendered
    rw [shown_render, ← hrendered]
    rfl
  · rfl

theorem shown_loadScripts (urls : List String) : (f.loadScripts w urls).shown = { f.shown with urls } := by
  unfold loadScripts
  split
  · rename_i hsame
    rw [← hsame]
    rfl
  · unfold shown
    dsimp only
    rw [Page.css_addExternalScripts, Page.css_clearExternalScripts, List.map_map]
    exact congrArg (fun urls => ({ f.shown with urls } : Shown)) (List.map_id urls)

/-- **What a message makes a frame show.** -/
theorem shown_onMessage (e : Envelope) :
    (f.onMessage w e).frame.shown = f.shown.receive f.setup.editorOrigin e := by
  unfold onMessage Shown.receive
  split
  · cases e.message with
    | render html css shadowMode highlight => exact shown_render _ w html
    | setHighlight highlight => exact shown_rerender (f.switchHighlight highlight) w
    | runScript text =>
      exact congrArg (fun css => ({ f.shown with css, script := some text } : Shown)) (f.page.css_insertUserScript text)
    | disableScript =>
      exact congrArg (fun css => ({ f.shown with css, script := none } : Shown)) f.page.css_removeUserScript
    | externalScripts urls => exact shown_loadScripts f w urls
    | _ => rfl
  · rfl

theorem shown_click (target : NodeId) : (f.click w target).frame.shown = f.shown := by
  unfold click
  split <;> rfl

/-- What the user does in the page does not change what is shown. -/
theorem shown_step {e : Event} (he : e.isLocal = true) : (f.step w e).frame.shown = f.shown := by
  cases e with
  | message | shadowMode | highlight => exact absurd he nofun
  | click target => exact shown_click f w target
  | hoverAt p =>
    unfold step
    dsimp only
    split <;> rfl
  | clickAt p =>
    unfold step
    dsimp only
    split
    · exact shown_click f w _
    · rfl
  | _ => rfl

/-! ## The setup -/

theorem setup_rerender : (f.rerender w).setup = f.setup := by
  unfold rerender
  split <;> rfl

theorem setup_loadScripts (urls : List String) : (f.loadScripts w urls).setup = f.setup := by
  unfold loadScripts
  split <;> rfl

theorem setup_onMessage (e : Envelope) : (f.onMessage w e).frame.setup = f.setup := by
  unfold onMessage
  split
  · cases e.message with
    | setHighlight highlight => exact setup_rerender (f.switchHighlight highlight) w
    | externalScripts urls => exact setup_loadScripts f w urls
    | _ => rfl
  · rfl

theorem setup_click (target : NodeId) : (f.click w target).frame.setup = f.setup := by
  unfold click
  split <;> rfl

/-- A frame stays as it was set up. -/
theorem setup_step (e : Event) : (f.step w e).frame.setup = f.setup := by
  cases e with
  | message e => exact setup_onMessage f w e
  | click target => exact setup_click f w target
  | hoverAt p =>
    unfold step
    dsimp only
    split <;> rfl
  | clickAt p =>
    unfold step
    dsimp only
    split
    · exact setup_click f w _
    · rfl
  | shadowMode on => exact setup_rerender { f with shadowMode := on } w
  | highlight on => exact setup_rerender (f.switchHighlight on) w
  | _ => rfl

end Frame

end LiveMarkup.Preview
