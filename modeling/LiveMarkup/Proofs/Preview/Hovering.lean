/-
When an element stays outlined although outlining is off.

Every event that switches outlining off also drops what is outlined under the pointer, but for one: a greeting takes
over its settings and leaves the outline as it is (`quiet_greeted_iff`). Every other event leaves a frame without such
an outline (`quiet_step`). Main result: `hover_none_iff`.
-/
import LiveMarkup.Proofs.Preview.History

set_option autoImplicit false

namespace LiveMarkup.Preview

open Wire

/-- The editor greets the page, with outlining off. -/
def Event.GreetsWithoutHighlight (trusted : String) : Event → Prop
  | .message e => e.origin = trusted ∧ ∃ session settings, e.message = .init session settings ∧ settings.highlight = false
  | .pointerOver _ | .pointerOut | .click _ | .hoverAt _ | .clickAt _ | .refreshLayout
  | .shadowMode _ | .highlight _ => False

namespace Frame

variable {f : Frame}

/-- With outlining off nothing is outlined as under the pointer. -/
def Quiet (f : Frame) : Prop := f.highlight = false → f.hover = none

theorem quiet_of_hover_none (h : f.hover = none) : f.Quiet := fun _ => h

theorem quiet_switchHighlight (f : Frame) (highlight : Bool) : (f.switchHighlight highlight).Quiet := by
  intro hoff
  have hsame : highlight = false := hoff
  rw [hsame]
  rfl

theorem quiet_rerender (h : f.Quiet) (w : Surroundings) : (f.rerender w).Quiet := by
  unfold rerender
  split
  · exact quiet_of_hover_none rfl
  · exact h

theorem quiet_setHighlight (f : Frame) (w : Surroundings) (highlight : Bool) : (f.setHighlight w highlight).Quiet :=
  quiet_rerender (quiet_switchHighlight f highlight) w

theorem quiet_loadScripts (h : f.Quiet) (w : Surroundings) (urls : List String) : (f.loadScripts w urls).Quiet := by
  unfold loadScripts
  split
  · exact h
  · exact h

theorem quiet_pointerOver (f : Frame) (w : Surroundings) (target : NodeId) : (f.pointerOver w target).Quiet := by
  intro hoff
  have hkept : (f.pointerOver w target).hover = (f.outlineAt? w target).filter fun _ => f.highlight := rfl
  have hsame : f.highlight = false := hoff
  rw [hkept, hsame]
  cases f.outlineAt? w target <;> rfl

theorem quiet_click (h : f.Quiet) (w : Surroundings) (target : NodeId) : (f.click w target).frame.Quiet := by
  unfold click
  split
  · exact h
  · exact h

/-- A greeting with outlining off leaves the outline as it is. -/
theorem quiet_greeted_iff (w : Surroundings) {e : Event} (he : e.GreetsWithoutHighlight f.setup.editorOrigin) :
    (f.step w e).frame.Quiet ↔ f.hover = none := by
  cases e with
  | message e =>
    obtain ⟨horigin, session, settings, hmessage, hoff⟩ := he
    have hstep : f.step w (.message e) = f.onInit session settings := by
      rw [step, onMessage, if_pos horigin, hmessage]
    rw [hstep]
    exact ⟨fun h => h hoff, fun h _ => h⟩
  | _ => exact he.elim

theorem quiet_onMessage (h : f.Quiet) (w : Surroundings) {e : Envelope}
    (he : ¬ (Event.message e).GreetsWithoutHighlight f.setup.editorOrigin) : (f.onMessage w e).frame.Quiet := by
  unfold onMessage
  split
  · rename_i horigin
    cases hmessage : e.message with
    | init session settings => exact fun hoff => (he ⟨horigin, session, settings, hmessage, hoff⟩).elim
    | render html css shadowMode highlight => exact quiet_of_hover_none rfl
    | setHighlight highlight => exact quiet_setHighlight f w highlight
    | externalScripts urls => exact quiet_loadScripts h w urls
    | setCss css => exact h
    | runScript text => exact h
    | disableScript => exact h
    | ready session => exact h
    | select token => exact h
  · exact h

/-- **Every other event leaves nothing outlined under the pointer with outlining off.** -/
theorem quiet_step (h : f.Quiet) (w : Surroundings) {e : Event}
    (he : ¬ e.GreetsWithoutHighlight f.setup.editorOrigin) : (f.step w e).frame.Quiet := by
  cases e with
  | message e => exact quiet_onMessage h w he
  | pointerOver target => exact quiet_pointerOver f w target
  | pointerOut => exact quiet_of_hover_none rfl
  | click target => exact quiet_click h w target
  | hoverAt p =>
    unfold step
    dsimp only
    split
    · exact quiet_pointerOver f w _
    · exact quiet_of_hover_none rfl
  | clickAt p =>
    unfold step
    dsimp only
    split
    · exact quiet_click h w _
    · exact h
  | refreshLayout =>
    intro hoff
    have hnone : f.hover = none := h hoff
    exact congrArg (Option.map (f.refreshed w)) hnone
  | shadowMode on => exact quiet_rerender (f := { f with shadowMode := on }) h w
  | highlight on => exact quiet_setHighlight f w on

/-- **When nothing is outlined under the pointer with outlining off**: all along a history exactly when no greeting
switches outlining off while an element is outlined under the pointer. -/
theorem hover_none_iff (s : Setup) (history : Traffic) :
    (∀ done, done <+: history → (after s done).highlight = false → (after s done).hover = none) ↔
      ∀ done x, done ++ [x] <+: history → x.2.GreetsWithoutHighlight s.editorOrigin → (after s done).hover = none := by
  refine forall_prefix_iff (P := fun done => (after s done).Quiet) (quiet_of_hover_none rfl) (fun done x h => ?_) history
  have hsetup : (after s done).setup.editorOrigin = s.editorOrigin := by rw [setup_after]
  rw [after_concat]
  by_cases hgreets : x.2.GreetsWithoutHighlight s.editorOrigin
  · rw [quiet_greeted_iff x.1 (hsetup ▸ hgreets)]
    exact ⟨fun h _ => h, fun h => h hgreets⟩
  · exact ⟨fun _ h => (hgreets h).elim, fun _ => quiet_step h x.1 (hsetup ▸ hgreets)⟩

/-- A paragraph stays outlined although outlining is off. -/
theorem exists_hover_without_highlight : ∃ (s : Setup) (history : Traffic),
    (after s history).highlight = false ∧ ((after s history).hover.map (·.token)) = some "v1" := by
  refine ⟨⟨"page", "editor", "content", "style", "script"⟩,
    [(⟨fun _ => none, none⟩, .message ⟨"editor", .render "<p data-vellum-id=\"v1\">a</p>" "" false true⟩),
      (⟨fun _ => none, none⟩, .pointerOver 6),
      (⟨fun _ => none, none⟩, .message ⟨"editor", .init "1" ⟨"data-vellum-id", false, false⟩⟩)], ?_⟩
  decide +kernel

end Frame

end LiveMarkup.Preview
