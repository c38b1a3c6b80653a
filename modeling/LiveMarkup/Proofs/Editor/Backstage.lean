/-
What a bridge keeps to itself.

Beside what it turns to the preview and to the author, a bridge keeps the text of the script and where compilation
stands. This is its backstage, and the work that is done there is asking the compiler and showing how it went. Few
events are work: all others leave the backstage alone and do none (`Idles`). So what happens to the script and to a
compilation is told event by event (`works_step`).
-/
import LiveMarkup.Editor.Bridge

set_option autoImplicit false

namespace LiveMarkup.Editor

open Wire

/-! ## Backstage -/

/-- What of a bridge concerns neither the preview nor the author. -/
structure Backstage where
  script : String
  utilityCss : Bool
  compilation : Compilation

/-- The backstage of a bridge. -/
def Bridge.backstage (b : Bridge) : Backstage := ⟨b.script, b.setup.utilityCss, b.compilation⟩

/-- The backstage after an edit: in utility mode a compilation is wanted. -/
def Backstage.edited (s : Backstage) (now : Nat) : Backstage :=
  if s.utilityCss then { s with compilation := s.compilation.schedule now } else s

/-- The backstage after an event. -/
def Backstage.after (s : Backstage) (h : Helpers) : Event → Backstage
  | .script text => { s with script := text }
  | .source _ now | .css _ now => s.edited now
  | .utilityCss on now =>
    { s with utilityCss := on, compilation := if on then s.compilation.schedule now else s.compilation.cancel }
  | .requestCompile now => { s with compilation := s.compilation.schedule now }
  | .poll now => { s with compilation := (s.compilation.poll h.hasCompiler now).2 }
  | .compiled id result => { s with compilation := (s.compilation.answer? id result).getD s.compilation }
  | _ => s

/-- Whether an effect asks the compiler, or shows how it went. -/
def Effect.isWork : Effect → Bool
  | .compile _ | .showStatus _ => true
  | _ => false

/-- The work of a step, in order. -/
def Step.work (s : Step) : List Effect := s.effects.filter (·.isWork)

/-- The work that an event is. -/
def Bridge.workOf (b : Bridge) (h : Helpers) : Event → List Effect
  | .poll now => (b.compilation.poll h.hasCompiler now).1.toList.map fun id => .compile ⟨id, b.source, b.css⟩
  | .compiled id result => (b.compilation.answer? id result).toList.map fun c => .showStatus c.status
  | _ => []

/-- A step leads to a backstage, and this is its work. -/
structure Step.Works (s : Step) (k : Backstage) (work : List Effect) : Prop where
  backstage : s.bridge.backstage = k
  work : s.work = work

/-- What comes after a step and is no work leaves its work as it is. -/
theorem works_andThen {s : Step} {next : Bridge → Step} {k k' : Backstage} {work : List Effect} (hs : s.Works k work)
    (hnext : (next s.bridge).Works k' []) : (s.andThen next).Works k' work := by
  refine ⟨hnext.backstage, ?_⟩
  have happend : (s.andThen next).work = s.work ++ (next s.bridge).work := List.filter_append ..
  rw [happend, hs.work, hnext.work]
  exact List.append_nil _

/-! ## Steps that are no work -/

namespace Bridge

variable (b : Bridge) (h : Helpers)

theorem works_postOr (m : Message) (remember : Pending → Pending) : (b.postOr m remember).Works b.backstage [] := by
  unfold postOr
  split <;> exact ⟨rfl, rfl⟩

theorem works_sendCss : b.sendCss.Works b.backstage [] := by
  unfold sendCss
  split <;> exact ⟨rfl, rfl⟩

theorem works_refresh : (b.refresh h).Works b.backstage [] := by
  refine ⟨rfl, ?_⟩
  unfold refresh Step.work
  dsimp only
  split <;> rfl

theorem works_sendRender : (b.sendRender h).Works b.backstage [] :=
  works_andThen (works_refresh { b with rendered := true } h) (works_postOr ..)

theorem works_highlightRules (token : String) : (b.highlightRules token).Works b.backstage [] := by
  unfold highlightRules
  split
  · exact ⟨rfl, rfl⟩
  · split <;> exact ⟨rfl, rfl⟩

theorem works_onSelect (token : String) : (b.onSelect token).Works b.backstage [] := by
  unfold onSelect
  split
  · exact ⟨rfl, rfl⟩
  · refine works_andThen (k := b.backstage) ⟨rfl, rfl⟩ ?_
    split
    · exact ⟨rfl, rfl⟩
    · exact works_highlightRules _ token

theorem works_onReady (session : String) : (b.onReady session).Works b.backstage [] := by
  unfold onReady
  split
  · refine ⟨rfl, List.filter_eq_nil_iff.2 fun effect he => ?_⟩
    obtain ⟨m, -, rfl⟩ := List.mem_map.1 he
    exact Bool.false_ne_true
  · exact ⟨rfl, rfl⟩

theorem works_onMessage (e : Envelope) : (b.onMessage e).Works b.backstage [] := by
  unfold onMessage
  split
  · split
    · exact works_onReady b _
    · exact works_onSelect b _
    · exact ⟨rfl, rfl⟩
  · exact ⟨rfl, rfl⟩

theorem works_setHighlight (on : Bool) : (b.setHighlight on).Works b.backstage [] := by
  unfold setHighlight
  dsimp only
  split <;> exact ⟨rfl, rfl⟩

/-! ## Steps that are work -/

/-- After an edit a compilation may be wanted. -/
theorem works_edited (now : Nat) :
    Step.Works (if b.setup.utilityCss then (b.requestCompile now).quietly else b.quietly)
      (b.backstage.edited now) [] := by
  unfold Backstage.edited
  split
  · rename_i hmode
    exact ⟨(if_pos hmode).symm, rfl⟩
  · rename_i hmode
    exact ⟨(if_neg hmode).symm, rfl⟩

theorem works_onSource (source : String) (now : Nat) :
    (b.onSource h source now).Works (b.backstage.edited now) [] := by
  have hshown : Step.Works ({ b with source, canonicalizer := b.canonicalizer.invalidate }.clearSelection.andThen
      fun b => b.sendRender h) b.backstage [] :=
    works_andThen (k := b.backstage) ⟨rfl, rfl⟩ (works_sendRender ..)
  refine works_andThen hshown ?_
  rw [← hshown.backstage]
  exact works_edited _ now

theorem works_onCss (css : String) (now : Nat) : (b.onCss css now).Works (b.backstage.edited now) [] := by
  have hedited := works_edited { b with css } now
  unfold onCss
  dsimp only
  split
  · rename_i hmode
    rw [if_pos hmode] at hedited
    exact hedited
  · rename_i hmode
    rw [if_neg hmode] at hedited
    have hsent := works_sendCss { b with css }
    have hkept : ({ b with css } : Bridge).sendCss.bridge.backstage = b.backstage.edited now :=
      hsent.backstage.trans hedited.backstage
    -- to mark rules is no work
    refine works_andThen hsent ?_
    rw [← hkept]
    split
    · exact works_highlightRules _ _
    · exact ⟨rfl, rfl⟩

theorem works_poll (now : Nat) : (b.poll h now).Works (b.backstage.after h (.poll now)) (b.workOf h (.poll now)) := by
  refine ⟨rfl, List.filter_eq_self.2 fun effect he => ?_⟩
  obtain ⟨id, -, rfl⟩ := List.mem_map.1 he
  rfl

theorem works_onCompiled (id : Nat) (result : Except CompileError String) :
    (b.onCompiled id result).Works (b.backstage.after h (.compiled id result)) (b.workOf h (.compiled id result)) := by
  unfold onCompiled Backstage.after workOf backstage
  dsimp only
  cases b.compilation.answer? id result with
  | none => exact ⟨rfl, rfl⟩
  | some compilation =>
    cases result with
    | error e => exact ⟨rfl, rfl⟩
    | ok css => exact works_andThen ⟨rfl, rfl⟩ (works_sendCss _)

/-- **Whatever happens to a bridge is work at its backstage, or leaves it alone.** -/
theorem works_step (e : Event) : (b.step h e).Works (b.backstage.after h e) (b.workOf h e) := by
  cases e with
  | message envelope => exact works_onMessage b envelope
  | source text now => exact works_onSource b h text now
  | css text now => exact works_onCss b text now
  | render => exact works_sendRender b h
  | showCss => exact works_sendCss b
  | shadowMode on => exact works_sendRender { b with setup := { b.setup with shadowMode := on } } h
  | highlight on => exact works_setHighlight b on
  | utilityCss on now =>
    exact works_sendCss { b with
      setup := { b.setup with utilityCss := on }
      compilation := if on then b.compilation.schedule now else b.compilation.cancel }
  | externalScripts urls =>
    exact works_postOr { b with externalScripts := urls } (.externalScripts urls)
      fun p => { p with externalScripts := true }
  | requestScript action =>
    exact works_postOr { b with scriptAction := some action } (b.scriptMessage action)
      fun p => { p with script := some action }
  | select token => exact works_onSelect b token
  | poll now => exact works_poll b h now
  | compiled id result => exact works_onCompiled b h id result
  | _ => exact ⟨rfl, rfl⟩

end Bridge

end LiveMarkup.Editor
