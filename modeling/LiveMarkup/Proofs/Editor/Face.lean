/-
What a bridge turns to the preview.

Only part of a bridge concerns the preview: how far the two have met, what is shown and what is pending. A face is
this part, and it is a machine of its own with few actions. Whatever happens to a bridge is one action of its face,
and the messages that are posted are those of the action (`face_step`). What is posted, and when, is therefore a
question about faces.
-/
import LiveMarkup.Editor.Bridge

set_option autoImplicit false

namespace LiveMarkup.Editor

open Wire

/-! ## Messages of a step -/

/-- The messages that a step posts, in order. -/
def Step.posted (s : Step) : List Message := s.effects.filterMap (·.message?)

theorem posted_andThen (s : Step) (next : Bridge → Step) :
    (s.andThen next).posted = s.posted ++ (next s.bridge).posted := List.filterMap_append

theorem posted_map (b : Bridge) (ms : List Message) : Step.posted ⟨b, ms.map .post⟩ = ms := by
  rw [Step.posted, List.filterMap_map]
  exact List.filterMap_some

/-! ## Faces -/

/-- What of a bridge concerns the preview. -/
structure Face where
  editorOrigin : String
  previewOrigin : String
  postId : String
  /-- The attribute that tells elements apart. -/
  key : String
  phase : Phase
  session : Option String
  loads : Nat
  pending : Pending
  rendered : Bool
  html : String
  /-- The style sheet that is shown. -/
  css : String
  shadowMode : Bool
  highlight : Bool
  urls : List String
  script : String
  scriptAction : Option ScriptAction
deriving DecidableEq, Repr

/-- The face of a bridge. -/
def Bridge.face (b : Bridge) : Face where
  editorOrigin := b.setup.editorOrigin
  previewOrigin := b.setup.previewOrigin
  postId := b.setup.postId
  key := b.setup.identity.key
  phase := b.phase
  session := b.session
  loads := b.loads
  pending := b.pending
  rendered := b.rendered
  html := b.html
  css := b.shownCss
  shadowMode := b.setup.shadowMode
  highlight := b.setup.highlight
  urls := b.externalScripts
  script := b.script
  scriptAction := b.scriptAction

/-- What can happen to a face. -/
inductive Act where
  | stay
  /-- The page is to be shown with this markup, style sheet and mode. -/
  | show (html css : String) (shadowMode : Bool)
  /-- The style sheet is to be shown. -/
  | style (css : String)
  | highlight (on : Bool)
  | scripts (urls : List String)
  /-- The script was edited. -/
  | write (text : String)
  /-- Something is to be done with the script. -/
  | script (action : ScriptAction)
  /-- A preview was loaded. -/
  | load
  /-- The preview answered the greeting of a session. -/
  | answer (session : String)
deriving DecidableEq, Repr

namespace Face

/-- The message that shows the page. -/
def renderMessage (f : Face) : Message := .render f.html f.css f.shadowMode f.highlight

/-- The message that carries out a script action. -/
def scriptMessage (f : Face) : ScriptAction → Message
  | .run => .runScript f.script
  | .disable => .disableScript

/-- The name of the session of a load. -/
def sessionName (postId : String) (load : Nat) : String := postId ++ ":" ++ toString load

/-- What has to be sent to a page that was just loaded. -/
def pendingAfterLoad (f : Face) : Pending where
  render := f.pending.render || f.rendered
  externalScripts := f.pending.externalScripts || !f.urls.isEmpty
  script := match f.pending.script, f.scriptAction with
    | none, some .run => some .run
    | waiting, _ => waiting

/-- The messages for what is pending. -/
def pendingMessages (f : Face) : List Message :=
  (if f.pending.render then [f.renderMessage] else []) ++
    (if f.pending.externalScripts then [.externalScripts f.urls] else []) ++ f.pending.script.toList.map f.scriptMessage

/-- Posts a message if the preview listens; else what it is for is remembered. -/
def postOr (f : Face) (m : Message) (remember : Pending → Pending) : Face × List Message :=
  if f.phase = .ready then (f, [m]) else ({ f with pending := remember f.pending }, [])

/-- Posts a message if the preview listens. -/
def postIf (f : Face) (m : Message) : Face × List Message := (f, if f.phase = .ready then [m] else [])

/-- The face after an action, and the messages that are posted. -/
def step (f : Face) : Act → Face × List Message
  | .stay => (f, [])
  | .show html css shadowMode =>
    let f := { f with rendered := true, html, css, shadowMode }
    f.postOr f.renderMessage fun p => { p with render := true }
  | .style css => { f with css }.postIf (.setCss css)
  | .highlight on => { f with highlight := on }.postIf (.setHighlight on)
  | .scripts urls => { f with urls }.postOr (.externalScripts urls) fun p => { p with externalScripts := true }
  | .write text => ({ f with script := text }, [])
  | .script action =>
    { f with scriptAction := some action }.postOr (f.scriptMessage action) fun p => { p with script := some action }
  | .load =>
    let session := sessionName f.postId (f.loads + 1)
    ({ f with loads := f.loads + 1, session := some session, phase := .awaitingReady, pending := f.pendingAfterLoad },
      [.init session ⟨f.key, f.shadowMode, f.highlight⟩])
  | .answer session =>
    if f.phase = .awaitingReady ∧ f.session = some session then
      ({ f with phase := .ready, pending := .nothing }, f.pendingMessages)
    else (f, [])

/-! ## What is pending -/

/-- What is pending is all that a preview has to be sent: the page if it was ever asked for, the scripts that the page
uses if there are any, and what was last asked for with the user's script if it was not carried out, or is to be
carried out again. -/
structure Covers (p : Pending) (rendered : Bool) (urls : List String) (scriptAction : Option ScriptAction) : Prop where
  render : p.render = rendered
  scripts : p.externalScripts = false → urls = []
  script : ∀ action, p.script = some action → scriptAction = some action
  run : scriptAction = some .run → p.script = some .run

/-- Nothing is pending for a preview that listens, and all that has to be sent for one that does not. -/
structure Tidy (f : Face) : Prop where
  ready : f.phase = .ready → f.pending = .nothing
  waiting : f.phase ≠ .ready → Covers f.pending f.rendered f.urls f.scriptAction

variable {f : Face}

theorem tidy_postOr {g : Face} {m : Message} {remember : Pending → Pending}
    (hready : g.phase = .ready → g.pending = .nothing)
    (hwaiting : g.phase ≠ .ready → Covers (remember g.pending) g.rendered g.urls g.scriptAction) :
    (g.postOr m remember).1.Tidy := by
  unfold postOr
  split
  · exact ⟨hready, fun h => absurd ‹_› h⟩
  · exact ⟨fun h => absurd h ‹_›, hwaiting⟩

/-- A preview that was loaded has to be sent what the one before had been sent, or was to be sent. -/
theorem covers_pendingAfterLoad (hf : f.Tidy) : Covers f.pendingAfterLoad f.rendered f.urls f.scriptAction := by
  by_cases hphase : f.phase = .ready
  · -- nothing was left to be sent, so all that the page before had been sent is pending again
    have hpending := hf.ready hphase
    refine ⟨?_, ?_, ?_, ?_⟩
    · simp only [pendingAfterLoad, hpending, Pending.nothing, Bool.false_or]
    · simp only [pendingAfterLoad, hpending, Pending.nothing, Bool.false_or, Bool.not_eq_false', List.isEmpty_iff,
        imp_self]
    · intro action h
      simp only [pendingAfterLoad, hpending, Pending.nothing] at h ⊢
      split at h
      · rename_i hscript
        rw [hscript]
        exact h
      · exact absurd h nofun
    · intro h
      simp only [pendingAfterLoad, hpending, Pending.nothing] at h ⊢
      rw [h]
  · -- what was pending is all, and stays so
    obtain ⟨hrender, hscripts, hscript, hrun⟩ := hf.waiting hphase
    refine ⟨?_, ?_, ?_, ?_⟩
    · simp only [pendingAfterLoad, hrender, Bool.or_self]
    · intro h
      simp only [pendingAfterLoad, Bool.or_eq_false_iff] at h
      exact hscripts h.1
    · intro action h
      simp only [pendingAfterLoad] at h
      split at h
      · rename_i hnone hscripted
        rw [hrun hscripted] at hnone
        exact absurd hnone nofun
      · exact hscript action h
    · intro h
      have hpending := hrun h
      simp only [pendingAfterLoad, hpending]

/-- **Every action keeps what is pending in order.** -/
theorem tidy_step (hf : f.Tidy) (a : Act) : (f.step a).1.Tidy := by
  obtain ⟨hready, hwaiting⟩ := hf
  -- what is asked for is posted or remembered, so the face changes with what is pending
  cases a with
  | stay => exact ⟨hready, hwaiting⟩
  | «show» html css on =>
    refine tidy_postOr hready fun hphase => ?_
    exact ⟨rfl, (hwaiting hphase).scripts, (hwaiting hphase).script, (hwaiting hphase).run⟩
  | scripts urls =>
    refine tidy_postOr hready fun hphase => ?_
    exact ⟨(hwaiting hphase).render, nofun, (hwaiting hphase).script, (hwaiting hphase).run⟩
  | script action =>
    refine tidy_postOr hready fun hphase => ?_
    exact ⟨(hwaiting hphase).render, (hwaiting hphase).scripts, fun _ h => h, fun h => h⟩
  | style | highlight | write => exact ⟨hready, hwaiting⟩
  | load => exact ⟨nofun, fun _ => covers_pendingAfterLoad ⟨hready, hwaiting⟩⟩
  | answer session =>
    unfold step
    dsimp only
    split
    · exact ⟨fun _ => rfl, fun h => absurd rfl h⟩
    · exact ⟨hready, hwaiting⟩

end Face

/-! ## What happens to the face -/

/-- Whether an event asks for the page to be shown. -/
def Event.asksRender : Event → Bool
  | .source .. | .render | .shadowMode _ => true
  | _ => false

/-- Whether an action is none of the handshake, and asks for nothing that the handshake waits for. -/
def Act.isUpdate : Act → Bool
  | .stay | .style _ | .highlight _ | .scripts _ | .write _ => true
  | .show .. | .script _ | .load | .answer _ => false

/-- Which action of its face an event is, as far as the handshake goes. -/
inductive Acts (f : Face) : Event → Act → Prop
  | load : Acts f .loaded .load
  | answer (session : String) : Acts f (.message ⟨f.previewOrigin, .ready session⟩) (.answer session)
  | show {e : Event} (he : e.asksRender = true) (html css : String) (on : Bool) : Acts f e (.show html css on)
  | script (action : ScriptAction) : Acts f (.requestScript action) (.script action)
  | other {e : Event} {a : Act} (hload : e ≠ .loaded)
      (hanswer : ∀ session, e ≠ .message ⟨f.previewOrigin, .ready session⟩)
      (hrender : e.asksRender = false) (hscript : ∀ action, e ≠ .requestScript action) (ha : a.isUpdate = true) :
      Acts f e a

theorem Acts.eq_loaded {f : Face} {e : Event} (h : Acts f e .load) : e = .loaded := by
  cases h with
  | load => rfl
  | other hload hanswer hrender hscript ha => exact absurd ha nofun

namespace Bridge

/-- A step is an action of the face. -/
def Faces (b : Bridge) (s : Step) (a : Act) : Prop := (s.bridge.face, s.posted) = b.face.step a

variable {b : Bridge} {s : Step} {a : Act}

theorem Faces.face (h : b.Faces s a) : s.bridge.face = (b.face.step a).1 := congrArg Prod.fst h

theorem Faces.posted (h : b.Faces s a) : s.posted = (b.face.step a).2 := congrArg Prod.snd h

/-- A step after one that does not concern the preview. -/
theorem faces_andThen_quiet {next : Bridge → Step} (hs : b.Faces s .stay) (hnext : s.bridge.Faces (next s.bridge) a) :
    b.Faces (s.andThen next) a := by
  have hface : s.bridge.face = b.face := hs.face
  have hposted : s.posted = [] := hs.posted
  unfold Faces at hnext ⊢
  rw [posted_andThen, hposted, List.nil_append, ← hface]
  exact hnext

/-- A step before one that does not concern the preview. -/
theorem faces_quiet_andThen {next : Bridge → Step} (hs : b.Faces s a) (hnext : s.bridge.Faces (next s.bridge) .stay) :
    b.Faces (s.andThen next) a := by
  have hface : (next s.bridge).bridge.face = s.bridge.face := hnext.face
  have hposted : (next s.bridge).posted = [] := hnext.posted
  unfold Faces at hs ⊢
  rw [posted_andThen, hposted, List.append_nil, ← hs]
  exact congrArg (·, s.posted) hface

theorem faces_postOr (b : Bridge) (m : Message) (remember : Pending → Pending) :
    ((b.postOr m remember).bridge.face, (b.postOr m remember).posted) = b.face.postOr m remember := by
  by_cases hphase : b.phase = .ready
  · have hface : b.face.phase = .ready := hphase
    rw [postOr, Face.postOr, if_pos hphase, if_pos hface]
    rfl
  · have hface : ¬ b.face.phase = .ready := hphase
    rw [postOr, Face.postOr, if_neg hphase, if_neg hface]
    rfl

theorem faces_postIf (b : Bridge) (m : Message) {s : Step}
    (hs : s = if b.phase = .ready then b.posting m else b.quietly) :
    (s.bridge.face, s.posted) = b.face.postIf m := by
  by_cases hphase : b.phase = .ready
  · have hface : b.face.phase = .ready := hphase
    rw [hs, Face.postIf, if_pos hphase, if_pos hface]
    rfl
  · have hface : ¬ b.face.phase = .ready := hphase
    rw [hs, Face.postIf, if_neg hphase, if_neg hface]
    rfl

theorem faces_sendCss (b : Bridge) : b.Faces b.sendCss (.style b.shownCss) := faces_postIf b _ rfl

theorem faces_sendRender (b : Bridge) (h : Helpers) :
    b.Faces (b.sendRender h)
      (.show ({ b with rendered := true }.refresh h).bridge.html b.shownCss b.setup.shadowMode) := by
  have hposted : ({ b with rendered := true }.refresh h).posted = [] := by
    unfold refresh Step.posted
    dsimp only
    split <;> rfl
  unfold Faces
  rw [sendRender, posted_andThen, hposted, List.nil_append]
  exact faces_postOr ({ b with rendered := true }.refresh h).bridge _ _

/-- The rules that apply to an element are marked without the preview. -/
theorem faces_highlightRules (b : Bridge) (token : String) : b.Faces (b.highlightRules token) .stay := by
  unfold highlightRules
  split
  · rfl
  · split <;> rfl

theorem faces_onSelect (b : Bridge) (token : String) : b.Faces (b.onSelect token) .stay := by
  unfold onSelect
  split
  · rfl
  · refine faces_andThen_quiet rfl ?_
    split
    · rfl
    · exact faces_highlightRules _ token

theorem faces_onReady (b : Bridge) (session : String) : b.Faces (b.onReady session) (.answer session) := by
  unfold onReady Faces Face.step
  dsimp only
  by_cases hready : b.phase = .awaitingReady ∧ b.session = some session
  · have hface : b.face.phase = .awaitingReady ∧ b.face.session = some session := hready
    rw [if_pos hready, if_pos hface, posted_map]
    rfl
  · have hface : ¬ (b.face.phase = .awaitingReady ∧ b.face.session = some session) := hready
    rw [if_neg hready, if_neg hface]
    rfl

theorem faces_onSource (b : Bridge) (h : Helpers) (source : String) (now : Nat) :
    ∃ html css on, b.Faces (b.onSource h source now) (.show html css on) := by
  refine ⟨_, _, _, faces_quiet_andThen (faces_andThen_quiet rfl (faces_sendRender _ h)) ?_⟩
  split <;> rfl

/-- A style sheet that the user writes is shown at once, except in utility mode. -/
theorem faces_onCss (b : Bridge) (css : String) (now : Nat) :
    b.Faces (b.onCss css now) .stay ∨ ∃ css', b.Faces (b.onCss css now) (.style css') := by
  unfold onCss
  dsimp only
  split <;> rename_i hutility
  · -- what is shown is the compiled style sheet, which is the same until the compiler answers
    left
    have hcss : ({ b with css } : Bridge).shownCss = b.shownCss := by
      rw [shownCss, shownCss, if_pos hutility, if_pos hutility]
    exact congrArg (fun css => ({ b.face with css }, ([] : List Message))) hcss
  · right
    refine ⟨_, faces_quiet_andThen (faces_sendCss { b with css }) ?_⟩
    split
    · exact faces_highlightRules _ _
    · rfl

theorem faces_setUtilityCss (b : Bridge) (on : Bool) (now : Nat) :
    ∃ css, b.Faces (b.setUtilityCss on now) (.style css) := by
  let compilation := if on then b.compilation.schedule now else b.compilation.cancel
  let switched : Bridge := { b with setup := { b.setup with utilityCss := on }, compilation }
  exact ⟨switched.shownCss, faces_sendCss switched⟩

theorem lastGood_poll (c : Compilation) (hasCompiler : Bool) (now : Nat) :
    (c.poll hasCompiler now).2.lastGood = c.lastGood := by
  unfold Compilation.poll
  dsimp only
  split <;> rfl

/-- Asking for a compilation does not concern the preview. -/
theorem faces_poll (b : Bridge) (h : Helpers) (now : Nat) : b.Faces (b.poll h now) .stay := by
  have hposted : (b.poll h now).posted = [] := by
    unfold poll Step.posted
    dsimp only
    cases (b.compilation.poll h.hasCompiler now).1 <;> rfl
  have hcss : (b.poll h now).bridge.shownCss = b.shownCss := by
    change (if b.setup.utilityCss then (b.compilation.poll h.hasCompiler now).2.lastGood else b.css) = _
    rw [lastGood_poll]
    rfl
  unfold Faces
  rw [hposted]
  exact congrArg (fun css => ({ b.face with css }, ([] : List Message))) hcss

/-- An answer of the compiler that counts may bring another style sheet. -/
theorem faces_onCompiled (b : Bridge) (id : Nat) (result : Except CompileError String) :
    b.Faces (b.onCompiled id result) .stay ∨ ∃ css, b.Faces (b.onCompiled id result) (.style css) := by
  unfold onCompiled
  split
  · exact .inl rfl
  · rename_i compilation hanswer
    dsimp only
    split
    · have hstatus : ({ b with compilation } : Bridge).Faces
          ⟨{ b with compilation }, [.showStatus compilation.status]⟩ .stay := rfl
      have hstyle := faces_andThen_quiet hstatus (faces_sendCss { b with compilation })
      exact .inr ⟨({ b with compilation } : Bridge).shownCss, hstyle⟩
    · -- after a failure the last style sheet that could be compiled stays
      rename_i failure
      left
      have hgood : compilation.lastGood = b.compilation.lastGood := by
        unfold Compilation.answer? at hanswer
        split at hanswer
        · rw [← Option.some.inj hanswer]
        · exact absurd hanswer nofun
      have hcss : ({ b with compilation } : Bridge).shownCss = b.shownCss := by
        rw [shownCss, shownCss]
        dsimp only
        rw [hgood]
      exact congrArg (fun css => ({ b.face with css }, ([] : List Message))) hcss

/-- A message of anyone but the preview, and any but an answer, does not concern the face. -/
theorem faces_onMessage (b : Bridge) (e : Wire.Envelope) :
    (∃ session, e = ⟨b.setup.previewOrigin, .ready session⟩ ∧ b.Faces (b.onMessage e) (.answer session)) ∨
      (∀ session, e ≠ ⟨b.setup.previewOrigin, .ready session⟩) ∧ b.Faces (b.onMessage e) .stay := by
  obtain ⟨origin, message⟩ := e
  unfold onMessage
  split
  · rename_i horigin
    obtain rfl : origin = b.setup.previewOrigin := horigin
    cases message with
    | ready session => exact .inl ⟨session, rfl, faces_onReady b session⟩
    | select token => exact .inr ⟨nofun, faces_onSelect b token⟩
    | _ => exact .inr ⟨nofun, rfl⟩
  · rename_i horigin
    exact .inr ⟨fun session h => horigin (congrArg Wire.Envelope.origin h), rfl⟩

/-- **Whatever happens to a bridge is an action of its face.** -/
theorem face_step (h : Helpers) (b : Bridge) (e : Event) : ∃ a, Acts b.face e a ∧ b.Faces (b.step h e) a := by
  -- an event that changes a setting first is an action of the changed bridge's face
  cases e with
  | loaded => exact ⟨.load, .load, rfl⟩
  | message e =>
    rcases faces_onMessage b e with ⟨session, rfl, hfaces⟩ | ⟨hother, hfaces⟩
    · exact ⟨_, .answer session, hfaces⟩
    · exact ⟨_, .other nofun (fun session h => hother session (Event.message.inj h)) rfl nofun rfl, hfaces⟩
  | source text now =>
    obtain ⟨html, css, on, hfaces⟩ := faces_onSource b h text now
    exact ⟨_, .show rfl html css on, hfaces⟩
  | css text now =>
    rcases faces_onCss b text now with hfaces | ⟨css, hfaces⟩
    · exact ⟨_, .other nofun nofun rfl nofun rfl, hfaces⟩
    · exact ⟨_, .other nofun nofun rfl nofun rfl, hfaces⟩
  | script text => exact ⟨.write text, .other nofun nofun rfl nofun rfl, rfl⟩
  | render => exact ⟨_, .show rfl _ _ _, faces_sendRender b h⟩
  | showCss => exact ⟨_, .other nofun nofun rfl nofun rfl, faces_sendCss b⟩
  | shadowMode on =>
    exact ⟨_, .show rfl _ _ _, faces_sendRender { b with setup := { b.setup with shadowMode := on } } h⟩
  | highlight on =>
    refine ⟨.highlight on, .other nofun nofun rfl nofun rfl, ?_⟩
    exact faces_postIf { b with setup := { b.setup with highlight := on } } _ rfl
  | utilityCss on now =>
    obtain ⟨css, hfaces⟩ := faces_setUtilityCss b on now
    exact ⟨.style css, .other nofun nofun rfl nofun rfl, hfaces⟩
  | externalScripts urls =>
    refine ⟨.scripts urls, .other nofun nofun rfl nofun rfl, ?_⟩
    exact faces_postOr { b with externalScripts := urls } _ _
  | requestScript action =>
    refine ⟨.script action, .script action, ?_⟩
    exact faces_postOr { b with scriptAction := some action } _ _
  | select token => exact ⟨_, .other nofun nofun rfl nofun rfl, faces_onSelect b token⟩
  | clearSelection => exact ⟨.stay, .other nofun nofun rfl nofun rfl, rfl⟩
  | requestCompile now => exact ⟨.stay, .other nofun nofun rfl nofun rfl, rfl⟩
  | poll now => exact ⟨_, .other nofun nofun rfl nofun rfl, faces_poll b h now⟩
  | compiled id result =>
    rcases faces_onCompiled b id result with hfaces | ⟨css, hfaces⟩
    · exact ⟨_, .other nofun nofun rfl nofun rfl, hfaces⟩
    · exact ⟨_, .other nofun nofun rfl nofun rfl, hfaces⟩

end Bridge

end LiveMarkup.Editor
