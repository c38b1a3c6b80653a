/-
The preview shows what the editor means it to show.

An editor and a page that trust each other send messages both ways, and each takes them one at a time and in order.
The page may be loaded again at any time; then it is a new one, and what the old one was sent is lost, but what it said
still arrives. What the page is going to show is what it shows now and what is on its way to it (`Windows.coming`).
This changes only when the editor sends something, so it can be compared with the face of the bridge at every move
(`Agrees`), and when nothing is on its way it is what the page shows. Main result: `inAgreement_of_ready`.
-/
import LiveMarkup.Proofs.Editor.Handshake
import LiveMarkup.Proofs.Preview.Shown

set_option autoImplicit false

namespace LiveMarkup

open Wire Editor Preview

/-! ## What a face asks for, and what is shown -/

/-- The content is the one that a face asks for, if it asks for any. -/
def Draws (f : Face) (s : Shown) : Prop :=
  f.rendered = true →
    s.html = some f.html ∧ s.css = f.css ∧ s.shadowMode = f.shadowMode ∧ s.highlight = f.highlight

/-- A page shows what a face asks for. -/
structure Sees (f : Face) (s : Shown) : Prop where
  content : Draws f s
  urls : s.urls = f.urls
  script : s.script.isSome = true ↔ f.scriptAction = some .run

/-- A page that listens is going to show what the face asks for, and one that does not yet has no scripts. -/
structure Agrees (f : Face) (s : Shown) : Prop where
  ready : f.phase = .ready → Sees f s
  waiting : f.phase ≠ .ready → s.urls = [] ∧ s.script = none

variable {f : Face} {s : Shown}

theorem agrees_postOr {m : Message} {remember : Pending → Pending} (hready : f.phase = .ready → Sees f (s.after m))
    (hwaiting : f.phase ≠ .ready → s.urls = [] ∧ s.script = none) :
    Agrees (f.postOr m remember).1 ((f.postOr m remember).2.foldl Shown.after s) := by
  unfold Face.postOr
  split
  · rename_i hphase
    exact ⟨hready, fun h => absurd hphase h⟩
  · rename_i hphase
    exact ⟨fun h => absurd h hphase, hwaiting⟩

theorem agrees_postIf {m : Message} (hready : f.phase = .ready → Sees f (s.after m))
    (hwaiting : f.phase ≠ .ready → s.urls = [] ∧ s.script = none) :
    Agrees (f.postIf m).1 ((f.postIf m).2.foldl Shown.after s) := by
  unfold Face.postIf
  split
  · rename_i hphase
    exact ⟨hready, fun h => absurd hphase h⟩
  · rename_i hphase
    exact ⟨fun h => absurd h hphase, hwaiting⟩

/-- The message with the page makes it show what the face asks for. -/
theorem sees_render (hurls : s.urls = f.urls) (hscript : s.script.isSome = true ↔ f.scriptAction = some .run) :
    Sees f (s.after f.renderMessage) :=
  ⟨fun _ => ⟨rfl, rfl, rfl, rfl⟩, hurls, hscript⟩

theorem sees_externalScripts {urls : List String} (h : Sees { f with urls } s) :
    Sees f (s.after (.externalScripts f.urls)) :=
  ⟨h.content, rfl, h.script⟩

theorem sees_script {last : Option ScriptAction} {action : ScriptAction} (h : Sees { f with scriptAction := last } s)
    (hf : f.scriptAction = some action) : Sees f (s.after (f.scriptMessage action)) := by
  cases action with
  | run => exact ⟨h.content, h.urls, fun _ => hf, fun _ => rfl⟩
  | disable => exact ⟨h.content, h.urls, nofun, fun hrun => absurd (hf.symm.trans hrun) nofun⟩

/-- With what is pending, a page that has no scripts gets to show what the face asks for. -/
theorem sees_pendingMessages (hf : Face.Covers f.pending f.rendered f.urls f.scriptAction) (hurls : s.urls = [])
    (hscript : s.script = none) : Sees f (f.pendingMessages.foldl Shown.after s) := by
  obtain ⟨scripts, script, hpending, hscripts, hscript'⟩ := pendingMessages_of_covers hf
  rw [hpending, List.foldl_append, List.foldl_append]
  -- one message after the other: the page, the scripts that it uses, the user's script; what is not sent yet is taken
  -- out of the face until then
  have hnone : s.script.isSome = true ↔ (none : Option ScriptAction) = some .run := by
    rw [hscript]
    exact ⟨nofun, nofun⟩
  have hpage : Sees { f with urls := [], scriptAction := none }
      ((if f.rendered then [f.renderMessage] else []).foldl Shown.after s) := by
    split
    · exact sees_render (f := { f with urls := [], scriptAction := none }) hurls hnone
    · rename_i hrendered
      exact ⟨fun h => absurd h hrendered, hurls, hnone⟩
  generalize (if f.rendered then [f.renderMessage] else []).foldl Shown.after s = s at hpage ⊢
  have hscripted : Sees { f with scriptAction := none } (scripts.foldl Shown.after s) := by
    obtain ⟨rfl, hempty⟩ | rfl := hscripts
    · exact ⟨hpage.content, hpage.urls.trans hempty.symm, hpage.script⟩
    · exact sees_externalScripts (f := { f with scriptAction := none }) hpage
  generalize scripts.foldl Shown.after s = s at hscripted ⊢
  obtain ⟨rfl, hidle⟩ | ⟨action, haction, rfl⟩ := hscript'
  · refine ⟨hscripted.content, hscripted.urls, ?_⟩
    exact hscripted.script.trans ⟨nofun, fun hrun => absurd hrun hidle⟩
  · exact sees_script hscripted haction

/-- **What an action sends keeps the page in agreement with the face.** -/
theorem agrees_step (hf : f.Tidy) (hs : Agrees f s) {a : Act} (ha : a ≠ .load) :
    Agrees (f.step a).1 ((f.step a).2.foldl Shown.after s) := by
  obtain ⟨hready, hwaiting⟩ := hs
  cases a with
  | stay => exact ⟨hready, hwaiting⟩
  | «show» html css on =>
    refine agrees_postOr (fun hphase => ?_) hwaiting
    exact sees_render (hready hphase).urls (hready hphase).script
  | style css =>
    refine agrees_postIf (fun hphase => ?_) hwaiting
    refine ⟨fun hrendered => ?_, (hready hphase).urls, (hready hphase).script⟩
    obtain ⟨hhtml, -, hshadow, hhighlight⟩ := (hready hphase).content hrendered
    exact ⟨hhtml, rfl, hshadow, hhighlight⟩
  | highlight on =>
    refine agrees_postIf (fun hphase => ?_) hwaiting
    refine ⟨fun hrendered => ?_, (hready hphase).urls, (hready hphase).script⟩
    obtain ⟨hhtml, hcss, hshadow, -⟩ := (hready hphase).content hrendered
    exact ⟨hhtml, hcss, hshadow, rfl⟩
  | scripts urls =>
    refine agrees_postOr (fun hphase => ?_) hwaiting
    exact sees_externalScripts (f := { f with urls }) (hready hphase)
  | write text =>
    refine ⟨fun hphase => ?_, hwaiting⟩
    exact ⟨(hready hphase).content, (hready hphase).urls, (hready hphase).script⟩
  | script action =>
    refine agrees_postOr (fun hphase => ?_) hwaiting
    exact sees_script (f := { f with scriptAction := some action }) (hready hphase) rfl
  | load => exact absurd rfl ha
  | answer session =>
    unfold Face.step
    dsimp only
    split
    · -- the page is met just now, so it has no scripts and is sent all that is pending
      rename_i hawaited
      have hphase : f.phase ≠ .ready := fun h => absurd (hawaited.1.symm.trans h) nofun
      obtain ⟨hurls, hscript⟩ := hwaiting hphase
      have hsees := sees_pendingMessages (hf.waiting hphase) hurls hscript
      exact ⟨fun _ => ⟨hsees.content, hsees.urls, hsees.script⟩, fun h => absurd rfl h⟩
    · exact ⟨hready, hwaiting⟩

/-! ## The two windows -/

/-- Whether an event comes from the editor itself, and not from the preview. -/
def Editor.Event.isLocal : Editor.Event → Bool
  | .loaded | .message _ => false
  | .source .. | .css .. | .script _ | .render | .showCss | .shadowMode _ | .highlight _ | .utilityCss .. => true
  | .externalScripts _ | .requestScript _ | .select _ | .clearSelection => true
  | .requestCompile _ | .poll _ | .compiled .. => true

/-- An editor and a page, and what was sent to each that it did not take yet, the oldest first. -/
structure Windows where
  bridge : Bridge
  frame : Frame
  toPreview : List Envelope
  toEditor : List Envelope

namespace Windows

/-- An editor and a page to which nothing has happened. -/
def start (editor : Editor.Setup) (page : Preview.Setup) : Windows := ⟨.ofSetup editor, .ofSetup page, [], []⟩

/-- Something happens to the editor; what it sends is on its way to the page. -/
def editorStep (p : Windows) (h : Helpers) (e : Editor.Event) : Windows :=
  let s := p.bridge.step h e
  { p with
    bridge := s.bridge
    toPreview := p.toPreview ++ s.posted.map fun m => ⟨p.bridge.setup.editorOrigin, m⟩ }

/-- Something happens to the page; what it sends is on its way to the editor. -/
def previewStep (p : Windows) (w : Surroundings) (e : Preview.Event) : Windows :=
  let o := p.frame.step w e
  { p with
    frame := o.frame
    toEditor := p.toEditor ++ o.sent.map fun m => ⟨p.frame.setup.origin, m⟩ }

/-- What can happen next. -/
inductive Move where
  /-- The user, the compiler or the clock does something in the editor. -/
  | edit (h : Helpers) (e : Editor.Event) (he : e.isLocal = true)
  /-- The page is loaded again. -/
  | load (h : Helpers)
  /-- The user does something in the page. -/
  | touch (w : Surroundings) (e : Preview.Event) (he : e.isLocal = true)
  /-- The page takes the oldest message. -/
  | previewTakes (w : Surroundings)
  /-- The editor takes the oldest message. -/
  | editorTakes (h : Helpers)

/-- What a move does. -/
def move (p : Windows) : Move → Windows
  | .edit h e _ => p.editorStep h e
  | .load h => ({ p with frame := .ofSetup p.frame.setup, toPreview := [] } : Windows).editorStep h .loaded
  | .touch w e _ => p.previewStep w e
  | .previewTakes w =>
    match p.toPreview with
    | [] => p
    | e :: rest => ({ p with toPreview := rest } : Windows).previewStep w (.message e)
  | .editorTakes h =>
    match p.toEditor with
    | [] => p
    | e :: rest => ({ p with toEditor := rest } : Windows).editorStep h (.message e)

/-- The windows after one move after another. -/
def after (p : Windows) (moves : List Move) : Windows := moves.foldl move p

/-- What was done in the editor. -/
def Move.edit? : Move → Option (Helpers × Editor.Event)
  | .edit h e _ => some (h, e)
  | .load _ | .touch .. | .previewTakes _ | .editorTakes _ => none

/-- What was done in the editor, in order. -/
def edits (moves : List Move) : History := moves.filterMap Move.edit?

/-- What the page is going to show: what it shows, and what is on its way. -/
def coming (p : Windows) : Shown := p.toPreview.foldl (Shown.receive p.frame.setup.editorOrigin) p.frame.shown

/-! ## Every move keeps the agreement -/

variable {p p' : Windows} {past past' : History} {h : Helpers} {e : Editor.Event} {w : Surroundings}

/-- What always holds of an editor and a page that trusts it, after some edits. -/
structure InTouch (past : History) (p : Windows) : Prop where
  trusted : p.bridge.setup.editorOrigin = p.frame.setup.editorOrigin
  tidy : p.bridge.face.Tidy
  agrees : Agrees p.bridge.face p.coming
  rendered : p.bridge.rendered = asksRender past
  script : p.bridge.scriptAction = lastScript? past

/-- What a trusted window sends is received. -/
theorem foldl_receive_map (trusted : String) (s : Shown) (ms : List Message) :
    (ms.map fun m => (⟨trusted, m⟩ : Envelope)).foldl (Shown.receive trusted) s = ms.foldl Shown.after s := by
  rw [List.foldl_map]
  congr
  funext s m
  exact if_pos rfl

theorem coming_editorStep (hp : p.bridge.setup.editorOrigin = p.frame.setup.editorOrigin) :
    (p.editorStep h e).coming = (p.bridge.step h e).posted.foldl Shown.after p.coming := by
  unfold editorStep coming
  rw [List.foldl_append, hp, foldl_receive_map]

/-- An event of the editor keeps what its bridge knows of its edits. -/
theorem inTouch_of_agrees (hp : p.InTouch past) (hframe : (p'.frame).setup = p.frame.setup)
    (hbridge : p'.bridge = (p.bridge.step h e).bridge) (hagrees : Agrees p'.bridge.face p'.coming)
    (hrendered : asksRender past' = (asksRender past || e.asksRender))
    (hscript : lastScript? past' = e.script?.or (lastScript? past)) : p'.InTouch past' := by
  obtain ⟨a, ha, hfaces⟩ := Bridge.face_step h p.bridge e
  have hface : p'.bridge.face = (p.bridge.face.step a).1 := hbridge ▸ hfaces.face
  have hstage := (congrArg Face.stage hface).trans (Face.stage_step p.bridge.face a)
  refine ⟨?_, hface ▸ Face.tidy_step hp.tidy a, hagrees, ?_, ?_⟩
  · rw [hframe, ← hp.trusted]
    exact (congrArg Stage.editorOrigin hstage).trans (p.bridge.face.stage.step_post a).1
  · rw [hrendered, ← hp.rendered]
    exact (congrArg Stage.rendered hstage).trans (rendered_step ha)
  · rw [hscript, ← hp.script]
    exact (congrArg Stage.scriptAction hstage).trans (scriptAction_step ha)

theorem inTouch_editorStep (hp : p.InTouch past) (he : e ≠ .loaded)
    (hrendered : asksRender past' = (asksRender past || e.asksRender))
    (hscript : lastScript? past' = e.script?.or (lastScript? past)) : (p.editorStep h e).InTouch past' := by
  refine inTouch_of_agrees hp rfl rfl ?_ hrendered hscript
  obtain ⟨a, ha, hfaces⟩ := Bridge.face_step h p.bridge e
  have hload : a ≠ .load := by
    rintro rfl
    exact he ha.eq_loaded
  rw [coming_editorStep hp.trusted, hfaces.posted]
  exact hfaces.face ▸ agrees_step hp.tidy hp.agrees hload

/-- A page that was loaded has no scripts, whatever the one before was sent. -/
theorem inTouch_load (hp : p.InTouch past) : (p.move (.load h)).InTouch past := by
  refine inTouch_of_agrees (e := .loaded) (h := h) hp rfl rfl ⟨nofun, fun _ => ?_⟩ (Bool.or_false _).symm rfl
  have hcoming := coming_editorStep (p := { p with frame := .ofSetup p.frame.setup, toPreview := [] }) (h := h)
    (e := .loaded) hp.trusted
  exact ⟨congrArg Shown.urls hcoming, congrArg Shown.script hcoming⟩

/-- What the page does is no matter of the editor as long as the same is coming. -/
theorem inTouch_previewStep (hp : p.InTouch past) {e : Preview.Event} {toPreview : List Envelope}
    (hcoming : (previewStep { p with toPreview } w e).coming = p.coming) :
    (previewStep { p with toPreview } w e).InTouch past := by
  refine ⟨?_, hp.tidy, hcoming ▸ hp.agrees, hp.rendered, hp.script⟩
  exact hp.trusted.trans (congrArg Preview.Setup.editorOrigin (p.frame.setup_step w e)).symm

theorem inTouch_touch (hp : p.InTouch past) {e : Preview.Event} (he : e.isLocal = true) :
    (p.previewStep w e).InTouch past := by
  refine inTouch_previewStep hp ?_
  unfold coming previewStep
  dsimp only
  rw [p.frame.setup_step, p.frame.shown_step w he]

/-- A message that the page takes was coming, and is shown now. -/
theorem inTouch_previewTakes (hp : p.InTouch past) : (p.move (.previewTakes w)).InTouch past := by
  unfold move
  dsimp only
  split
  · exact hp
  · rename_i e rest hqueue
    refine inTouch_previewStep hp ?_
    -- what the page shows after the message is what was going to be shown after it
    have hcoming : p.coming = rest.foldl (Shown.receive p.frame.setup.editorOrigin)
        (p.frame.shown.receive p.frame.setup.editorOrigin e) := by
      rw [coming, hqueue, List.foldl_cons]
    rw [hcoming, ← Frame.shown_onMessage p.frame w e, ← p.frame.setup_step w (.message e)]
    rfl

/-- A message that the editor takes is an event like any other, also if an old page sent it. -/
theorem inTouch_editorTakes (hp : p.InTouch past) : (p.move (.editorTakes h)).InTouch past := by
  unfold move
  dsimp only
  split
  · exact hp
  · rename_i e rest hqueue
    have htaken : ({ p with toEditor := rest } : Windows).InTouch past :=
      ⟨hp.trusted, hp.tidy, hp.agrees, hp.rendered, hp.script⟩
    exact inTouch_editorStep htaken nofun (Bool.or_false _).symm rfl

/-- **Every move keeps the editor and the page in touch.** -/
theorem inTouch_move (hp : p.InTouch past) (m : Move) : (p.move m).InTouch (past ++ m.edit?.toList) := by
  cases m with
  | edit h e he =>
    refine inTouch_editorStep hp ?_ (asksRender_append past h e) (lastScript?_append past h e)
    rintro rfl
    exact absurd he nofun
  | load h => exact (List.append_nil past).symm ▸ inTouch_load hp
  | touch w e he => exact (List.append_nil past).symm ▸ inTouch_touch hp he
  | previewTakes w => exact (List.append_nil past).symm ▸ inTouch_previewTakes hp
  | editorTakes h => exact (List.append_nil past).symm ▸ inTouch_editorTakes hp

theorem edits_append (moves : List Move) (m : Move) : edits (moves ++ [m]) = edits moves ++ m.edit?.toList := by
  rw [edits, List.filterMap_append]
  cases m <;> rfl

/-- Whatever an editor and a page do that trusts it, they stay in touch. -/
theorem inTouch_after {editor : Editor.Setup} {page : Preview.Setup} (horigin : page.editorOrigin = editor.editorOrigin)
    (moves : List Move) : ((start editor page).after moves).InTouch (edits moves) := by
  -- by induction on the moves; at first nothing was asked for, and nothing is shown
  induction moves using List.reverseRecOn with
  | nil =>
    refine ⟨horigin.symm, ⟨nofun, fun _ => ⟨rfl, fun _ => rfl, nofun, nofun⟩⟩, ?_, rfl, rfl⟩
    exact ⟨nofun, fun _ => ⟨rfl, rfl⟩⟩
  | append_singleton moves m ih =>
    rw [edits_append, after, List.foldl_append]
    exact inTouch_move ih m

/-- The page shows what the editor means it to show, after some edits. -/
structure InAgreement (past : History) (p : Windows) : Prop where
  html : p.frame.rendered = some p.bridge.html
  css : p.frame.page.css = p.bridge.shownCss
  shadowMode : p.frame.shadowMode = p.bridge.setup.shadowMode
  highlight : p.frame.highlight = p.bridge.setup.highlight
  externalScripts : p.frame.externalScripts.map (·.url) = p.bridge.externalScripts
  /-- The page has a script of the user's if and only if it was last asked to run one. -/
  userScript : p.frame.userScript.isSome = true ↔ lastScript? past = some .run

/-- **The editor and the preview agree when nothing is on its way.** Whatever was done in both windows, in any order and
with the page loaded again at any time: if the preview listens, has taken all messages, and was ever asked to show the
page, then it shows what the editor has. -/
theorem inAgreement_of_ready {editor : Editor.Setup} {page : Preview.Setup}
    (horigin : page.editorOrigin = editor.editorOrigin) (moves : List Move)
    (hready : ((start editor page).after moves).bridge.phase = .ready)
    (hquiet : ((start editor page).after moves).toPreview = []) (hrendered : asksRender (edits moves) = true) :
    InAgreement (edits moves) ((start editor page).after moves) := by
  have htouch := inTouch_after horigin moves
  generalize (start editor page).after moves = p at hready hquiet htouch ⊢
  -- when nothing is on its way, what is coming is what is shown
  have hcoming : p.coming = p.frame.shown := by rw [coming, hquiet, List.foldl_nil]
  have hsees := htouch.agrees.ready hready
  rw [hcoming] at hsees
  have hasked : p.bridge.face.rendered = true := htouch.rendered.trans hrendered
  obtain ⟨hhtml, hcss, hshadow, hhighlight⟩ := hsees.content hasked
  refine ⟨hhtml, hcss, hshadow, hhighlight, hsees.urls, ?_⟩
  rw [← htouch.script]
  exact hsees.script

/-- No one works for the editor. -/
def alone : Helpers := ⟨false, none⟩

/-- No script can be loaded, and nothing has a box. -/
def bare : Surroundings := ⟨fun _ => none, none⟩

/-- The editor of a post, with the usual settings. -/
def postEditor : Editor.Setup where
  editorOrigin := "https://editor.example"
  previewOrigin := "https://preview.example"
  postId := "post"
  shadowMode := false
  highlight := true
  utilityCss := false
  compileDelay := 300
  identity := .default
  media := .default

/-- A page is loaded again just when the editor sent it what it had asked for. -/
def reloading : List Move :=
  [.edit alone (.source "<p>a</p>" 0) rfl, .load alone, .previewTakes bare, .edit alone (.requestScript .run) rfl,
    .editorTakes alone, .load alone, .previewTakes bare, .editorTakes alone, .previewTakes bare, .previewTakes bare]

theorem inAgreement_of_reloading : InAgreement (edits reloading)
    ((start postEditor (.ofOrigins "https://preview.example" "https://editor.example")).after reloading) :=
  inAgreement_of_ready rfl reloading (by decide +kernel) rfl rfl

end Windows

end LiveMarkup
