/-
Nothing is sent to a preview before it was met.

Whoever loads a preview greets it with the name of a new session, and what the page is to show is not sent before the
preview answered with this name. Until then requests are only remembered, each kind by its latest, and with the answer
they are sent in a fixed order. The run of a bridge is read through its face: `Met` says what of a history a face
knows, and is kept by every action (`met_append`). Main result: `handshake`.
-/
import LiveMarkup.Proofs.Editor.Face
import LiveMarkup.Proofs.Editor.History
import LiveMarkup.Proofs.Text.Chars
import Mathlib.Data.List.Basic
import Mathlib.Data.List.Induction

set_option autoImplicit false

namespace LiveMarkup.Editor

open Wire

/-! ## Greetings and requests -/

/-- The session that a message opens. -/
def greeting? : Message → Option String
  | .init session _ => some session
  | _ => none

/-- The sessions that were opened, in order. -/
def greeted (setup : Setup) (past : History) : List String :=
  ((Bridge.ofSetup setup).follow past).posted.filterMap greeting?

/-- What an event asks for with the user's script. -/
def Event.script? : Event → Option ScriptAction
  | .requestScript action => some action
  | _ => none

/-- What was last asked for with the user's script. -/
def lastScript? (past : History) : Option ScriptAction := (past.filterMap (·.2.script?)).getLast?

/-- Whether the page was ever to be shown. -/
def asksRender (past : History) : Bool := past.any (·.2.asksRender)

theorem lastScript?_append (past : History) (h : Helpers) (e : Event) :
    lastScript? (past ++ [(h, e)]) = e.script?.or (lastScript? past) :=
  lastOf?_concat (fun x : Helpers × Event => x.2.script?) past (h, e)

theorem asksRender_append (past : History) (h : Helpers) (e : Event) :
    asksRender (past ++ [(h, e)]) = (asksRender past || e.asksRender) := by
  rw [asksRender, List.any_append, List.any_cons, List.any_nil, Bool.or_false]
  rfl

/-- The preview answered the last greeting, and no other preview was loaded since. -/
def Answered (setup : Setup) (history : History) : Prop :=
  ∃ before h session after, history = before ++ (h, .message ⟨setup.previewOrigin, .ready session⟩) :: after ∧
    (greeted setup before).getLast? = some session ∧ ∀ e ∈ after, e.2 ≠ .loaded

variable {setup : Setup} {past : History} {h : Helpers} {e : Event}

/-- The preview answered now, or it had answered and was not loaded again. -/
theorem answered_append :
    Answered setup (past ++ [(h, e)]) ↔ (Answered setup past ∧ e ≠ .loaded) ∨ ∃ session,
      e = .message ⟨setup.previewOrigin, .ready session⟩ ∧ (greeted setup past).getLast? = some session := by
  constructor
  · rintro ⟨before, h', session, after, heq, hlast, hafter⟩
    -- the answer is the last event, or the last event came after it
    rcases List.eq_nil_or_concat after with rfl | ⟨after, last, rfl⟩
    · obtain ⟨rfl, hnow⟩ := List.append_inj' heq rfl
      exact .inr ⟨session, congrArg Prod.snd (List.singleton_inj.1 hnow), hlast⟩
    · rw [List.concat_eq_append, ← List.cons_append, ← List.append_assoc] at heq
      obtain ⟨hpast, hnow⟩ := List.append_inj' heq rfl
      have hlater : ∀ e ∈ after, e.2 ≠ .loaded := fun e he => hafter e (by simp [he])
      refine .inl ⟨⟨before, h', session, after, hpast, hlast, hlater⟩, ?_⟩
      have he : e = last.2 := congrArg Prod.snd (List.singleton_inj.1 hnow)
      rw [he]
      exact hafter last (by simp)
  · rintro (⟨⟨before, h', session, after, rfl, hlast, hafter⟩, he⟩ | ⟨session, rfl, hlast⟩)
    · refine ⟨before, h', session, after ++ [(h, e)], by simp, hlast, fun e' he' => ?_⟩
      rcases List.mem_append.1 he' with he' | he'
      · exact hafter e' he'
      · rw [List.mem_singleton.1 he']
        exact he
    · exact ⟨past, h, session, [], rfl, hlast, nofun⟩

/-! ## Stages -/

/-- What the handshake does with a face: how far the two have met, and what was asked for. -/
structure Stage where
  editorOrigin : String
  previewOrigin : String
  postId : String
  phase : Phase
  session : Option String
  loads : Nat
  rendered : Bool
  scriptAction : Option ScriptAction

/-- The stage after an action: loading opens a session, and the awaited answer ends the greeting. -/
def Stage.step (s : Stage) : Act → Stage
  | .show .. => { s with rendered := true }
  | .script action => { s with scriptAction := some action }
  | .load =>
    { s with loads := s.loads + 1, session := some (Face.sessionName s.postId (s.loads + 1)), phase := .awaitingReady }
  | .answer session => if s.phase = .awaitingReady ∧ s.session = some session then { s with phase := .ready } else s
  | .stay | .style _ | .highlight _ | .scripts _ | .write _ => s

namespace Stage

variable (s : Stage) {a : Act}

theorem step_of_isUpdate (ha : a.isUpdate = true) : s.step a = s := by
  cases a with
  | «show» | script | load | answer => exact absurd ha nofun
  | _ => rfl

/-- Who talks to whom, and about what, stays the same. -/
theorem step_post (a : Act) :
    (s.step a).editorOrigin = s.editorOrigin ∧ (s.step a).previewOrigin = s.previewOrigin ∧
      (s.step a).postId = s.postId := by
  cases a with
  | answer session =>
    rw [step]
    split <;> exact ⟨rfl, rfl, rfl⟩
  | _ => exact ⟨rfl, rfl, rfl⟩

/-- Only loading opens a session, and nothing goes back to before the first. -/
theorem step_session (ha : a ≠ .load) :
    (s.step a).session = s.session ∧ (s.step a).loads = s.loads ∧
      ((s.step a).phase = .initializing → s.phase = .initializing) := by
  cases a with
  | load => exact absurd rfl ha
  | answer session =>
    rw [step]
    split
    · exact ⟨rfl, rfl, nofun⟩
    · exact ⟨rfl, rfl, id⟩
  | _ => exact ⟨rfl, rfl, id⟩

/-- An answer counts if it is the one that is awaited. -/
theorem phase_answer (session : String) :
    (s.step (.answer session)).phase = .ready ↔
      s.phase = .ready ∨ s.phase = .awaitingReady ∧ s.session = some session := by
  rw [step]
  split
  · rename_i hawaited
    exact ⟨fun _ => .inr hawaited, fun _ => rfl⟩
  · rename_i hawaited
    exact ⟨.inl, fun h => h.resolve_right hawaited⟩

end Stage

namespace Face

/-- The stage of a face. -/
def stage (f : Face) : Stage :=
  ⟨f.editorOrigin, f.previewOrigin, f.postId, f.phase, f.session, f.loads, f.rendered, f.scriptAction⟩

variable {f : Face} {a : Act}

theorem stage_postOr (f : Face) (m : Message) (remember : Pending → Pending) :
    (f.postOr m remember).1.stage = f.stage := by
  unfold postOr
  split <;> rfl

/-- The stage after an action is told by the stage before. -/
theorem stage_step (f : Face) (a : Act) : (f.step a).1.stage = f.stage.step a := by
  cases a with
  | «show» html css on => exact stage_postOr ..
  | scripts urls => exact stage_postOr ..
  | script action => exact stage_postOr ..
  | answer session =>
    unfold step Stage.step
    exact apply_ite (fun r : Face × List Message => r.1.stage) ..
  | _ => rfl

/-! ## Messages of an action -/

theorem greeting?_scriptMessage (f : Face) (action : ScriptAction) : greeting? (f.scriptMessage action) = none := by
  cases action <;> rfl

theorem greeting?_pendingMessages {m : Message} (h : m ∈ f.pendingMessages) : greeting? m = none := by
  rw [pendingMessages, List.mem_append, List.mem_append, List.mem_map] at h
  obtain (h | h) | ⟨action, -, rfl⟩ := h
  · rw [(List.mem_ite_nil_right.1 h).2 |> List.mem_singleton.1]
    rfl
  · rw [(List.mem_ite_nil_right.1 h).2 |> List.mem_singleton.1]
    rfl
  · exact greeting?_scriptMessage f action

theorem listens_postOr {m m' : Message} {remember : Pending → Pending} (hm : greeting? m = none)
    (h : m' ∈ (f.postOr m remember).2) : greeting? m' = none ∧ (f.postOr m remember).1.phase = .ready := by
  unfold postOr at h ⊢
  split at h
  · rename_i hready
    rw [if_pos hready, List.mem_singleton.1 h]
    exact ⟨hm, hready⟩
  · exact absurd h List.not_mem_nil

theorem listens_postIf {m m' : Message} (hm : greeting? m = none) (h : m' ∈ (f.postIf m).2) :
    greeting? m' = none ∧ f.phase = .ready := by
  obtain ⟨hready, hmem⟩ := List.mem_ite_nil_right.1 h
  rw [List.mem_singleton.1 hmem]
  exact ⟨hm, hready⟩

/-- Only loading greets, and everything else is for a preview that listens. -/
theorem listens_step (ha : a ≠ .load) {m : Message} (hm : m ∈ (f.step a).2) :
    greeting? m = none ∧ (f.step a).1.phase = .ready := by
  cases a with
  | stay => exact absurd hm List.not_mem_nil
  | «show» html css on => exact listens_postOr rfl hm
  | style css => exact listens_postIf rfl hm
  | highlight on => exact listens_postIf rfl hm
  | scripts urls => exact listens_postOr rfl hm
  | write text => exact absurd hm List.not_mem_nil
  | script action => exact listens_postOr (greeting?_scriptMessage f action) hm
  | load => exact absurd rfl ha
  | answer session =>
    unfold step at hm ⊢
    dsimp only at hm ⊢
    split at hm
    · rename_i hawaited
      rw [if_pos hawaited]
      exact ⟨greeting?_pendingMessages hm, rfl⟩
    · exact absurd hm List.not_mem_nil

theorem greetings_step (ha : a ≠ .load) : (f.step a).2.filterMap greeting? = [] :=
  List.filterMap_eq_nil_iff.2 fun _ hm => (listens_step ha hm).1

/-- When a preview begins to listen, it is sent what was pending. -/
theorem step_of_entry (hbefore : f.phase ≠ .ready) (hafter : (f.step a).1.phase = .ready) :
    f.step a = ({ f with phase := .ready, pending := .nothing }, f.pendingMessages) := by
  have hstage := congrArg Stage.phase (stage_step f a)
  rw [show (f.step a).1.stage.phase = .ready from hafter] at hstage
  -- of all actions only the awaited answer can lead to where the preview listens
  cases a with
  | answer session =>
    have hawaited := ((Stage.phase_answer f.stage session).1 hstage.symm).resolve_left hbefore
    exact if_pos hawaited
  | load => exact absurd hstage nofun
  | _ => exact absurd hstage.symm hbefore

end Face

/-! ## What is known of a history -/

theorem greeted_append (setup : Setup) (past : History) (h : Helpers) (e : Event) :
    greeted setup (past ++ [(h, e)]) = greeted setup past ++
      (((Bridge.ofSetup setup).follow past).bridge.step h e).posted.filterMap greeting? := by
  rw [greeted, follow_append, posted_andThen, List.filterMap_append]
  rfl

/-- What a stage knows of a history. -/
structure Met (setup : Setup) (past : History) (s : Stage) : Prop where
  origin : s.previewOrigin = setup.previewOrigin
  post : s.postId = setup.postId
  sessions : greeted setup past = (List.range s.loads).map fun n => Face.sessionName setup.postId (n + 1)
  session : s.session = (greeted setup past).getLast?
  initializing : s.phase = .initializing → s.session = none
  ready : s.phase = .ready ↔ Answered setup past
  rendered : s.rendered = asksRender past
  script : s.scriptAction = lastScript? past

theorem met_nil (setup : Setup) : Met setup [] (Bridge.ofSetup setup).face.stage where
  origin := rfl
  post := rfl
  sessions := rfl
  session := rfl
  initializing _ := rfl
  ready := by
    refine ⟨nofun, fun ⟨before, h, session, after, heq, _⟩ => ?_⟩
    exact absurd heq.symm (List.append_ne_nil_of_right_ne_nil _ (List.cons_ne_nil _ _))
  rendered := rfl
  script := rfl

variable {f : Face} {a : Act}

theorem rendered_step (ha : Acts f e a) : (f.stage.step a).rendered = (f.rendered || e.asksRender) := by
  cases ha with
  | load => exact (Bool.or_false _).symm
  | answer session =>
    rw [Stage.step, apply_ite Stage.rendered, ite_self]
    exact (Bool.or_false _).symm
  | «show» he html css on =>
    rw [he, Bool.or_true]
    rfl
  | script action => exact (Bool.or_false _).symm
  | other hload hanswer hrender hscript ha =>
    rw [Stage.step_of_isUpdate _ ha, hrender]
    exact (Bool.or_false _).symm

theorem scriptAction_step (ha : Acts f e a) : (f.stage.step a).scriptAction = e.script?.or f.scriptAction := by
  have hother (he : ∀ action, e ≠ .requestScript action) : f.scriptAction = e.script?.or f.scriptAction := by
    cases e with
    | requestScript action => exact absurd rfl (he action)
    | _ => rfl
  cases ha with
  | answer session =>
    rw [Stage.step, apply_ite Stage.scriptAction, ite_self]
    rfl
  | «show» he html css on =>
    refine hother ?_
    rintro action rfl
    exact absurd he nofun
  | other hload hanswer hrender hscript ha =>
    rw [Stage.step_of_isUpdate _ ha]
    exact hother hscript
  | _ => rfl

/-- A face listens as long as the preview has answered. -/
theorem phase_step (hf : Met setup past f.stage) (ha : Acts f e a) :
    (f.stage.step a).phase = .ready ↔ Answered setup (past ++ [(h, e)]) := by
  rw [answered_append, ← hf.ready, ← hf.session, ← hf.origin]
  -- an event that is neither a load nor an answer of the preview changes nothing on either side
  have hother (hload : e ≠ .loaded) (hanswer : ∀ session, e ≠ .message ⟨f.previewOrigin, .ready session⟩) :
      f.phase = .ready ↔ f.phase = .ready ∧ e ≠ .loaded ∨
        ∃ session, e = .message ⟨f.previewOrigin, .ready session⟩ ∧ f.session = some session := by
    constructor
    · intro hready
      exact .inl ⟨hready, hload⟩
    · rintro (⟨hready, -⟩ | ⟨session, he, -⟩)
      · exact hready
      · exact absurd he (hanswer session)
  cases ha with
  | load =>
    refine ⟨nofun, ?_⟩
    rintro (⟨-, hload⟩ | ⟨session, he, -⟩)
    · exact absurd rfl hload
    · exact absurd he nofun
  | answer session =>
    rw [Stage.phase_answer]
    constructor
    · rintro (hready | ⟨-, hsession⟩)
      · exact .inl ⟨hready, nofun⟩
      · exact .inr ⟨session, rfl, hsession⟩
    · rintro (⟨hready, -⟩ | ⟨session', he, hsession⟩)
      · exact .inl hready
      · -- the last session is there, so the greeting was sent, and is answered now or was before
        cases he
        cases hphase : f.stage.phase with
        | initializing => exact absurd (hf.initializing hphase ▸ hsession) nofun
        | awaitingReady => exact .inr ⟨rfl, hsession⟩
        | ready => exact .inl rfl
  | «show» he html css on =>
    refine hother ?_ ?_
    · rintro rfl
      exact absurd he nofun
    · rintro session rfl
      exact absurd he nofun
  | script action => exact hother nofun nofun
  | other hload hanswer hrender hscript ha =>
    rw [Stage.step_of_isUpdate _ ha]
    exact hother hload hanswer

/-- **Every action keeps what is known of the history.** -/
theorem met_step (hf : Met setup past f.stage) (ha : Acts f e a)
    (hgreeted : greeted setup (past ++ [(h, e)]) = greeted setup past ++ (f.step a).2.filterMap greeting?) :
    Met setup (past ++ [(h, e)]) (f.stage.step a) where
  origin := (f.stage.step_post a).2.1.trans hf.origin
  post := (f.stage.step_post a).2.2.trans hf.post
  sessions := by
    by_cases hload : a = .load
    · subst hload
      rw [hgreeted, hf.sessions, ← hf.post]
      exact ((congrArg (List.map _) List.range_succ).trans List.map_append).symm
    · rw [hgreeted, Face.greetings_step hload, List.append_nil, hf.sessions, (f.stage.step_session hload).2.1]
  session := by
    by_cases hload : a = .load
    · subst hload
      rw [hgreeted]
      exact List.getLast?_concat.symm
    · rw [hgreeted, Face.greetings_step hload, List.append_nil, ← hf.session, (f.stage.step_session hload).1]
  initializing hphase := by
    by_cases hload : a = .load
    · subst hload
      exact absurd hphase nofun
    · obtain ⟨hsession, -, hinitializing⟩ := f.stage.step_session hload
      rw [hsession]
      exact hf.initializing (hinitializing hphase)
  ready := phase_step hf ha
  rendered := by
    rw [rendered_step ha, asksRender_append, ← hf.rendered]
    rfl
  script := by
    rw [scriptAction_step ha, lastScript?_append, ← hf.script]
    rfl

/-- A session has another name than all before. -/
theorem sessionName_not_mem (postId : String) (loads : Nat) :
    Face.sessionName postId (loads + 1) ∉ (List.range loads).map fun n => Face.sessionName postId (n + 1) := by
  intro hmem
  obtain ⟨n, hn, heq⟩ := List.mem_map.1 hmem
  have hnumber : n + 1 = loads + 1 := Text.repr_inj ((String.append_right_inj (postId ++ ":")).1 heq)
  have hlt := List.mem_range.1 hn
  omega

/-- The bridge after a history knows of it, and has in order what is pending. -/
theorem met_follow (setup : Setup) (past : History) :
    Met setup past ((Bridge.ofSetup setup).follow past).bridge.face.stage ∧
      ((Bridge.ofSetup setup).follow past).bridge.face.Tidy := by
  -- by induction on the history, whose last event is one action of the face
  induction past using List.reverseRecOn with
  | nil => exact ⟨met_nil setup, nofun, fun _ => ⟨rfl, fun _ => rfl, nofun, nofun⟩⟩
  | append_singleton past e ih =>
    obtain ⟨h, e⟩ := e
    obtain ⟨hmet, htidy⟩ := ih
    obtain ⟨a, ha, hfaces⟩ := Bridge.face_step h ((Bridge.ofSetup setup).follow past).bridge e
    have hgreeted := greeted_append setup past h e
    rw [hfaces.posted] at hgreeted
    rw [bridge_follow_append, hfaces.face, Face.stage_step]
    exact ⟨met_step hmet ha hgreeted, Face.tidy_step htidy a⟩

/-! ## The handshake -/

/-- What the handshake asks of a step that a bridge takes after a history. -/
structure Handshake (setup : Setup) (past : History) (h : Helpers) (e : Event) (b : Bridge) (s : Step) : Prop where
  /-- A preview that was loaded is greeted, and with a session that never was before. -/
  greets : e = .loaded →
    ∃ session, s.posted = [.init session s.bridge.setup.previewSettings] ∧ session ∉ greeted setup past
  /-- Anything but a greeting is sent to a preview that listens. -/
  listens : ∀ m ∈ s.posted, greeting? m = none → s.bridge.phase = .ready
  /-- A preview listens if it has answered the last greeting and was not loaded again. -/
  ready : s.bridge.phase = .ready ↔ Answered setup (past ++ [(h, e)])
  /-- Nothing is pending for a preview that listens. -/
  nothing : s.bridge.phase = .ready → s.bridge.pending = .nothing
  /-- A preview that begins to listen is sent the page, as it is then, if it ever was to be shown. After it may come
  the scripts that the page uses, and then what was last asked for with the user's script. -/
  entry : b.phase ≠ .ready → s.bridge.phase = .ready → ∃ scripts script,
    s.posted = (if asksRender past then [s.bridge.renderMessage] else []) ++ scripts ++ script ∧
    (scripts = [] ∧ s.bridge.externalScripts = [] ∨ scripts = [.externalScripts s.bridge.externalScripts]) ∧
    (script = [] ∧ lastScript? past ≠ some .run ∨
      ∃ action, lastScript? past = some action ∧ script = [s.bridge.scriptMessage action])

/-- What is pending for a preview that does not listen, as messages. -/
theorem pendingMessages_of_covers {f : Face} (hf : Face.Covers f.pending f.rendered f.urls f.scriptAction) :
    ∃ scripts script,
    f.pendingMessages = (if f.rendered then [f.renderMessage] else []) ++ scripts ++ script ∧
    (scripts = [] ∧ f.urls = [] ∨ scripts = [.externalScripts f.urls]) ∧
    (script = [] ∧ f.scriptAction ≠ some .run ∨
      ∃ action, f.scriptAction = some action ∧ script = [f.scriptMessage action]) := by
  refine ⟨_, _, by rw [Face.pendingMessages, hf.render], ?_, ?_⟩
  · cases hscripts : f.pending.externalScripts with
    | false => exact .inl ⟨rfl, hf.scripts hscripts⟩
    | true => exact .inr rfl
  · cases hscript : f.pending.script with
    | none => exact .inl ⟨rfl, fun hrun => absurd (hscript.symm.trans (hf.run hrun)) nofun⟩
    | some action => exact .inr ⟨action, hf.script action hscript, rfl⟩

/-- **Nothing is delivered before the handshake.** Whatever happened before, a step of a bridge sends a page and scripts
only to a preview that answered its last greeting; no two greetings are alike, nothing is left pending once the preview
listens, and what was pending is sent with the answer, in order. -/
theorem handshake (setup : Setup) (past : History) (h : Helpers) (e : Event) :
    Handshake setup past h e ((Bridge.ofSetup setup).follow past).bridge
      (((Bridge.ofSetup setup).follow past).bridge.step h e) := by
  obtain ⟨hmet, htidy⟩ := met_follow setup past
  obtain ⟨hmet', htidy'⟩ := met_follow setup (past ++ [(h, e)])
  rw [bridge_follow_append] at hmet' htidy'
  obtain ⟨a, ha, hfaces⟩ := Bridge.face_step h ((Bridge.ofSetup setup).follow past).bridge e
  -- of the bridge no more is needed than that it knows of its history and is tidy
  generalize ((Bridge.ofSetup setup).follow past).bridge = b at *
  have hface := hfaces.face
  have hposted := hfaces.posted
  refine ⟨?_, ?_, hmet'.ready, htidy'.ready, ?_⟩
  · rintro rfl
    refine ⟨_, rfl, ?_⟩
    -- sessions are numbered, and the new one has the next number
    rw [hmet.sessions, ← hmet.post]
    exact sessionName_not_mem b.setup.postId b.loads
  · intro m hm hgreeting
    rw [hposted] at hm
    have hload : a ≠ .load := by
      rintro rfl
      rw [List.mem_singleton.1 hm] at hgreeting
      exact absurd hgreeting nofun
    exact (congrArg Face.phase hface).trans (Face.listens_step hload hm).2
  · intro hbefore hafter
    have hentry := Face.step_of_entry hbefore ((congrArg Face.phase hface).symm.trans hafter)
    rw [hentry] at hface hposted
    obtain ⟨scripts, script, hpending, hscripts, hscript⟩ := pendingMessages_of_covers (htidy.waiting hbefore)
    have hrender : (b.step h e).bridge.renderMessage = b.face.renderMessage := congrArg Face.renderMessage hface
    have hurls : (b.step h e).bridge.externalScripts = b.face.urls := congrArg Face.urls hface
    have hmessage : (b.step h e).bridge.scriptMessage = b.face.scriptMessage := congrArg Face.scriptMessage hface
    rw [hrender, hurls, hmessage, ← hmet.rendered, ← hmet.script]
    exact ⟨scripts, script, hposted.trans hpending, hscripts, hscript⟩

end LiveMarkup.Editor
