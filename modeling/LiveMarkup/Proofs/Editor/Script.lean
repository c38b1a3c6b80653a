/-
Which text of the script is run.

A request to run the script is carried out at once if the preview listens, else when it begins to, and once more for
every page that is loaded afterwards. What is sent each time is the script as it is then (`runScript_of_step`), and
that is what was written last (`script_follow`). So the text that is run is that of the request unless the script was
edited since, and then it is the edited one. Main result: `script_of_run`.
-/
import LiveMarkup.Proofs.Editor.Backstage
import LiveMarkup.Proofs.Editor.Handshake

set_option autoImplicit false

namespace LiveMarkup.Editor

open Wire

/-! ## What is written -/

/-- The text that an event gives the script. -/
def Event.written? : Event → Option String
  | .script text => some text
  | _ => none

/-- The text that the script was given last. -/
def lastWritten? (past : History) : Option String := lastOf? (·.2.written?) past

theorem script_after (s : Backstage) (h : Helpers) (e : Event) : (s.after h e).script = e.written?.getD s.script := by
  have hedited : ∀ now, (s.edited now).script = s.script := by
    intro now
    unfold Backstage.edited
    split <;> rfl
  cases e with
  | source text now => exact hedited now
  | css text now => exact hedited now
  | _ => rfl

/-- The script is what was written last. -/
theorem script_follow (b : Bridge) (past : History) :
    (b.follow past).bridge.script = (lastWritten? past).getD b.script := by
  induction past using List.reverseRecOn with
  | nil => rfl
  | append_singleton past e ih =>
    obtain ⟨h, e⟩ := e
    have hstep := congrArg Backstage.script ((b.follow past).bridge.works_step h e).backstage
    rw [script_after] at hstep
    rw [bridge_follow_append, lastWritten?, lastOf?_concat, Option.getD_or, ← lastWritten?, ← ih]
    exact hstep

/-! ## What is run -/

namespace Face

variable {f : Face}

theorem runScript_of_postOr {m : Message} {remember : Pending → Pending} {text : String}
    (h : .runScript text ∈ (f.postOr m remember).2) : m = .runScript text := by
  unfold postOr at h
  split at h
  · exact (List.mem_singleton.1 h).symm
  · exact absurd h List.not_mem_nil

theorem runScript_of_postIf {m : Message} {text : String} (h : .runScript text ∈ (f.postIf m).2) :
    m = .runScript text := (List.mem_singleton.1 (List.mem_ite_nil_right.1 h).2).symm

theorem runScript_of_pendingMessages {text : String} (h : .runScript text ∈ f.pendingMessages) :
    text = f.script ∧ f.pending.script = some .run := by
  rw [pendingMessages, List.mem_append, List.mem_append, List.mem_map] at h
  obtain (h | h) | ⟨action, haction, htext⟩ := h
  · cases List.mem_singleton.1 (List.mem_ite_nil_right.1 h).2
  · cases List.mem_singleton.1 (List.mem_ite_nil_right.1 h).2
  · cases action with
    | run => exact ⟨(Message.runScript.inj htext).symm, Option.mem_toList.1 haction⟩
    | disable => cases htext

/-- **The script is run as it is**, when that is asked for or when it is pending and the preview begins to listen. -/
theorem runScript_of_step {a : Act} {text : String} (h : .runScript text ∈ (f.step a).2) :
    text = f.script ∧ (a = .script .run ∨ ∃ session, a = .answer session ∧ f.phase ≠ .ready ∧
      f.pending.script = some .run) := by
  cases a with
  | stay => exact absurd h List.not_mem_nil
  | «show» html css on => exact absurd (runScript_of_postOr h) nofun
  | style css => exact absurd (runScript_of_postIf h) nofun
  | highlight on => exact absurd (runScript_of_postIf h) nofun
  | scripts urls => exact absurd (runScript_of_postOr h) nofun
  | write text => exact absurd h List.not_mem_nil
  | script action =>
    have hmessage := runScript_of_postOr h
    cases action with
    | run => exact ⟨(Message.runScript.inj hmessage).symm, .inl rfl⟩
    | disable => exact absurd hmessage nofun
  | load => exact absurd (List.mem_singleton.1 h) nofun
  | answer session =>
    unfold step at h
    dsimp only at h
    split at h
    · rename_i hawaited
      obtain ⟨htext, hpending⟩ := runScript_of_pendingMessages h
      refine ⟨htext, .inr ⟨session, rfl, ?_, hpending⟩⟩
      rw [hawaited.1]
      exact nofun
    · exact absurd h List.not_mem_nil

end Face

/-! ## The last request -/

/-- What was last asked for was asked for at some time, and nothing afterwards. -/
theorem exists_of_lastScript? {past : History} {action : ScriptAction} (hlast : lastScript? past = some action) :
    ∃ before h after, past = before ++ (h, .requestScript action) :: after ∧ lastScript? after = none := by
  obtain ⟨before, ⟨h, e⟩, after, hsplit, hscript, hafter⟩ := split_of_lastOf? _ _ hlast
  cases e with
  | requestScript action' =>
    obtain rfl := Option.some.inj hscript
    exact ⟨before, h, after, hsplit, hafter⟩
  | _ => exact absurd hscript nofun

/-- The last request of a history is one to run the script, and a text is what the script was given since, or, if it was
not edited, what it was at the request. So it is the text of the request just if no other one was written since. -/
def RunsLast (setup : Setup) (history : History) (text : String) : Prop :=
  ∃ before h after, history = before ++ (h, .requestScript .run) :: after ∧ lastScript? after = none ∧
    text = (lastWritten? after).getD ((Bridge.ofSetup setup).follow before).bridge.script ∧
    (text = ((Bridge.ofSetup setup).follow before).bridge.script ↔
      ∀ edited, lastWritten? after = some edited → edited = ((Bridge.ofSetup setup).follow before).bridge.script)

/-- **What is run is what the last request asked for, as it was edited since.** -/
theorem script_of_run (setup : Setup) (past : History) (h : Helpers) (e : Event) (text : String)
    (hrun : .runScript text ∈ (((Bridge.ofSetup setup).follow past).bridge.step h e).posted) :
    RunsLast setup (past ++ [(h, e)]) text := by
  obtain ⟨hmet, htidy⟩ := met_follow setup past
  obtain ⟨a, ha, hfaces⟩ := Bridge.face_step h ((Bridge.ofSetup setup).follow past).bridge e
  rw [hfaces.posted] at hrun
  obtain ⟨htext, hasked⟩ := Face.runScript_of_step hrun
  -- at this event or before, it was last asked to run the script, and this event does not edit it
  have hlast : lastScript? (past ++ [(h, e)]) = some .run ∧ lastWritten? [(h, e)] = none := by
    rw [lastScript?_append]
    rcases hasked with rfl | ⟨session, rfl, hphase, hpending⟩
    · cases ha with
      | script => exact ⟨rfl, rfl⟩
      | other _ _ _ _ hupdate => exact absurd hupdate nofun
    · have hscript := (htidy.waiting hphase).script .run hpending
      cases ha with
      | answer => exact ⟨hmet.script.symm.trans hscript, rfl⟩
      | other _ _ _ _ hupdate => exact absurd hupdate nofun
  obtain ⟨before, h', after, hsplit, hafter⟩ := exists_of_lastScript? hlast.1
  have hwritten : lastWritten? past = (lastWritten? after).or (lastWritten? before) := by
    have hpast : lastWritten? (past ++ [(h, e)]) = _ := lastOf?_append _ past [(h, e)]
    rw [show lastOf? _ [(h, e)] = none from hlast.2, Option.none_or, hsplit] at hpast
    exact hpast.symm.trans (lastOf?_append _ before _)
  have hedited : text = (lastWritten? after).getD ((Bridge.ofSetup setup).follow before).bridge.script := by
    rw [htext, script_follow, ← Option.getD_or, ← hwritten]
    exact script_follow (Bridge.ofSetup setup) past
  refine ⟨before, h', after, hsplit, hafter, hedited, ?_⟩
  rw [hedited]
  cases lastWritten? after with
  | none => exact ⟨nofun, fun _ => rfl⟩
  | some edited =>
    rw [Option.getD_some]
    exact ⟨fun heq edited' h => Option.some.inj h ▸ heq, fun hall => hall edited rfl⟩

/-- A page is loaded again after the script was run. -/
def reloaded : History :=
  alone [.script "a()", .loaded, .message ⟨"https://preview.example", .ready "post:1"⟩, .requestScript .run, .loaded]

theorem script_of_reloaded :
    RunsLast (.ofPost "post") (reloaded ++ alone [.message ⟨"https://preview.example", .ready "post:2"⟩]) "a()" :=
  script_of_run (.ofPost "post") reloaded _ _ "a()" (by decide +kernel)

/-- A page that is loaded again runs a text that nobody asked to run: the script was edited since the request. -/
theorem exists_script_ne_requested : ∃ (setup : Setup) (before after : History) (h : Helpers) (e : Event),
    lastScript? (after ++ [(h, e)]) = none ∧
    ((Bridge.ofSetup setup).follow before).bridge.script = "a()" ∧
    .runScript "b()" ∈ (((Bridge.ofSetup setup).follow
      (before ++ (h, .requestScript .run) :: after)).bridge.step h e).posted :=
  ⟨.ofPost "post", alone [.script "a()", .loaded, .message ⟨"https://preview.example", .ready "post:1"⟩],
    alone [.script "b()", .loaded], ⟨false, none⟩, .message ⟨"https://preview.example", .ready "post:2"⟩,
    by decide +kernel⟩

end LiveMarkup.Editor
