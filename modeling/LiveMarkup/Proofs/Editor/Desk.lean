/-
What a bridge turns to the author.

What the author works with is the other part of a bridge, beside the one that concerns the preview: the source and the
style sheet, what is known of them, and the element that is selected. This part is the desk of a bridge, and what is
done at it is marking places in the editor and asking for renderings. Few things happen at a desk, the turns, and each
is a step that bridges have anyway. Whatever happens to a bridge is one turn of its desk (`sameDesk_step`), so what
holds at a desk is shown turn by turn.
-/
import LiveMarkup.Editor.Bridge

set_option autoImplicit false

namespace LiveMarkup.Editor

open Source Wire

/-! ## Desks -/

/-- What of a bridge concerns the author. -/
structure Desk where
  identity : Identity.Scheme
  media : Media.Environment
  source : String
  css : String
  utilityCss : Bool
  rendered : Bool
  canonicalizer : Identity.Canonicalizer
  html : String
  replica : Option Replica
  selected : Option String
  renderings : Renderings

/-- The desk of a bridge. -/
def Bridge.desk (b : Bridge) : Desk where
  identity := b.setup.identity
  media := b.setup.media
  source := b.source
  css := b.css
  utilityCss := b.setup.utilityCss
  rendered := b.rendered
  canonicalizer := b.canonicalizer
  html := b.html
  replica := b.replica
  selected := b.selected
  renderings := b.renderings

/-- Whether an effect marks places in the editor, or removes marks. -/
def Effect.isMark : Effect → Bool
  | .highlightSource _ | .revealSource _ | .highlightRules _ | .clearHighlights => true
  | .post _ | .showStatus _ | .compile _ | .expand _ => false

/-- What a step does about marks, in order. -/
def Step.marks (s : Step) : List Effect := s.effects.filter (·.isMark)

theorem marks_andThen (s : Step) (next : Bridge → Step) :
    (s.andThen next).marks = s.marks ++ (next s.bridge).marks := List.filter_append ..

/-- What an effect asks those for who render shortcodes. -/
def Effect.asked : Effect → List RenderRequest
  | .expand requests => requests
  | _ => []

/-- What a step asks them for, in order. -/
def Step.asked (s : Step) : List RenderRequest := s.effects.flatMap (·.asked)

theorem asked_andThen (s : Step) (next : Bridge → Step) :
    (s.andThen next).asked = s.asked ++ (next s.bridge).asked := List.flatMap_append

/-- Two steps lead to the same desk, do the same about marks, and ask for the same renderings. -/
structure Step.SameDesk (s t : Step) : Prop where
  desk : s.bridge.desk = t.bridge.desk
  marks : s.marks = t.marks
  asked : s.asked = t.asked

theorem Step.SameDesk.refl (s : Step) : s.SameDesk s := ⟨rfl, rfl, rfl⟩

theorem Step.SameDesk.trans {s t u : Step} (h : s.SameDesk t) (h' : t.SameDesk u) : s.SameDesk u :=
  ⟨h.desk.trans h'.desk, h.marks.trans h'.marks, h.asked.trans h'.asked⟩

theorem sameDesk_andThen {s : Step} {next next' : Bridge → Step}
    (h : (next s.bridge).SameDesk (next' s.bridge)) : (s.andThen next).SameDesk (s.andThen next') := by
  refine ⟨h.desk, ?_, ?_⟩
  · rw [marks_andThen, marks_andThen, h.marks]
  · rw [asked_andThen, asked_andThen, h.asked]

/-- What comes after a step can be left out when it does not concern the desk. -/
theorem sameDesk_andThen_quiet {s : Step} {next : Bridge → Step}
    (h : (next s.bridge).SameDesk s.bridge.quietly) : (s.andThen next).SameDesk s := by
  refine ⟨h.desk, ?_, ?_⟩
  · rw [marks_andThen, h.marks]
    exact List.append_nil _
  · rw [asked_andThen, h.asked]
    exact List.append_nil _

/-! ## Turns -/

/-- What can happen at a desk. -/
inductive Turn where
  | stay
  /-- The source is another one, and is shown. -/
  | rewrite (source : String)
  /-- The page is shown again. -/
  | redraw
  /-- The element with a token is selected. -/
  | pick (token : String)
  /-- Nothing is selected any more. -/
  | drop
  /-- The style sheet is another one. -/
  | restyle (css : String)
  /-- Utility mode is switched. -/
  | switch (on : Bool)

namespace Bridge

/-- The turn that an event is. -/
def turnOf (b : Bridge) : Event → Turn
  | .source text _ => .rewrite text
  | .render | .shadowMode _ => .redraw
  | .message ⟨origin, .select token⟩ => if origin = b.setup.previewOrigin then .pick token else .stay
  | .select token => .pick token
  | .clearSelection => .drop
  | .css text _ => .restyle text
  | .utilityCss on _ => .switch on
  | _ => .stay

/-- Shows the page, as far as the desk goes. -/
def redraw (b : Bridge) (h : Helpers) : Step := { b with rendered := true }.refresh h

/-- Marks the rules that apply to the selected element, if the style sheet is written by hand. -/
def remark (b : Bridge) : Step :=
  if b.setup.utilityCss then b.quietly
  else
    match b.selected with
    | some token => b.highlightRules token
    | none => b.quietly

/-- What a turn does. -/
def turn (h : Helpers) (b : Bridge) : Turn → Step
  | .stay => b.quietly
  | .rewrite source =>
    { b with source, canonicalizer := b.canonicalizer.invalidate }.clearSelection.andThen fun b => b.redraw h
  | .redraw => b.redraw h
  | .pick token => b.onSelect token
  | .drop => b.clearSelection
  | .restyle css => { b with css }.remark
  | .switch on => { b with setup := { b.setup with utilityCss := on } }.quietly

/-- The selected element in the replica of the page, if it is there. -/
def selectedNode? (b : Bridge) : Option (Replica × NodeId) := do
  let token ← b.selected
  let r ← b.replica
  let node ← r.find? b.setup.identity.key token
  return (r, node)

/-- The marks of the rules that apply to the selected element. -/
def ruleMarks (b : Bridge) : List Effect :=
  match b.selectedNode? with
  | none => []
  | some (r, node) => [.highlightRules (b.ruleRanges r node)]

theorem highlightRules_of_selected {b : Bridge} {token : String} (h : b.selected = some token) :
    b.highlightRules token = ⟨b, b.ruleMarks⟩ := by
  unfold highlightRules ruleMarks selectedNode?
  rw [h, Option.bind_eq_bind, Option.bind_some]
  cases b.replica with
  | none => rfl
  | some r =>
    dsimp only
    rw [Option.bind_eq_bind, Option.bind_some]
    cases r.find? b.setup.identity.key token <;> rfl

theorem remark_eq (b : Bridge) : b.remark = ⟨b, if b.setup.utilityCss then [] else b.ruleMarks⟩ := by
  unfold remark
  split
  · rfl
  · cases hselected : b.selected with
    | none =>
      have hmarks : b.ruleMarks = [] := by
        unfold ruleMarks selectedNode?
        rw [hselected]
        rfl
      rw [hmarks]
      rfl
    | some token => exact highlightRules_of_selected hselected

theorem onSelect_of_none {b : Bridge} {token : String} (h : b.canonicalizer.cached?.bind (·.span? token) = none) :
    b.onSelect token = b.quietly := by
  unfold onSelect
  rw [h]

theorem onSelect_of_some {b : Bridge} {token : String} {span : Span}
    (h : b.canonicalizer.cached?.bind (·.span? token) = some span) :
    b.onSelect token = ⟨{ b with selected := some token },
      [.highlightSource (EditorRange.ofSpan b.source span), .revealSource (EditorRange.ofSpan b.source span)] ++
        if b.setup.utilityCss then [] else ({ b with selected := some token } : Bridge).ruleMarks⟩ := by
  unfold onSelect
  rw [h]
  dsimp only [Step.andThen]
  split
  · rfl
  · rw [highlightRules_of_selected rfl]

/-! ## Steps that do not concern the desk -/

variable (b : Bridge) (h : Helpers)

theorem sameDesk_postOr (m : Message) (remember : Pending → Pending) : (b.postOr m remember).SameDesk b.quietly := by
  unfold postOr
  split <;> exact ⟨rfl, rfl, rfl⟩

theorem sameDesk_sendCss : b.sendCss.SameDesk b.quietly := by
  unfold sendCss
  split <;> exact ⟨rfl, rfl, rfl⟩

theorem sameDesk_sendCss_andThen (next : Bridge → Step) : (b.sendCss.andThen next).SameDesk (next b) := by
  have hbridge : b.sendCss.bridge = b := by
    unfold sendCss
    split <;> rfl
  refine ⟨congrArg (fun b => (next b).bridge.desk) hbridge, ?_, ?_⟩
  · rw [marks_andThen, hbridge, (sameDesk_sendCss b).marks]
    exact List.nil_append _
  · rw [asked_andThen, hbridge, (sameDesk_sendCss b).asked]
    exact List.nil_append _

theorem sameDesk_onReady (session : String) : (b.onReady session).SameDesk b.quietly := by
  unfold onReady
  split
  · refine ⟨rfl, List.filter_eq_nil_iff.2 fun effect he => ?_, List.flatMap_eq_nil_iff.2 fun effect he => ?_⟩
    · obtain ⟨m, -, rfl⟩ := List.mem_map.1 he
      exact Bool.false_ne_true
    · obtain ⟨m, -, rfl⟩ := List.mem_map.1 he
      rfl
  · exact ⟨rfl, rfl, rfl⟩

theorem sameDesk_setHighlight (on : Bool) : (b.setHighlight on).SameDesk b.quietly := by
  unfold setHighlight
  dsimp only
  split <;> exact ⟨rfl, rfl, rfl⟩

theorem sameDesk_poll (now : Nat) : (b.poll h now).SameDesk b.quietly := by
  refine ⟨rfl, List.filter_eq_nil_iff.2 fun effect he => ?_, List.flatMap_eq_nil_iff.2 fun effect he => ?_⟩
  · obtain ⟨id, -, rfl⟩ := List.mem_map.1 he
    exact Bool.false_ne_true
  · obtain ⟨id, -, rfl⟩ := List.mem_map.1 he
    rfl

theorem sameDesk_onCompiled (id : Nat) (result : Except CompileError String) :
    (b.onCompiled id result).SameDesk b.quietly := by
  unfold onCompiled
  split
  · exact ⟨rfl, rfl, rfl⟩
  · rename_i compilation _
    have hstatus : Step.SameDesk ⟨{ b with compilation }, [.showStatus compilation.status]⟩ b.quietly := ⟨rfl, rfl, rfl⟩
    dsimp only
    split
    · exact (sameDesk_andThen_quiet (sameDesk_sendCss _)).trans hstatus
    · exact hstatus

/-! ## Steps that do -/

theorem sameDesk_sendRender : (b.sendRender h).SameDesk (b.redraw h) :=
  sameDesk_andThen_quiet (sameDesk_postOr ..)

theorem sameDesk_onSource (source : String) (now : Nat) :
    (b.onSource h source now).SameDesk (b.turn h (.rewrite source)) := by
  -- a compilation may be asked for in the end, which is no matter of the desk
  have hcompile : ∀ b : Bridge,
      Step.SameDesk (if b.setup.utilityCss then (b.requestCompile now).quietly else b.quietly) b.quietly := by
    intro b
    split <;> exact ⟨rfl, rfl, rfl⟩
  refine (sameDesk_andThen_quiet (hcompile _)).trans ?_
  unfold turn
  exact sameDesk_andThen (sameDesk_sendRender _ h)

theorem sameDesk_onCss (css : String) (now : Nat) : (b.onCss css now).SameDesk (b.turn h (.restyle css)) := by
  unfold onCss turn remark
  dsimp only
  split
  · exact ⟨rfl, rfl, rfl⟩
  · exact sameDesk_sendCss_andThen { b with css } _

theorem sameDesk_onMessage (e : Envelope) : (b.onMessage e).SameDesk (b.turn h (b.turnOf (.message e))) := by
  obtain ⟨origin, message⟩ := e
  unfold onMessage
  split
  · rename_i horigin
    obtain rfl : origin = b.setup.previewOrigin := horigin
    cases message with
    | ready session => exact sameDesk_onReady b session
    | select token =>
      rw [turnOf, if_pos rfl]
      exact .refl _
    | _ => exact .refl _
  · rename_i horigin
    have hstay : b.turnOf (.message ⟨origin, message⟩) = .stay := by
      cases message with
      | select token => exact if_neg horigin
      | _ => rfl
    rw [hstay]
    exact .refl _

/-- **Whatever happens to a bridge is a turn of its desk.** -/
theorem sameDesk_step (e : Event) : (b.step h e).SameDesk (b.turn h (b.turnOf e)) := by
  cases e with
  | message e => exact sameDesk_onMessage b h e
  | source text now => exact sameDesk_onSource b h text now
  | css text now => exact sameDesk_onCss b h text now
  | render => exact sameDesk_sendRender b h
  | shadowMode on =>
    -- the mode in which the page is shown is no matter of the desk
    exact (sameDesk_sendRender { b with setup := { b.setup with shadowMode := on } } h).trans ⟨rfl, rfl, rfl⟩
  | showCss => exact sameDesk_sendCss b
  | highlight on => exact sameDesk_setHighlight b on
  | utilityCss on now =>
    let compilation := if on then b.compilation.schedule now else b.compilation.cancel
    exact (sameDesk_sendCss { b with setup := { b.setup with utilityCss := on }, compilation }).trans ⟨rfl, rfl, rfl⟩
  | externalScripts urls =>
    have hpost := sameDesk_postOr { b with externalScripts := urls } (.externalScripts urls)
      fun p => { p with externalScripts := true }
    exact ⟨hpost.desk, hpost.marks, hpost.asked⟩
  | requestScript action =>
    have hpost := sameDesk_postOr { b with scriptAction := some action } (b.scriptMessage action)
      fun p => { p with script := some action }
    exact ⟨hpost.desk, hpost.marks, hpost.asked⟩
  | poll now => exact sameDesk_poll b h now
  | compiled id result => exact sameDesk_onCompiled b id result
  | _ => exact ⟨rfl, rfl, rfl⟩

end Bridge

end LiveMarkup.Editor
