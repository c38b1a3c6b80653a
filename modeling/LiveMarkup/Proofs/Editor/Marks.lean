/-
Which rules are marked.

The rules that apply to the selected element are marked in the style sheet. What is marked stays until it is marked anew
or cleared, and then it is what applies at that time (`marked_step`). So what is marked is what applied at the last such
time, and it is what applies now unless something was overlooked since: a selection for which nothing is marked, or an
edit of the style sheet in utility mode. Main result: `marked_eq_applying`.
-/
import LiveMarkup.Proofs.Editor.Selection

set_option autoImplicit false

namespace LiveMarkup.Editor

open Source

/-! ## What is marked -/

/-- The rules that are marked after an effect. -/
def Effect.remark (marked : List EditorRange) : Effect → List EditorRange
  | .highlightRules rs => rs
  | .clearHighlights => []
  | _ => marked

/-- Whether an effect marks rules, or clears the marks. -/
def Effect.marksRules : Effect → Bool
  | .highlightRules _ | .clearHighlights => true
  | _ => false

/-- The rules that are marked after effects. -/
def marked (effects : List Effect) : List EditorRange := effects.foldl Effect.remark []

/-- The places of the rules that apply to the selected element, if it is in the replica of the page. -/
def Bridge.applying (b : Bridge) : List EditorRange := b.selectedNode?.elim [] fun x => b.ruleRanges x.1 x.2

/-- The marks are brought up to date at a moment. -/
def Moment.updates (m : Moment) : Bool := m.step.effects.any (·.marksRules)

variable {s : Identity.Scheme} {renders : Bool} {b b' : Bridge} {h : Helpers}

theorem foldl_remark_marks (effects : List Effect) (rs : List EditorRange) :
    (effects.filter (·.isMark)).foldl Effect.remark rs = effects.foldl Effect.remark rs := by
  induction effects generalizing rs with
  | nil => rfl
  | cons effect effects ih =>
    cases effect with
    | highlightSource | revealSource | highlightRules | clearHighlights => exact ih _
    | _ => exact ih rs

theorem any_marksRules_marks (effects : List Effect) :
    (effects.filter (·.isMark)).any (·.marksRules) = effects.any (·.marksRules) := by
  induction effects with
  | nil => rfl
  | cons effect effects ih =>
    cases effect with
    | highlightRules | clearHighlights => rfl
    | _ => exact ih

theorem selectedNode?_congr (hidentity : b.setup.identity = b'.setup.identity) (hreplica : b.replica = b'.replica)
    (hselected : b.selected = b'.selected) : b.selectedNode? = b'.selectedNode? := by
  unfold Bridge.selectedNode?
  rw [hidentity, hreplica, hselected]

theorem applying_congr (hnode : b.selectedNode? = b'.selectedNode?) (hmedia : b.setup.media = b'.setup.media)
    (hcss : b.css = b'.css) : b.applying = b'.applying := by
  unfold Bridge.applying Bridge.ruleRanges
  rw [hnode, hmedia, hcss]

theorem applying_of_desk (hdesk : b.desk = b'.desk) : b.applying = b'.applying := by
  obtain ⟨hidentity, hmedia, -, hcss, -, -, -, -, hreplica, hselected, -⟩ := Desk.mk.inj hdesk
  exact applying_congr (selectedNode?_congr hidentity hreplica hselected) hmedia hcss

theorem selectedNode?_of_none (hselected : b.selected = none) : b.selectedNode? = none := by
  unfold Bridge.selectedNode?
  rw [hselected]
  rfl

theorem applying_of_none (hnode : b.selectedNode? = none) : b.applying = [] := by
  rw [Bridge.applying, hnode]
  rfl

/-! ## One step -/

/-- What effects mark, when they are about the rules that apply to a bridge: all of these, if anything. -/
def MarksApplying (effects : List Effect) (b : Bridge) : Prop :=
  ∀ rs, effects.foldl Effect.remark rs = if effects.any (·.marksRules) then b.applying else rs

theorem marksApplying_nil (b : Bridge) : MarksApplying [] b := fun _ => rfl

theorem marksApplying_ruleMarks (b : Bridge) : MarksApplying b.ruleMarks b := by
  intro rs
  unfold Bridge.ruleMarks Bridge.applying
  cases b.selectedNode? <;> rfl

/-- The marks are cleared when nothing is selected any more. -/
theorem marksApplying_clear (hselected : b.selected = none) : MarksApplying [.clearHighlights] b :=
  fun _ => (applying_of_none (selectedNode?_of_none hselected)).symm

/-- **Whatever marks rules at a turn marks those that apply after it.** -/
theorem marksApplying_turn (b : Bridge) (h : Helpers) (t : Turn) :
    MarksApplying (b.turn h t).marks (b.turn h t).bridge := by
  have hmarks : ∀ {b : Bridge} {effects : List Effect}, MarksApplying effects b →
      MarksApplying (Step.marks ⟨b, effects⟩) b := by
    intro b effects heffects rs
    rw [Step.marks, foldl_remark_marks, any_marksRules_marks]
    exact heffects rs
  cases t with
  | stay => exact marksApplying_nil b
  | rewrite source =>
    rw [Bridge.turn, marks_andThen, marks_redraw, List.append_nil]
    exact marksApplying_clear rfl
  | redraw =>
    rw [Bridge.turn, marks_redraw]
    exact marksApplying_nil _
  | pick token =>
    rw [Bridge.turn]
    cases hspan : b.canonicalizer.cached?.bind (·.span? token) with
    | none =>
      rw [Bridge.onSelect_of_none hspan]
      exact marksApplying_nil b
    | some span =>
      rw [Bridge.onSelect_of_some hspan]
      refine hmarks ?_
      -- the marks of the source are no marks of rules
      split
      · exact fun _ => rfl
      · exact marksApplying_ruleMarks { b with selected := some token }
  | drop => exact marksApplying_clear rfl
  | restyle css =>
    rw [Bridge.turn, Bridge.remark_eq]
    refine hmarks ?_
    split
    · exact marksApplying_nil _
    · exact marksApplying_ruleMarks _
  | switch on => exact marksApplying_nil _

theorem marksApplying_step (b : Bridge) (h : Helpers) (e : Event) :
    MarksApplying (b.step h e).effects (b.step h e).bridge := by
  obtain ⟨hdesk, hmarks⟩ := b.sameDesk_step h e
  intro rs
  rw [← foldl_remark_marks, ← any_marksRules_marks, applying_of_desk hdesk]
  change (b.step h e).marks.foldl Effect.remark rs = if (b.step h e).marks.any (·.marksRules) then _ else rs
  rw [hmarks]
  exact marksApplying_turn b h (b.turnOf e) rs

/-! ## What is overlooked -/

/-- The bridge when the marks were last brought up to date. -/
def Bridge.lastMarked (b : Bridge) (moments : List Moment) : Bridge :=
  (lastOf? (fun m => if m.updates then some m.step.bridge else none) moments).getD b

/-- What happened since the marks were last brought up to date, the latest first. -/
def sinceUpdate (moments : List Moment) : List Moment := moments.reverse.takeWhile (!·.updates)

/-- A turn that concerns the marks is overlooked: another element is selected while the style sheet is compiled, or one
that is not in the replica of the page, or the style sheet is edited while it is compiled and something is
selected. -/
def Bridge.overlooks (b : Bridge) : Turn → Bool
  | .pick token =>
    (b.canonicalizer.cached?.bind (·.span? token)).isSome &&
      (b.setup.utilityCss || ({ b with selected := some token } : Bridge).selectedNode?.isNone)
  | .restyle _ => b.setup.utilityCss && b.selected.isSome
  | _ => false

/-- What happens at a moment is overlooked. -/
def Moment.isOverlooked (m : Moment) : Bool := m.bridge.overlooks (m.bridge.turnOf m.event)

/-- Nobody who renders shortcodes comes or goes. -/
def Steady (past : History) : Prop := ∃ renders : Bool, ∀ x ∈ past, x.1.expander.isSome = renders

theorem lastMarked_append (b : Bridge) (moments : List Moment) (m : Moment) :
    b.lastMarked (moments ++ [m]) = if m.updates then m.step.bridge else b.lastMarked moments := by
  unfold Bridge.lastMarked
  rw [lastOf?_concat]
  split <;> rfl

theorem sinceUpdate_append (moments : List Moment) (m : Moment) :
    sinceUpdate (moments ++ [m]) = if m.updates then [] else m :: sinceUpdate moments := by
  unfold sinceUpdate
  rw [List.reverse_append, List.reverse_singleton, List.singleton_append, List.takeWhile_cons]
  cases m.updates <;> rfl

theorem exists_of_lastRenderer? {past : History} (hlast : lastRenderer? past = some h) : ∃ e, (h, e) ∈ past := by
  obtain ⟨⟨h', e⟩, hmem, hx⟩ := exists_of_lastOf? _ _ hlast
  obtain rfl := Option.some.inj (Option.ite_none_right_eq_some.1 hx).2
  exact ⟨e, hmem⟩

/-- To show the page once more, with nobody coming or going who renders shortcodes, shows what was shown. -/
theorem replica_redraw (hsound : Sound s b) (hcurrent : Current s h.expander.isSome b) :
    (b.redraw h).bridge.replica = b.replica := by
  have hhtml : (b.expanded h (Identity.canonicalize s b.source).html).html = b.html :=
    congrArg Expansion.html (hcurrent.html h rfl)
  have hredraw := congrArg Bridge.replica (redraw_of_sound (h := h) hsound)
  rw [hredraw, hcurrent.replica, hhtml]

theorem any_ruleMarks (b : Bridge) : b.ruleMarks.any (·.marksRules) = b.selectedNode?.isSome := by
  unfold Bridge.ruleMarks
  cases b.selectedNode? <;> rfl

/-- **What applies stays the same at a turn that marks no rules**, unless the turn is overlooked. -/
theorem applying_turn (hsound : Sound s b) (hcurrent : b.selected = none ∨ Current s h.expander.isSome b) {t : Turn}
    (hquiet : (b.turn h t).marks.any (·.marksRules) = false) (hseen : b.overlooks t = false) :
    (b.turn h t).bridge.applying = b.applying := by
  cases t with
  | stay => rfl
  | rewrite source =>
    rw [Bridge.turn, marks_andThen] at hquiet
    exact absurd hquiet.symm Bool.false_ne_true
  | redraw =>
    -- to show the page changes neither the style sheet nor the selection
    have hselected : (b.redraw h).bridge.selected = b.selected := rfl
    rw [Bridge.turn]
    rcases hcurrent with hnone | hcurrent
    · rw [hnone] at hselected
      rw [applying_of_none (selectedNode?_of_none hselected), applying_of_none (selectedNode?_of_none hnone)]
    · exact applying_congr (selectedNode?_congr rfl (replica_redraw hsound hcurrent) hselected) rfl rfl
  | pick token =>
    rw [Bridge.turn] at hquiet ⊢
    cases hspan : b.canonicalizer.cached?.bind (·.span? token) with
    | none =>
      rw [Bridge.onSelect_of_none hspan]
      rfl
    | some span =>
      rw [Bridge.overlooks, hspan, Option.isSome_some, Bool.true_and, Bool.or_eq_false_iff,
        Option.isNone_eq_false_iff] at hseen
      obtain ⟨hhand, hnode⟩ := hseen
      -- in a style sheet written by hand the rules of the element are marked
      rw [Bridge.onSelect_of_some hspan, hhand, if_neg Bool.false_ne_true, Step.marks, any_marksRules_marks,
        List.any_append, any_ruleMarks, hnode, Bool.or_true] at hquiet
      exact absurd hquiet.symm Bool.false_ne_true
  | drop => exact absurd hquiet.symm Bool.false_ne_true
  | restyle css =>
    rw [Bridge.turn, Bridge.remark_eq] at hquiet ⊢
    -- no element is selected that rules could apply to
    have hnode : b.selectedNode? = none := by
      cases hcompiled : b.setup.utilityCss with
      | true =>
        rw [Bridge.overlooks, hcompiled, Bool.true_and, Option.isSome_eq_false_iff,
          Option.isNone_iff_eq_none] at hseen
        exact selectedNode?_of_none hseen
      | false =>
        rw [hcompiled, if_neg Bool.false_ne_true, Step.marks, any_marksRules_marks, any_ruleMarks,
          Option.isSome_eq_false_iff, Option.isNone_iff_eq_none] at hquiet
        exact hquiet
    have hnode' : ({ b with css } : Bridge).selectedNode? = none := hnode
    rw [applying_of_none hnode, applying_of_none hnode']
  | switch on => rfl

/-- Before an event nothing is selected, or the page was shown as it would be now. -/
theorem known_of_steady (setup : Setup) (past : History)
    (hsteady : ∀ x ∈ past, x.1.expander.isSome = h.expander.isSome) :
    ((Bridge.ofSetup setup).follow past).bridge.selected = none ∨
      Current setup.identity h.expander.isSome ((Bridge.ofSetup setup).follow past).bridge := by
  obtain ⟨hsound, hnone, hcurrent⟩ := sound_follow setup past
  cases hrenderer : lastRenderer? past with
  | none =>
    -- a token can only be selected when something is known of the source
    refine .inl (Option.eq_none_iff_forall_ne_some.2 fun token htoken => ?_)
    obtain ⟨span, hspan⟩ := hsound.selected token htoken
    rw [Identity.Canonicalizer.cached?, hnone hrenderer] at hspan
    cases hspan
  | some h' =>
    obtain ⟨e', he'⟩ := exists_of_lastRenderer? hrenderer
    rw [← hsteady (h', e') he']
    exact .inr (hcurrent h' hrenderer)

/-- **The marks of rules are up to date unless something was overlooked.** What is marked after a history is what
applied when the marks were last brought up to date; and it is what applies in the end if nothing was overlooked since,
and nobody came or went who renders shortcodes. -/
theorem marked_eq_applying (setup : Setup) (past : History) :
    marked ((Bridge.ofSetup setup).follow past).effects =
        ((Bridge.ofSetup setup).lastMarked ((Bridge.ofSetup setup).moments past)).applying ∧
      (Steady past → (∀ m ∈ sinceUpdate ((Bridge.ofSetup setup).moments past), m.isOverlooked = false) →
        marked ((Bridge.ofSetup setup).follow past).effects =
          ((Bridge.ofSetup setup).follow past).bridge.applying) := by
  induction past using List.reverseRecOn with
  | nil => exact ⟨rfl, fun _ _ => rfl⟩
  | append_singleton past e ih =>
    obtain ⟨h, e⟩ := e
    obtain ⟨hlast, hnow⟩ := ih
    have hsound := (sound_follow setup past).1
    have hknown := known_of_steady (h := h) setup past
    rw [effects_follow_append, bridge_follow_append, moments_append, lastMarked_append, sinceUpdate_append]
    rw [marked] at hlast hnow ⊢
    generalize ((Bridge.ofSetup setup).follow past).bridge = b at *
    rw [List.foldl_append, marksApplying_step b h e]
    have hupdates : (⟨h, e, b⟩ : Moment).updates = (b.step h e).effects.any (·.marksRules) := rfl
    rw [hupdates]
    cases hmarks : (b.step h e).effects.any (·.marksRules) with
    | true => exact ⟨rfl, fun _ _ => rfl⟩
    | false =>
      refine ⟨hlast, ?_⟩
      rintro ⟨renders, hsteady⟩ hseen
      have hpast : ∀ x ∈ past, x.1.expander.isSome = renders := fun x hx => hsteady x (List.mem_append_left _ hx)
      have hh : h.expander.isSome = renders := hsteady (h, e) (List.mem_append_right _ List.mem_cons_self)
      rw [hh] at hknown
      -- nothing was marked and nothing overlooked, so what applies is as before
      obtain ⟨hdesk, hstep⟩ := b.sameDesk_step h e
      have hquiet : (b.turn h (b.turnOf e)).marks.any (·.marksRules) = false := by
        rw [← hstep, Step.marks, any_marksRules_marks]
        exact hmarks
      have hkept := applying_turn hsound (hh ▸ hknown hpast) hquiet (hseen ⟨h, e, b⟩ List.mem_cons_self)
      rw [applying_of_desk hdesk, hkept]
      exact hnow ⟨renders, hpast⟩ fun m hm => hseen m (List.mem_cons_of_mem _ hm)

/-- The style sheet is edited while an element is selected, and the page is shown once more. -/
def restyled : History :=
  alone [.source "<p>a</p>" 0, .select "v1", .css "p \x7b\x7d b \x7b\x7d" 0, .shadowMode true]

theorem marked_of_restyled :
    marked ((Bridge.ofSetup (.ofPost "post")).follow restyled).effects = [⟨⟨1, 1⟩, ⟨1, 5⟩⟩] ∧
      marked ((Bridge.ofSetup (.ofPost "post")).follow restyled).effects =
        ((Bridge.ofSetup (.ofPost "post")).follow restyled).bridge.applying :=
  ⟨by decide +kernel,
    (marked_eq_applying (.ofPost "post") restyled).2 ⟨false, by decide +kernel⟩ (by decide +kernel)⟩

/-- When an element is selected that is not in the replica of the page, as what a template holds, the marks stay those
of the element before. -/
theorem exists_marked_ne_applying : ∃ setup past, Steady past ∧
    ((Bridge.ofSetup setup).follow past).bridge.setup.utilityCss = false ∧
    ((Bridge.ofSetup setup).follow past).bridge.selected = some "v3" ∧
    marked ((Bridge.ofSetup setup).follow past).effects = [⟨⟨1, 1⟩, ⟨1, 5⟩⟩] ∧
    ((Bridge.ofSetup setup).follow past).bridge.applying = [] :=
  ⟨.ofPost "post", alone [.source "<p>a</p><template><b>x</b></template>" 0, .css "p \x7b\x7d" 0, .select "v1",
    .select "v3"], ⟨false, by decide +kernel⟩, by decide +kernel⟩

-- What was overlooked while the style sheet was compiled is not made up for when it is written by hand again.
example :
    let past := alone [.source "<p>a</p>" 0, .css "p \x7b\x7d" 0, .select "v1", .utilityCss true 0, .css "b \x7b\x7d" 0,
      .utilityCss false 0]
    marked ((Bridge.ofSetup (.ofPost "post")).follow past).effects = [⟨⟨1, 1⟩, ⟨1, 5⟩⟩] ∧
      ((Bridge.ofSetup (.ofPost "post")).follow past).bridge.applying = [] := by
  decide +kernel

end LiveMarkup.Editor
