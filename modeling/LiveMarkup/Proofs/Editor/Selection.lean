/-
The selection is never stale.

What a bridge knows of the source is what a canonicalizer keeps, the markup that is shown and the replica of it. An edit
forgets the first and the selection with it, and showing the page brings all three up to date; nothing else touches
them. So a desk is sound at all times (`Sound`), and once the page was to be shown it is also up to date (`Current`).
Each turn of the desk keeps the first (`sound_turn`), and the turns that do not show the page leave alone what the
second is about (`desk_turn`). Main result: `selection_up_to_date`.
-/
import LiveMarkup.Proofs.Editor.Desk
import LiveMarkup.Proofs.Editor.Face
import LiveMarkup.Proofs.Editor.History
import LiveMarkup.Proofs.Editor.Renderings
import LiveMarkup.Proofs.Identity.Kept
import LiveMarkup.Proofs.Source.Placement

set_option autoImplicit false

namespace LiveMarkup

open Identity

/-! ## What a canonicalizer keeps -/

namespace Identity.Canonicalizer

/-- What a canonicalizer keeps is the canonical markup of a source. -/
def Keeps (c : Canonicalizer) (source : String) : Prop :=
  ∀ x, c.last = some x → x = (source, canonicalize c.scheme source)

/-- A canonicalizer that keeps what is right gives what is right, and keeps it. -/
theorem run_of_keeps {c : Canonicalizer} {source : String} (h : c.Keeps source) :
    c.run source =
      (canonicalize c.scheme source, { c with last := some (source, canonicalize c.scheme source) }) := by
  obtain ⟨scheme, last⟩ := c
  cases last with
  | none => rfl
  | some x =>
    rw [show x = (source, canonicalize scheme source) from h x rfl]
    exact if_pos rfl

end Identity.Canonicalizer

/-! ## What a token stands for -/

namespace Source

open Html

theorem fits_whole (source : String) : (⟨0, source.utf8ByteSize⟩ : Span).fits source.toList = true := by
  refine fits_of_boundaries ⟨[], source.toList, rfl, rfl⟩ ⟨source.toList, [], ?_, ?_⟩ (Nat.zero_le _)
  · exact (List.append_nil _).symm
  · exact (Text.utf8ByteSize_eq source).symm

/-- **What a token stands for is a part of the source.** -/
theorem fits_of_span? {s : Scheme} {source token : String} {span : Span}
    (h : (canonicalize s source).span? token = some span) : span.fits source.toList = true := by
  rcases parse_cases source with ⟨e, hp, -⟩ | ⟨t, f, hp, hf, hd⟩
  · -- a source that cannot be read has no tokens
    have hnone : (canonicalize s source).span? token = none := by
      unfold canonicalize canonicalize?
      rw [hp]
      rfl
    exact absurd (hnone.symm.trans h) nofun
  · rw [Canonical.span?, (canonicalize_of_depicts hp hd).2, List.lookup_eq_some_iff] at h
    obtain ⟨before, after, hmap, -⟩ := h
    have hmem : (token, span) ∈ (nameAll s source.utf8ByteSize f).map fun n => (n.token, n.span) := by
      rw [hmap]
      exact List.mem_append_right _ List.mem_cons_self
    obtain ⟨n, hn, hspan⟩ := List.mem_map.1 hmem
    obtain rfl := congrArg Prod.snd hspan
    rcases span_of_named hn with hwhole | ⟨x, hx, l, hl, hpart⟩
    · rw [hwhole]
      exact fits_whole source
    · rw [hpart]
      exact (recorded_of_text hf hx hl).whole

end Source

namespace Editor

open Source

/-! ## Showing the page -/

/-- Those who worked for the editor when the page was last to be shown. -/
def lastRenderer? (past : History) : Option Helpers :=
  lastOf? (fun x => if x.2.asksRender then some x.1 else none) past

theorem lastRenderer?_append (past : History) (h : Helpers) (e : Event) :
    lastRenderer? (past ++ [(h, e)]) = if e.asksRender then some h else lastRenderer? past := by
  unfold lastRenderer?
  rw [lastOf?_concat]
  dsimp only
  split <;> rfl

/-- Whether a turn shows the page. -/
def Turn.asksRender : Turn → Bool
  | .rewrite _ | .redraw => true
  | _ => false

theorem asksRender_turnOf (b : Bridge) (e : Event) : (b.turnOf e).asksRender = e.asksRender := by
  cases e with
  | message envelope =>
    obtain ⟨origin, message⟩ := envelope
    cases message with
    | select token =>
      rw [Bridge.turnOf]
      split <;> rfl
    | _ => rfl
  | _ => rfl

theorem html_of_ofHtml? {html : String} {r : Replica} (h : Replica.ofHtml? html = some r) : r.html = html := by
  unfold Replica.ofHtml? at h
  split at h
  · exact absurd h nofun
  · rw [← Option.some.inj h]

namespace Bridge

/-- The replica of a bridge is that of its own markup. -/
def OwnReplica (b : Bridge) : Prop := ∀ r, b.replica = some r → Replica.ofHtml? r.html = some r

theorem replicaOf?_of_own {b : Bridge} (hb : b.OwnReplica) (html : String) :
    b.replicaOf? html = Replica.ofHtml? html := by
  unfold replicaOf?
  cases hr : b.replica with
  | none => rfl
  | some r =>
    dsimp only
    split
    · rename_i hhtml
      rw [← hhtml]
      exact (hb r hr).symm
    · rfl

/-- The markup that is shown is some canonical markup with its shortcodes rendered: to expand it once more, where
anyone renders shortcodes as when the page was shown, gives the markup again and asks for nothing. -/
def Expands (b : Bridge) (renders : Bool) (canonical : String) : Prop :=
  ∀ h : Helpers, h.expander.isSome = renders → b.expanded h canonical = ⟨b.html, b.renderings, []⟩

theorem expanded_again (b : Bridge) {h h' : Helpers} (hsome : h'.expander.isSome = h.expander.isSome)
    (canonical : String) :
    ({ b with renderings := (b.expanded h canonical).renderings } : Bridge).expanded h' canonical =
      { b.expanded h canonical with requests := [] } := by
  unfold expanded
  cases hexp : h.expander with
  | none =>
    rw [hexp, Option.isSome_none, Option.isSome_eq_false_iff, Option.isNone_iff_eq_none] at hsome
    rw [hsome]
  | some expander =>
    rw [hexp, Option.isSome_some] at hsome
    obtain ⟨expander', hexp'⟩ := Option.isSome_iff_exists.1 hsome
    rw [hexp']
    exact expandShortcodes_again ..

end Bridge

/-! ## Desks that are sound -/

/-- What is known of the source, and of the page, belongs together. -/
structure Sound (s : Scheme) (b : Bridge) : Prop where
  identity : b.setup.identity = s
  scheme : b.canonicalizer.scheme = s
  /-- The canonical markup that is kept is that of the source. -/
  keeps : b.canonicalizer.Keeps b.source
  replica : b.OwnReplica
  /-- The selected token stands for a part of the source. -/
  selected : ∀ token, b.selected = some token → ∃ span, b.canonicalizer.cached?.bind (·.span? token) = some span

/-- What is known of the source is known, and what is shown is made from it. -/
structure Current (s : Scheme) (renders : Bool) (b : Bridge) : Prop where
  last : b.canonicalizer.last = some (b.source, canonicalize s b.source)
  html : b.Expands renders (canonicalize s b.source).html
  replica : b.replica = Replica.ofHtml? b.html

variable {s : Scheme} {renders : Bool} {b b' : Bridge} {h : Helpers}

theorem Sound.of_desk (hb : Sound s b) (hdesk : b.desk = b'.desk) : Sound s b' := by
  obtain ⟨hidentity, -, hsource, -, -, -, hcanonicalizer, -, hreplica, hselected, -⟩ := Desk.mk.inj hdesk
  refine ⟨hidentity ▸ hb.identity, hcanonicalizer ▸ hb.scheme, ?_, ?_, ?_⟩
  · rw [← hcanonicalizer, ← hsource]
    exact hb.keeps
  · unfold Bridge.OwnReplica
    rw [← hreplica]
    exact hb.replica
  · rw [← hcanonicalizer, ← hselected]
    exact hb.selected

/-- The style sheet, its mode and the selection are not part of it. -/
theorem Current.of_desk (hb : Current s renders b) {css : String} {on : Bool} {selected : Option String}
    (hdesk : b'.desk = { b.desk with css, utilityCss := on, selected }) : Current s renders b' := by
  obtain ⟨-, -, hsource, -, -, -, hcanonicalizer, hhtml, hreplica, -, hrenderings⟩ := Desk.mk.inj hdesk
  refine ⟨?_, ?_, ?_⟩
  · rw [hcanonicalizer, hsource]
    exact hb.last
  · intro h hsome
    have hexpanded := hb.html h hsome
    unfold Bridge.expanded at hexpanded ⊢
    rw [hsource, hhtml, hrenderings]
    exact hexpanded
  · rw [hreplica, hhtml]
    exact hb.replica

/-! ## Turns -/

/-- The bridge after the page was shown, when the desk was sound. -/
theorem redraw_of_sound (hb : Sound s b) :
    (b.redraw h).bridge =
      { b with
        rendered := true
        canonicalizer := ⟨s, some (b.source, canonicalize s b.source)⟩
        html := (b.expanded h (canonicalize s b.source).html).html
        replica := Replica.ofHtml? (b.expanded h (canonicalize s b.source).html).html
        renderings := (b.expanded h (canonicalize s b.source).html).renderings } := by
  have hrun := Canonicalizer.run_of_keeps hb.keeps
  rw [hb.scheme] at hrun
  have hreplica := Bridge.replicaOf?_of_own hb.replica (b.expanded h (canonicalize s b.source).html).html
  unfold Bridge.redraw Bridge.refresh
  dsimp only
  rw [hrun, ← hreplica]
  rfl

/-- When the source is rewritten nothing is kept of the old one, and nothing is selected. -/
theorem Sound.rewrite (hb : Sound s b) (source : String) :
    Sound s { b with source, canonicalizer := b.canonicalizer.invalidate }.clearSelection.bridge :=
  ⟨hb.identity, hb.scheme, fun _ h => absurd h nofun, hb.replica, fun _ h => absurd h nofun⟩

/-- Showing the page keeps a desk sound, and brings it up to date. -/
theorem redraw_sound_current (hb : Sound s b) :
    Sound s (b.redraw h).bridge ∧ Current s h.expander.isSome (b.redraw h).bridge := by
  rw [redraw_of_sound hb]
  refine ⟨⟨hb.identity, rfl, ?_, ?_, ?_⟩, rfl, ?_, rfl⟩
  · rintro x hx
    exact (Option.some.inj hx).symm
  · rintro r hr
    rw [html_of_ofHtml? hr]
    exact hr
  · -- the selected token was known, so what is kept now was kept before
    intro token htoken
    obtain ⟨span, hspan⟩ := hb.selected token htoken
    refine ⟨span, ?_⟩
    obtain ⟨c, hc, hspan⟩ := Option.bind_eq_some_iff.1 hspan
    obtain ⟨x, hx, rfl⟩ := Option.map_eq_some_iff.1 hc
    rw [hb.keeps x hx, hb.scheme] at hspan
    exact hspan
  · intro h' hsome
    exact b.expanded_again hsome _

theorem sound_onSelect (hb : Sound s b) (token : String) : Sound s (b.onSelect token).bridge := by
  cases hspan : b.canonicalizer.cached?.bind (·.span? token) with
  | none =>
    rw [Bridge.onSelect_of_none hspan]
    exact hb
  | some span =>
    rw [Bridge.onSelect_of_some hspan]
    refine ⟨hb.identity, hb.scheme, hb.keeps, hb.replica, ?_⟩
    intro token' htoken
    obtain rfl := Option.some.inj htoken
    exact ⟨span, hspan⟩

/-- **Every turn keeps a desk sound**, and one that shows the page brings it up to date. -/
theorem sound_turn (hb : Sound s b) (t : Turn) :
    Sound s (b.turn h t).bridge ∧ (t.asksRender = true → Current s h.expander.isSome (b.turn h t).bridge) := by
  cases t with
  | stay => exact ⟨hb, nofun⟩
  | rewrite source =>
    obtain ⟨hsound, hcurrent⟩ := redraw_sound_current (h := h) (hb.rewrite source)
    exact ⟨hsound, fun _ => hcurrent⟩
  | redraw =>
    obtain ⟨hsound, hcurrent⟩ := redraw_sound_current (h := h) hb
    exact ⟨hsound, fun _ => hcurrent⟩
  | pick token => exact ⟨sound_onSelect hb token, nofun⟩
  | drop => exact ⟨⟨hb.identity, hb.scheme, hb.keeps, hb.replica, fun _ h => absurd h nofun⟩, nofun⟩
  | restyle css =>
    rw [Bridge.turn, Bridge.remark_eq]
    exact ⟨⟨hb.identity, hb.scheme, hb.keeps, hb.replica, hb.selected⟩, nofun⟩
  | switch on => exact ⟨⟨hb.identity, hb.scheme, hb.keeps, hb.replica, hb.selected⟩, nofun⟩

/-- **A turn that does not show the page changes nothing of what is known of the source.** -/
theorem desk_turn {t : Turn} (ht : t.asksRender = false) :
    ∃ css on selected, (b.turn h t).bridge.desk = { b.desk with css, utilityCss := on, selected } := by
  cases t with
  | stay => exact ⟨b.css, b.setup.utilityCss, b.selected, rfl⟩
  | rewrite source => exact absurd ht nofun
  | redraw => exact absurd ht nofun
  | pick token =>
    rw [Bridge.turn]
    cases hspan : b.canonicalizer.cached?.bind (·.span? token) with
    | none =>
      rw [Bridge.onSelect_of_none hspan]
      exact ⟨b.css, b.setup.utilityCss, b.selected, rfl⟩
    | some span =>
      rw [Bridge.onSelect_of_some hspan]
      exact ⟨b.css, b.setup.utilityCss, some token, rfl⟩
  | drop => exact ⟨b.css, b.setup.utilityCss, none, rfl⟩
  | restyle css =>
    rw [Bridge.turn, Bridge.remark_eq]
    exact ⟨css, b.setup.utilityCss, b.selected, rfl⟩
  | switch on => exact ⟨b.css, on, b.selected, rfl⟩

/-! ## The selection -/

/-- The place in the source that an effect marks. -/
def Effect.sourceRange? : Effect → Option EditorRange
  | .highlightSource r | .revealSource r => some r
  | _ => none

theorem marks_redraw (b : Bridge) (h : Helpers) : (b.redraw h).marks = [] := by
  unfold Bridge.redraw Bridge.refresh Step.marks
  dsimp only
  split <;> rfl

theorem sourceRange?_ruleMarks {effect : Effect} (he : effect ∈ b.ruleMarks) : effect.sourceRange? = none := by
  unfold Bridge.ruleMarks at he
  split at he
  · exact absurd he List.not_mem_nil
  · rw [List.mem_singleton.1 he]
    rfl

/-- A place in the source is marked when a token is selected that stands for it. -/
theorem sourceRange?_turn {t : Turn} {effect : Effect} (he : effect ∈ (b.turn h t).marks) {r : EditorRange}
    (hr : effect.sourceRange? = some r) :
    ∃ token span, t = .pick token ∧ b.canonicalizer.cached?.bind (·.span? token) = some span ∧
      r = EditorRange.ofSpan b.source span := by
  cases t with
  | stay => exact absurd he List.not_mem_nil
  | rewrite source =>
    rw [Bridge.turn, marks_andThen, marks_redraw, List.append_nil] at he
    rw [List.mem_singleton.1 he] at hr
    exact absurd hr nofun
  | redraw =>
    rw [Bridge.turn, marks_redraw] at he
    exact absurd he List.not_mem_nil
  | pick token =>
    rw [Bridge.turn] at he
    cases hspan : b.canonicalizer.cached?.bind (·.span? token) with
    | none =>
      rw [Bridge.onSelect_of_none hspan] at he
      exact absurd he List.not_mem_nil
    | some span =>
      rw [Bridge.onSelect_of_some hspan] at he
      refine ⟨token, span, rfl, hspan, ?_⟩
      -- both marks of the source are of what the token stands for, and the others mark rules
      rcases List.mem_append.1 (List.mem_filter.1 he).1 with hsource | hrules
      · rcases List.mem_cons.1 hsource with rfl | hsource
        · exact (Option.some.inj hr).symm
        · rw [List.mem_singleton.1 hsource] at hr
          exact (Option.some.inj hr).symm
      · split at hrules
        · exact absurd hrules List.not_mem_nil
        · rw [sourceRange?_ruleMarks hrules] at hr
          exact absurd hr nofun
  | drop =>
    rw [List.mem_singleton.1 he] at hr
    exact absurd hr nofun
  | restyle css =>
    rw [Bridge.turn, Bridge.remark_eq] at he
    have hrules := (List.mem_filter.1 he).1
    split at hrules
    · exact absurd hrules List.not_mem_nil
    · rw [sourceRange?_ruleMarks hrules] at hr
      exact absurd hr nofun
  | switch on => exact absurd he List.not_mem_nil

/-- After every history the desk is sound, nothing is known of the source before the page was to be shown, and all of
it is known afterwards. -/
theorem sound_follow (setup : Setup) (past : History) :
    Sound setup.identity ((Bridge.ofSetup setup).follow past).bridge ∧
      (lastRenderer? past = none → ((Bridge.ofSetup setup).follow past).bridge.canonicalizer.last = none) ∧
      ∀ h, lastRenderer? past = some h →
        Current setup.identity h.expander.isSome ((Bridge.ofSetup setup).follow past).bridge := by
  induction past using List.reverseRecOn with
  | nil => exact ⟨⟨rfl, rfl, nofun, nofun, nofun⟩, fun _ => rfl, nofun⟩
  | append_singleton past e ih =>
    obtain ⟨h, e⟩ := e
    obtain ⟨hsound, hnone, hcurrent⟩ := ih
    rw [bridge_follow_append, lastRenderer?_append]
    generalize ((Bridge.ofSetup setup).follow past).bridge = b at *
    have hdesk := (b.sameDesk_step h e).desk
    obtain ⟨hturn, hshown⟩ := sound_turn (h := h) hsound (b.turnOf e)
    refine ⟨hturn.of_desk hdesk.symm, ?_⟩
    rw [asksRender_turnOf] at hshown
    cases he : e.asksRender with
    | true =>
      refine ⟨nofun, fun h' hh' => ?_⟩
      obtain rfl := Option.some.inj hh'
      exact (hshown he).of_desk hdesk
    | false =>
      -- what is known stays as it was
      obtain ⟨css, on, selected, hkept⟩ := desk_turn (h := h) (b := b) ((asksRender_turnOf b e).trans he)
      rw [hkept] at hdesk
      refine ⟨fun hpast => ?_, fun h' hh' => (hcurrent h' hh').of_desk hdesk⟩
      exact (congrArg (·.canonicalizer.last) hdesk).trans (hnone hpast)

/-- What a bridge knows of the source, after a history, and what of it is selected. -/
structure UpToDate (setup : Setup) (past : History) (b : Bridge) : Prop where
  /-- What is kept is the canonical markup of the source as it is. -/
  kept : ∀ text c, b.canonicalizer.last = some (text, c) → text = b.source ∧ c = canonicalize setup.identity b.source
  /-- It is kept once the page was to be shown, and the page is its markup with shortcodes rendered: to expand it once
  more, where anyone renders shortcodes as then, gives the page again and asks for nothing. -/
  shown : ∀ h, lastRenderer? past = some h →
    b.canonicalizer.cached? = some (canonicalize setup.identity b.source) ∧
      b.Expands h.expander.isSome (canonicalize setup.identity b.source).html
  /-- The selected token is one that is kept. -/
  selected : ∀ token, b.selected = some token →
    ∃ c span, b.canonicalizer.cached? = some c ∧ c.span? token = some span

/-- What an effect marks in the source is the place of the selected element, which is a part of the source. -/
def MarksSelected (s : Scheme) (b : Bridge) (effect : Effect) : Prop :=
  ∀ r, effect.sourceRange? = some r → ∃ token span, b.selected = some token ∧
    (canonicalize s b.source).span? token = some span ∧ span.fits b.source.toList = true ∧
    r = EditorRange.ofSpan b.source span

/-- **The selection is never stale.** After every history what is kept is the canonical markup of the source, the page
is made from it, and the selected token is one of it; so whatever is marked in the source by the next event is the place
of a part of the source. -/
theorem selection_up_to_date (setup : Setup) (past : History) :
    UpToDate setup past ((Bridge.ofSetup setup).follow past).bridge ∧
      ∀ h e, ∀ effect ∈ (((Bridge.ofSetup setup).follow past).bridge.step h e).effects,
        MarksSelected setup.identity (((Bridge.ofSetup setup).follow past).bridge.step h e).bridge effect := by
  obtain ⟨hsound, -, hcurrent⟩ := sound_follow setup past
  generalize ((Bridge.ofSetup setup).follow past).bridge = b at *
  refine ⟨⟨?_, ?_, ?_⟩, ?_⟩
  · intro text c hlast
    have hkept := hsound.keeps (text, c) hlast
    rw [hsound.scheme] at hkept
    exact ⟨congrArg Prod.fst hkept, congrArg Prod.snd hkept⟩
  · intro h hh
    refine ⟨?_, (hcurrent h hh).html⟩
    rw [Canonicalizer.cached?, (hcurrent h hh).last]
    rfl
  · intro token htoken
    obtain ⟨span, hspan⟩ := hsound.selected token htoken
    obtain ⟨c, hc, hspan⟩ := Option.bind_eq_some_iff.1 hspan
    exact ⟨c, span, hc, hspan⟩
  · intro h e effect heffect r hr
    have hmark : effect ∈ (b.step h e).marks := by
      refine List.mem_filter.2 ⟨heffect, ?_⟩
      cases effect with
      | highlightSource | revealSource => rfl
      | _ => exact absurd hr nofun
    rw [(b.sameDesk_step h e).marks] at hmark
    obtain ⟨token, span, hturn, hspan, hrange⟩ := sourceRange?_turn hmark hr
    have hdesk := (b.sameDesk_step h e).desk
    rw [hturn, Bridge.turn, Bridge.onSelect_of_some hspan] at hdesk
    -- the source is as before, and the token was selected
    have hsource : (b.step h e).bridge.source = b.source := congrArg Desk.source hdesk
    have hselected : (b.step h e).bridge.selected = some token := congrArg Desk.selected hdesk
    obtain ⟨c, hc, hspan⟩ := Option.bind_eq_some_iff.1 hspan
    obtain ⟨x, hx, rfl⟩ := Option.map_eq_some_iff.1 hc
    rw [hsound.keeps x hx, hsound.scheme] at hspan
    rw [hsource]
    exact ⟨token, span, hselected, hspan, fits_of_span? hspan, hrange⟩

end Editor

end LiveMarkup
