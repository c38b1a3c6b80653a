/-
Every shortcode is asked for once, and its rendering put in its place.

What is known of shortcodes is what was asked for so far, under numbers that were given out one after the other
(`Ledger`). Expanding a page asks for what is not known only and enters it (`ledger_expanded`), and nothing else that
happens to a bridge asks for anything (`asked_turn`). A page that is shown is the expanded canonical markup of the source
(`exactly_of_sound`). Main result: `shortcodes_rendered`.
-/
import LiveMarkup.Proofs.Editor.Expanding
import LiveMarkup.Proofs.Editor.Selection

set_option autoImplicit false

namespace LiveMarkup.Editor

open Identity Source

variable {asked : List RenderRequest} {r : Renderings} {b : Bridge} {h : Helpers} {e : Event} {s : Scheme} {x : Expander}

/-! ## What was asked for -/

/-- What is known is what was asked for, each under its number. -/
structure Ledger (asked : List RenderRequest) (r : Renderings) : Prop where
  fragments : asked.map (·.fragment) = r.known.map (·.1)
  nodup : (asked.map (·.fragment)).Nodup
  ids : asked.map (·.id) = (List.range' 1 r.lastNumber).map fun number => "shortcode-" ++ toString number

/-- No two requests have the same name. -/
theorem Ledger.nodup_ids (hl : Ledger asked r) : (asked.map (·.id)).Nodup := by
  rw [hl.ids]
  exact List.Nodup.map (fun m n hmn => Text.repr_inj (String.append_right_inj _ |>.1 hmn)) List.nodup_range'

theorem ids_requests (r : Renderings) (fragments : List String) :
    (r.requests fragments).map (·.id) =
      (List.range' (r.lastNumber + 1) (r.requests fragments).length).map fun number => "shortcode-" ++ toString number := by
  rw [Renderings.requests, List.map_map, List.length_map, List.length_zipIdx, ← List.zipIdx_map_snd, List.map_map]
  rfl

/-- **What is asked for next is new**, and is entered with its answers. -/
theorem Ledger.learn (hl : Ledger asked r) (fragments : List String) (answers : List (String × String)) :
    Ledger (asked ++ r.requests fragments) (r.learn (r.requests fragments) answers) := by
  refine ⟨?_, ?_, ?_⟩
  · rw [List.map_append, hl.fragments, Renderings.learn, List.map_append, List.map_map]
    rfl
  · rw [List.map_append]
    refine hl.nodup.append (r.nodup_requests fragments) fun fragment hold hnew => ?_
    have hunknown := List.lookup_eq_none_iff.1 ((r.mem_requests_iff fragments).1 hnew).1
    rw [hl.fragments] at hold
    obtain ⟨entry, hentry, rfl⟩ := List.mem_map.1 hold
    exact absurd (hunknown entry hentry) (by simp)
  · rw [List.map_append, hl.ids, ids_requests, Renderings.learn, ← List.map_append, Nat.add_comm r.lastNumber 1,
      List.range'_append_1]

/-- Whatever a page is expanded for, what was asked for is entered. -/
theorem ledger_expandShortcodes (hl : Ledger asked r) (x : Expander) (source html : String) :
    Ledger (asked ++ (expandShortcodes x r source html).requests) (expandShortcodes x r source html).renderings := by
  by_cases hsome : ∃ t, Html.parse html = .ok t ∧ placed t source ≠ []
  · obtain ⟨t, hp, hsome⟩ := hsome
    rw [expandShortcodes_of_placed x r hp hsome]
    dsimp only
    split
    · rename_i hempty
      rw [List.isEmpty_iff.1 hempty, List.append_nil]
      exact hl
    · exact hl.learn _ _
  · rw [expandShortcodes_of_nil x r fun t hp => by_contra fun hne => hsome ⟨t, hp, hne⟩, List.append_nil]
    exact hl

theorem ledger_expanded (hl : Ledger asked b.renderings) (h : Helpers) (canonical : String) :
    Ledger (asked ++ (b.expanded h canonical).requests) (b.expanded h canonical).renderings := by
  unfold Bridge.expanded
  cases h.expander with
  | none => exact (List.append_nil asked).symm ▸ hl
  | some x => exact ledger_expandShortcodes hl x b.source canonical

/-! ## Who asks -/

theorem asked_redraw (b : Bridge) (h : Helpers) :
    (b.redraw h).asked = (b.expanded h (b.canonicalizer.run b.source).1.html).requests := by
  unfold Bridge.redraw Bridge.refresh Step.asked
  dsimp only
  change List.flatMap _ (if (b.expanded h (b.canonicalizer.run b.source).1.html).requests.isEmpty then [] else _) = _
  split
  · rename_i hempty
    rw [List.isEmpty_iff.1 hempty]
    rfl
  · exact List.append_nil _

theorem asked_ruleMarks (b : Bridge) : b.ruleMarks.flatMap (·.asked) = [] := by
  unfold Bridge.ruleMarks
  split <;> rfl

/-- **Only showing the page asks for renderings.** -/
theorem asked_turn {t : Turn} (ht : t.asksRender = false) : (b.turn h t).asked = [] := by
  have hrules (b : Bridge) : (if b.setup.utilityCss then [] else b.ruleMarks).flatMap (·.asked) = [] := by
    split
    · rfl
    · exact asked_ruleMarks b
  cases t with
  | stay => rfl
  | rewrite source => cases ht
  | redraw => cases ht
  | pick token =>
    rw [Bridge.turn]
    cases hspan : b.canonicalizer.cached?.bind (·.span? token) with
    | none =>
      rw [Bridge.onSelect_of_none hspan]
      rfl
    | some span =>
      rw [Bridge.onSelect_of_some hspan, Step.asked, List.flatMap_append]
      exact hrules { b with selected := some token }
  | drop => rfl
  | restyle css =>
    rw [Bridge.turn, Bridge.remark_eq]
    exact hrules { b with css }
  | switch on => rfl

/-- What is asked for when the page is shown is entered. -/
theorem ledger_redraw (hl : Ledger asked b.renderings) (h : Helpers) :
    Ledger (asked ++ (b.redraw h).asked) (b.redraw h).bridge.renderings := by
  rw [asked_redraw]
  exact ledger_expanded hl h _

/-- **Whatever happens, what was asked for is entered.** -/
theorem ledger_step (hl : Ledger asked b.renderings) (h : Helpers) (e : Event) :
    Ledger (asked ++ (b.step h e).asked) (b.step h e).bridge.renderings := by
  obtain ⟨hdesk, -, hasked⟩ := b.sameDesk_step h e
  have hrenderings : (b.step h e).bridge.renderings = (b.turn h (b.turnOf e)).bridge.renderings :=
    congrArg Desk.renderings hdesk
  rw [hasked, hrenderings]
  cases ht : (b.turnOf e).asksRender with
  | true =>
    generalize b.turnOf e = t at ht
    cases t with
    | rewrite source =>
      exact ledger_redraw (b := { b with source, canonicalizer := b.canonicalizer.invalidate }.clearSelection.bridge) hl h
    | redraw => exact ledger_redraw hl h
    | _ => cases ht
  | false =>
    obtain ⟨css, on, selected, hkept⟩ := desk_turn (h := h) (b := b) ht
    have hsame : (b.turn h (b.turnOf e)).bridge.renderings = b.renderings := congrArg Desk.renderings hkept
    rw [asked_turn ht, List.append_nil, hsame]
    exact hl

theorem ledger_follow (setup : Setup) (history : History) :
    Ledger ((Bridge.ofSetup setup).follow history).asked ((Bridge.ofSetup setup).follow history).bridge.renderings := by
  induction history using List.reverseRecOn with
  | nil => exact ⟨rfl, .nil, rfl⟩
  | append_singleton past e ih =>
    obtain ⟨h, e⟩ := e
    rw [follow_append, asked_andThen]
    exact ledger_step ih h e

/-! ## What is shown -/

theorem exactly_of_redraw (hb : Sound s b) (hx : h.expander = some x) :
    ExpandedExactly x b.renderings b.source (canonicalize s b.source).html
      ⟨(b.redraw h).bridge.html, (b.redraw h).bridge.renderings, (b.redraw h).asked⟩ := by
  have hrun := Canonicalizer.run_of_keeps hb.keeps
  rw [hb.scheme] at hrun
  have hexpanded (canonical : String) : b.expanded h canonical = expandShortcodes x b.renderings b.source canonical := by
    rw [Bridge.expanded, hx]
  rw [asked_redraw, hrun, redraw_of_sound hb, hexpanded]
  exact expanded_exactly ..

/-- **The page that is shown is the expanded canonical markup of the source.** -/
theorem exactly_of_sound (hb : Sound s b) (he : e.asksRender = true) (hx : h.expander = some x) :
    ExpandedExactly x b.renderings (b.step h e).bridge.source (canonicalize s (b.step h e).bridge.source).html
      ⟨(b.step h e).bridge.html, (b.step h e).bridge.renderings, (b.step h e).asked⟩ := by
  obtain ⟨hdesk, -, hasked⟩ := b.sameDesk_step h e
  rw [hasked, show (b.step h e).bridge.source = _ from congrArg Desk.source hdesk,
    show (b.step h e).bridge.html = _ from congrArg Desk.html hdesk,
    show (b.step h e).bridge.renderings = _ from congrArg Desk.renderings hdesk]
  rw [← asksRender_turnOf b] at he
  generalize b.turnOf e = t at he
  cases t with
  | rewrite source => exact exactly_of_redraw (hb.rewrite source) hx
  | redraw => exact exactly_of_redraw hb hx
  | _ => cases he

/-- **Each shortcode is asked for once, and substitution is exact.** Over every history, with any helpers at each time,
no two requests for renderings have the same name or are for the same shortcode. Whenever the page is shown and someone
renders shortcodes, it is the canonical markup of the source in which every affected text is replaced, in place and in
order, by what stands outside of its shortcodes and by the renderings that are known of these; all else stays as it is. -/
theorem shortcodes_rendered (setup : Setup) (history : History) :
    (((Bridge.ofSetup setup).follow history).asked.map (·.id)).Nodup ∧
      (((Bridge.ofSetup setup).follow history).asked.map (·.fragment)).Nodup ∧
      ∀ m ∈ (Bridge.ofSetup setup).moments history, m.event.asksRender = true → ∀ x, m.helpers.expander = some x →
        ExpandedExactly x m.bridge.renderings m.step.bridge.source
          (canonicalize setup.identity m.step.bridge.source).html
          ⟨m.step.bridge.html, m.step.bridge.renderings, m.step.asked⟩ := by
  have hledger := ledger_follow setup history
  refine ⟨hledger.nodup_ids, hledger.nodup, ?_⟩
  clear hledger
  induction history using List.reverseRecOn with
  | nil => exact fun m hm => absurd hm List.not_mem_nil
  | append_singleton past e ih =>
    obtain ⟨h, e⟩ := e
    intro m hm
    rw [moments_append] at hm
    rcases List.mem_append.1 hm with hm | hm
    · exact ih m hm
    · rw [List.mem_singleton.1 hm]
      intro he x hx
      exact exactly_of_sound (sound_follow setup past).1 he hx

/-- Someone who renders every shortcode as itself, emphasized. -/
def emphasizing : Expander := fun requests => requests.map fun q => (q.id, "<i>" ++ q.fragment ++ "</i>")

/-- A page with a shortcode in two texts is shown twice. -/
def shownTwice : History :=
  [(⟨false, some emphasizing⟩, .source "<p>a [b] c</p>[b]" 0), (⟨false, some emphasizing⟩, .render)]

/-- A shortcode in two texts of a page that is shown twice is asked for once, and both texts are replaced each time. -/
theorem shortcodes_rendered_of_two_texts :
    ((Bridge.ofSetup (.ofPost "7")).follow shownTwice).asked = [⟨"shortcode-1", "[b]"⟩] ∧
      (((Bridge.ofSetup (.ofPost "7")).follow shownTwice).asked.map (·.fragment)).Nodup ∧
      ∀ m ∈ (Bridge.ofSetup (.ofPost "7")).moments shownTwice, ∃ t v f,
        Rewritten t "<p>a [b] c</p>[b]" ⟨m.step.bridge.html, m.step.bridge.renderings, m.step.asked⟩ v f := by
  obtain ⟨-, hfragments, hexactly⟩ := shortcodes_rendered (.ofPost "7") shownTwice
  refine ⟨by decide +kernel, hfragments, fun m hm => ?_⟩
  have hmoment : m.event.asksRender = true ∧ m.helpers.expander = some emphasizing ∧
      m.step.bridge.source = "<p>a [b] c</p>[b]" := by
    rcases List.mem_cons.1 hm with rfl | hm
    · exact ⟨rfl, rfl, rfl⟩
    · obtain rfl := List.mem_singleton.1 hm
      exact ⟨rfl, rfl, rfl⟩
  have hplaced : ((Html.parse (canonicalize .default "<p>a [b] c</p>[b]").html).toOption.map fun t =>
      (placed t "<p>a [b] c</p>[b]").length) = some 2 := by decide +kernel
  obtain ⟨hrender, hx, hsource⟩ := hmoment
  have hexact := hexactly m hm hrender emphasizing hx
  rw [hsource] at hexact
  cases hp : Html.parse (canonicalize .default "<p>a [b] c</p>[b]").html with
  | error e =>
    rw [hp] at hplaced
    cases hplaced
  | ok t =>
    rw [hp] at hplaced
    have hlength : (placed t "<p>a [b] c</p>[b]").length = 2 := Option.some.inj hplaced
    obtain ⟨p, hmem⟩ := List.exists_mem_of_length_pos (hlength ▸ Nat.two_pos)
    obtain ⟨text, haffects, -⟩ := mem_placed_iff.1 hmem
    obtain ⟨-, v, f, hrewritten⟩ := hexact.affected t hp ⟨p.node, text, haffects⟩
    exact ⟨t, v, f, hrewritten⟩

end LiveMarkup.Editor
