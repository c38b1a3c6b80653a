/-
What a preview shows does not depend on how it came to show it.

Whatever is sent to a frame, apart from a script of the user's, leaves it with a page on which its markup, its style
sheet and its scripts are painted (`Drawn`, `drawn_step`), and links nothing that was taken away before
(`Tree.Later`). Main result: `same_page_of_same_content`. Two histories of one setup that end with the same content
end with the same page, and what an earlier render showed belongs to neither.
-/
import LiveMarkup.Proofs.Preview.Painting
import LiveMarkup.Proofs.Preview.Shown

set_option autoImplicit false

namespace LiveMarkup.Preview

open Tree Wire Page

/-! ## Histories -/

/-- The history of a frame: its events, each with what was around the frame then. -/
abbrev Traffic := List (Surroundings × Event)

/-- Whether a message is about the user's script. -/
def aboutScript : Message → Bool
  | .runScript _ | .disableScript => true
  | .init .. | .ready _ | .render .. | .setCss _ | .setHighlight _ | .externalScripts _ | .select _ => false

/-- An event that leaves the user's script alone. -/
def Event.KeepsScript (trusted : String) : Event → Prop
  | .message e => e.origin = trusted → aboutScript e.message = false
  | .pointerOver _ | .pointerOut | .click _ | .hoverAt _ | .clickAt _ | .refreshLayout
  | .shadowMode _ | .highlight _ => True

namespace Frame

/-- The frame after a history. -/
def after (s : Setup) (history : Traffic) : Frame :=
  history.foldl (fun f x => (f.step x.1 x.2).frame) (.ofSetup s)

/-- The scripts of the page that could be loaded. -/
def loadedUrls (f : Frame) : List String := (f.externalScripts.filter fun s => s.source.isSome).map (·.url)

/-- What is shown for the markup of a frame. -/
def content (f : Frame) : List View := f.rendered.elim [] paintedContent

/-- An event shows markup. -/
def Renders (f : Frame) : Event → Prop
  | .message e => e.origin = f.setup.editorOrigin ∧ match e.message with
    | .render .. => True
    | .setHighlight _ => f.rendered.isSome
    | _ => False
  | .shadowMode _ | .highlight _ => f.rendered.isSome
  | .pointerOver _ | .pointerOut | .click _ | .hoverAt _ | .clickAt _ | .refreshLayout => False

/-! ## One event -/

/-- A frame of a setup whose page shows what the frame remembers. -/
structure Drawn (s : Setup) (f : Frame) : Prop where
  setup : f.setup = s
  painted : ∃ root lo top, Painted s f.page f.loadedUrls f.content root lo top

variable {s : Setup} {f f' : Frame}

theorem Drawn.grown (h : Drawn s f) : f.page.tree.Grown := by
  obtain ⟨_, _, _, hpainted⟩ := h.painted
  exact hpainted.grown

/-- A frame with the same page and the same content. -/
theorem Drawn.congr (h : Drawn s f) (hsetup : f'.setup = f.setup) (hpage : f'.page = f.page)
    (hscripts : f'.externalScripts = f.externalScripts) (hrendered : f'.rendered = f.rendered) : Drawn s f' := by
  refine ⟨hsetup.trans h.setup, ?_⟩
  rw [hpage, loadedUrls, content, hscripts, hrendered]
  exact h.painted

/-- What a change of the page does to a frame: it is drawn as before, and nothing comes back. -/
def Redraws (s : Setup) (f f' : Frame) : Prop := Drawn s f' ∧ Later f.page.tree f'.page.tree

theorem Drawn.redraws (h : Drawn s f) (hsetup : f'.setup = f.setup) (hpage : f'.page = f.page)
    (hscripts : f'.externalScripts = f.externalScripts) (hrendered : f'.rendered = f.rendered) : Redraws s f f' :=
  ⟨h.congr hsetup hpage hscripts hrendered, by rw [hpage]; exact .refl _⟩

theorem redraws_render (h : Drawn s f) (w : Surroundings) (html : String) : Redraws s f (f.render w html) := by
  obtain ⟨root, lo, top, hpainted⟩ := h.painted
  obtain ⟨root', lo', top', hpainted', hlater, -⟩ := painted_render hpainted.toFramed html f.shadowMode
  exact ⟨⟨h.setup, root', lo', top', hpainted'⟩, hlater⟩

theorem redraws_rerender (h : Drawn s f) (w : Surroundings) : Redraws s f (f.rerender w) := by
  unfold rerender
  split
  · exact redraws_render h w _
  · exact ⟨h, .refl _⟩

theorem redraws_setCss (h : Drawn s f) (css : String) : Redraws s f { f with page := f.page.setCss css } := by
  obtain ⟨root, lo, top, hpainted⟩ := h.painted
  obtain ⟨hpainted', hlater⟩ := painted_setCss hpainted.toFramed css
  exact ⟨⟨h.setup, root, lo, top, hpainted'⟩, hlater⟩

theorem redraws_loadScripts (h : Drawn s f) (w : Surroundings) (urls : List String) :
    Redraws s f (f.loadScripts w urls) := by
  unfold loadScripts
  split
  · exact ⟨h, .refl _⟩
  · obtain ⟨root, lo, top, hpainted⟩ := h.painted
    obtain ⟨hpainted', hlater⟩ := painted_scripts hpainted
      (((urls.map fun url => (⟨url, w.fetch url⟩ : LoadedScript)).filter fun s => s.source.isSome).map (·.url))
    rw [List.foldl_map] at hpainted' hlater
    exact ⟨⟨h.setup, root, lo, top, hpainted'⟩, hlater⟩

theorem redraws_onRender (h : Drawn s f) (w : Surroundings) (html css : String) (shadowMode highlight : Bool) :
    Redraws s f (f.onRender w html css shadowMode highlight) := by
  have hswitched : Drawn s ({ f with shadowMode }.switchHighlight highlight) := h.congr rfl rfl rfl rfl
  obtain ⟨hstyled, hlater⟩ := redraws_setCss hswitched css
  obtain ⟨hdrawn, hlater'⟩ := redraws_render hstyled w html
  exact ⟨hdrawn, hlater.trans hlater'⟩

theorem redraws_setHighlight (h : Drawn s f) (w : Surroundings) (highlight : Bool) :
    Redraws s f (f.setHighlight w highlight) :=
  redraws_rerender (f := f.switchHighlight highlight) (h.congr rfl rfl rfl rfl) w

theorem redraws_click (h : Drawn s f) (w : Surroundings) (target : NodeId) : Redraws s f (f.click w target).frame := by
  unfold click
  split
  · exact h.redraws rfl rfl rfl rfl
  · exact ⟨h, .refl _⟩

theorem redraws_onMessage (h : Drawn s f) (w : Surroundings) {e : Envelope}
    (hkeeps : e.origin = s.editorOrigin → aboutScript e.message = false) : Redraws s f (f.onMessage w e).frame := by
  unfold onMessage
  split
  · rename_i horigin
    rw [h.setup] at horigin
    have hscript := hkeeps horigin
    cases hmessage : e.message with
    | init session settings => exact h.redraws rfl rfl rfl rfl
    | render html css shadowMode highlight => exact redraws_onRender h w html css shadowMode highlight
    | setCss css => exact redraws_setCss h css
    | setHighlight highlight => exact redraws_setHighlight h w highlight
    | externalScripts urls => exact redraws_loadScripts h w urls
    | runScript text => simp [hmessage, aboutScript] at hscript
    | disableScript => simp [hmessage, aboutScript] at hscript
    | ready session => exact ⟨h, .refl _⟩
    | select token => exact ⟨h, .refl _⟩
  · exact ⟨h, .refl _⟩

/-- **An event that leaves the user's script alone leaves the page drawn**, and brings nothing back. -/
theorem drawn_step (h : Drawn s f) (w : Surroundings) {e : Event} (hkeeps : e.KeepsScript s.editorOrigin) :
    Redraws s f (f.step w e).frame := by
  cases e with
  | message e => exact redraws_onMessage h w hkeeps
  | pointerOver target => exact h.redraws rfl rfl rfl rfl
  | pointerOut => exact h.redraws rfl rfl rfl rfl
  | click target => exact redraws_click h w target
  | hoverAt p =>
    unfold step
    dsimp only
    split <;> exact h.redraws rfl rfl rfl rfl
  | clickAt p =>
    unfold step
    dsimp only
    split
    · exact redraws_click h w _
    · exact ⟨h, .refl _⟩
  | refreshLayout => exact h.redraws rfl rfl rfl rfl
  | shadowMode on => exact redraws_rerender (f := { f with shadowMode := on }) (h.congr rfl rfl rfl rfl) w
  | highlight on => exact redraws_setHighlight h w on

/-! ## What a render takes away -/

/-- What stood under the root of the content is not attached any more. -/
def Clears (f f' : Frame) : Prop :=
  ∀ i : Nat, f.page.tree.Within f.page.contentRoot i → i < f.page.tree.size ∧ ¬ f'.page.tree.Attached i

theorem clears_render (h : Drawn s f) (w : Surroundings) (html : String) : Clears f (f.render w html) := by
  obtain ⟨root, lo, top, hpainted⟩ := h.painted
  intro i hi
  rw [contentRoot_eq hpainted.toFramed] at hi
  obtain ⟨hroot, hlt, hscript⟩ := hpainted.of_within hi
  exact ⟨hlt, not_attached_render hpainted.toFramed html f.shadowMode hroot hlt hscript⟩

/-- A new style sheet takes texts away before the markup is shown, but nothing that it adds comes before them. -/
theorem clears_onRender (h : Drawn s f) (w : Surroundings) (html css : String) (shadowMode highlight : Bool) :
    Clears f (f.onRender w html css shadowMode highlight) := by
  obtain ⟨root, lo, top, hpainted⟩ := h.painted
  obtain ⟨hstyled, hlater⟩ := painted_setCss hpainted.toFramed css
  intro i hi
  rw [contentRoot_eq hpainted.toFramed] at hi
  obtain ⟨hroot, hlt, hscript⟩ := hpainted.of_within hi
  exact ⟨hlt, not_attached_render hstyled.toFramed html shadowMode hroot (Nat.lt_of_lt_of_le hlt hlater.size_le) hscript⟩

theorem clears_rerender (h : Drawn s f) (w : Surroundings) (hrendered : f.rendered.isSome = true) :
    Clears f (f.rerender w) := by
  obtain ⟨html, hhtml⟩ := Option.isSome_iff_exists.1 hrendered
  have hrender : f.rerender w = f.render w html := by rw [rerender, hhtml]
  rw [hrender]
  exact clears_render h w html

theorem clears_setHighlight (h : Drawn s f) (w : Surroundings) (highlight : Bool)
    (hrendered : f.rendered.isSome = true) : Clears f (f.setHighlight w highlight) :=
  clears_rerender (f := f.switchHighlight highlight) (h.congr rfl rfl rfl rfl) w hrendered

/-- **An event that shows markup takes away what was shown before.** -/
theorem clears_step (h : Drawn s f) (w : Surroundings) {e : Event} (hrenders : f.Renders e) :
    Clears f (f.step w e).frame := by
  cases e with
  | message e =>
    obtain ⟨horigin, hmessage⟩ := hrenders
    have hstep : f.step w (.message e) = f.onMessage w e := rfl
    rw [hstep, onMessage, if_pos horigin]
    cases hkind : e.message <;> rw [hkind] at hmessage
    case render html css shadowMode highlight => exact clears_onRender h w html css shadowMode highlight
    case setHighlight highlight => exact clears_setHighlight h w highlight hmessage
    all_goals exact hmessage.elim
  | shadowMode on => exact clears_rerender (f := { f with shadowMode := on }) (h.congr rfl rfl rfl rfl) w hrenders
  | highlight on => exact clears_setHighlight h w on hrenders
  | _ => exact hrenders.elim

/-! ## A history -/

theorem drawn_ofSetup (s : Setup) : Drawn s (ofSetup s) := ⟨rfl, 5, 6, 6, painted_ofSetup s⟩

/-- **A history without scripts of the user's leaves the page drawn**, and brings nothing back. -/
theorem drawn_run {history : Traffic} (hkeeps : ∀ x ∈ history, x.2.KeepsScript s.editorOrigin) (h : Drawn s f) :
    Redraws s f (history.foldl (fun f x => (f.step x.1 x.2).frame) f) := by
  induction history generalizing f with
  | nil => exact ⟨h, .refl _⟩
  | cons x history ih =>
    obtain ⟨hdrawn, hlater⟩ := drawn_step h x.1 (hkeeps x List.mem_cons_self)
    obtain ⟨hrest, hlater'⟩ := ih (fun y hy => hkeeps y (List.mem_cons_of_mem _ hy)) hdrawn
    exact ⟨hrest, hlater.trans hlater'⟩

theorem drawn_after {history : Traffic} (hkeeps : ∀ x ∈ history, x.2.KeepsScript s.editorOrigin) :
    Drawn s (after s history) :=
  (drawn_run hkeeps (drawn_ofSetup s)).1

/-- What was taken away during a history is not attached at its end. -/
theorem not_attached_after {earlier later : Traffic} {x : Surroundings × Event}
    (hkeeps : ∀ y ∈ earlier ++ x :: later, y.2.KeepsScript s.editorOrigin) (hrenders : (after s earlier).Renders x.2)
    {i : Nat} (hi : (after s earlier).page.tree.Within (after s earlier).page.contentRoot i) :
    ¬ (after s (earlier ++ x :: later)).page.tree.Attached i := by
  have hbefore : Drawn s (after s earlier) := drawn_after fun y hy => hkeeps y (List.mem_append_left _ hy)
  have hx := hkeeps x (List.mem_append_right _ List.mem_cons_self)
  have hlast : ∀ y ∈ later, y.2.KeepsScript s.editorOrigin := fun y hy =>
    hkeeps y (List.mem_append_right _ (List.mem_cons_of_mem _ hy))
  obtain ⟨hdrawn, hlater⟩ := drawn_step hbefore x.1 hx
  obtain ⟨hend, hlater'⟩ := drawn_run hlast hdrawn
  obtain ⟨hlt, hgone⟩ := clears_step hbefore x.1 hrenders i hi
  rw [after, List.foldl_append, List.foldl_cons]
  exact fun hattached => hgone (attached_of_later hlater' hend.grown (Nat.lt_of_lt_of_le hlt hlater.size_le) hattached)

/-- **Two histories that end with the same content end with the same page.** The style element in use holds the style
sheet and the other one nothing, and what stood in the content before an event showed markup is not attached at the
end. -/
theorem same_page_of_same_content {history history' : Traffic}
    (hkeeps : ∀ x ∈ history, x.2.KeepsScript s.editorOrigin) (hkeeps' : ∀ x ∈ history', x.2.KeepsScript s.editorOrigin)
    (hrendered : (after s history).rendered = (after s history').rendered)
    (hcss : (after s history).page.css = (after s history').page.css)
    (hmode : (after s history).page.shadowMode = (after s history').page.shadowMode)
    (hurls : (after s history).loadedUrls = (after s history').loadedUrls) :
    (after s history).page.html = (after s history').page.html ∧ (after s history).page.Styled ∧
      ∀ (earlier later : Traffic) (x : Surroundings × Event), history = earlier ++ x :: later →
        (after s earlier).Renders x.2 → ∀ i : Nat,
          (after s earlier).page.tree.Within (after s earlier).page.contentRoot i →
            ¬ (after s history).page.tree.Attached i := by
  obtain ⟨root, lo, top, hpainted⟩ := (drawn_after hkeeps).painted
  obtain ⟨root', lo', top', hpainted'⟩ := (drawn_after hkeeps').painted
  refine ⟨?_, hpainted.styled, ?_⟩
  · have hcontent : (after s history).content = (after s history').content := by rw [content, content, hrendered]
    rw [hurls, hcontent] at hpainted
    exact html_of_painted hpainted hpainted' hcss hmode
  · rintro earlier later x rfl hrenders i hi
    exact not_attached_after hkeeps hrenders hi

theorem after_concat (s : Setup) (history : Traffic) (x : Surroundings × Event) :
    after s (history ++ [x]) = ((after s history).step x.1 x.2).frame :=
  List.foldl_concat ..

theorem setup_after (s : Setup) (history : Traffic) : (after s history).setup = s := by
  induction history using List.reverseRecOn with
  | nil => rfl
  | append_singleton history x ih =>
    rw [after_concat]
    exact (setup_step _ x.1 x.2).trans ih

/-- Content that the editor sends is what is shown, whatever was shown before. -/
theorem after_render (s : Setup) (history : Traffic) (w : Surroundings) (html css : String)
    (shadowMode highlight : Bool) :
    after s (history ++ [(w, .message ⟨s.editorOrigin, .render html css shadowMode highlight⟩)]) =
      (after s history).onRender w html css shadowMode highlight := by
  rw [after_concat]
  exact congrArg Outcome.frame (if_pos (congrArg Setup.editorOrigin (setup_after s history).symm))

/-- What the editor sends is what is shown. -/
theorem onRender_spec (f : Frame) (w : Surroundings) (html css : String) (shadowMode highlight : Bool) :
    (f.onRender w html css shadowMode highlight).rendered = some html ∧
      (f.onRender w html css shadowMode highlight).page.css = css ∧
      (f.onRender w html css shadowMode highlight).page.shadowMode = shadowMode ∧
      (f.onRender w html css shadowMode highlight).loadedUrls = f.loadedUrls :=
  ⟨rfl, css_render (f.page.setCss css) html shadowMode, shadowMode_render (f.page.setCss css) html shadowMode, rfl⟩

/-- A page that showed other content in a shadow tree first ends as one that did not. -/
theorem same_page_of_detour :
    let s : Setup := ⟨"page", "editor", "content", "style", "script"⟩
    let w : Surroundings := ⟨fun _ => none, none⟩
    let first : Surroundings × Event := (w, .message ⟨"editor", .render "<p>a</p>" "p" true true⟩)
    let last : Surroundings × Event := (w, .message ⟨"editor", .render "<p>b</p>" "q" false true⟩)
    (after s [first, last]).page.html = (after s [last]).page.html := by
  intro s w first last
  have hlong : after s [first, last] = (after s [first]).onRender w "<p>b</p>" "q" false true :=
    after_render s [first] w "<p>b</p>" "q" false true
  have hshort : after s [last] = (after s []).onRender w "<p>b</p>" "q" false true :=
    after_render s [] w "<p>b</p>" "q" false true
  have hfirst : after s [first] = (after s []).onRender w "<p>a</p>" "p" true true :=
    after_render s [] w "<p>a</p>" "p" true true
  obtain ⟨hrendered, hcss, hmode, hurls⟩ := onRender_spec (after s [first]) w "<p>b</p>" "q" false true
  obtain ⟨hrendered', hcss', hmode', hurls'⟩ := onRender_spec (after s []) w "<p>b</p>" "q" false true
  obtain ⟨-, -, -, hfirst'⟩ := onRender_spec (after s []) w "<p>a</p>" "p" true true
  rw [← hlong] at hrendered hcss hmode hurls
  rw [← hshort] at hrendered' hcss' hmode' hurls'
  rw [← hfirst] at hfirst'
  refine (same_page_of_same_content (s := s) ?_ ?_ (hrendered.trans hrendered'.symm) (hcss.trans hcss'.symm)
    (hmode.trans hmode'.symm) ((hurls.trans hfirst').trans hurls'.symm)).1
  · rintro x hx
    simp only [List.mem_cons, List.not_mem_nil, or_false] at hx
    rcases hx with rfl | rfl <;> exact fun _ => rfl
  · rintro x hx
    rw [List.mem_singleton.1 hx]
    exact fun _ => rfl

end Frame

end LiveMarkup.Preview
