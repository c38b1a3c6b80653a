/-
What is outlined in a preview.

An outline is given to the nearest element with a token above a node that is pointed at or clicked
(`nearestToken?_eq_some_iff`), and after a render to an element that is found again by its token. Both belong to the
content that is shown, and every event keeps it so: one that shows markup finds new elements, and the others leave the
elements of the content where they are (`lively_step`). Main result: `outlines_live`.
-/
import LiveMarkup.Proofs.Preview.History
import LiveMarkup.Proofs.Preview.Upward

set_option autoImplicit false

namespace LiveMarkup

namespace Tree

variable {t : Tree} {key token : String} {a b i j node root region : Nat}

/-! ## The nearest token -/

/-- The nearest node with a token, from a node up through the composed tree. -/
inductive Nearest (t : Tree) (key : String) : Nat → Nat → String → Prop
  /-- The node itself has a token. -/
  | here {i : Nat} {token : String} : t.attribute? i key = some token → Nearest t key i i token
  /-- The node has none, and the way up goes on. -/
  | above {i j node : Nat} {token : String} : t.attribute? i key = none → t.composedParent? i = some j →
      Nearest t key j node token → Nearest t key i node token

theorem Nearest.attribute (h : t.Nearest key i node token) : t.attribute? node key = some token := by
  induction h with
  | here hi => exact hi
  | above _ _ _ ih => exact ih

theorem Nearest.leads (h : t.Nearest key i node token) : Leads t.composedParent? i node := by
  induction h with
  | here => exact Leads.refl _ _
  | above _ hup _ ih => exact Leads.head hup ih

/-- What a search along the way up looks at: the token of a node. -/
def tokenAt? (t : Tree) (key : String) (node : NodeId) : Option (NodeId × String) :=
  (t.attribute? node key).map fun token => (node, token)

theorem tokenAt?_eq_none_iff : t.tokenAt? key i = none ↔ t.attribute? i key = none := Option.map_eq_none_iff

theorem nearest_of_findSome? {k : Nat}
    (h : (follow t.composedParent? k (some i)).findSome? (t.tokenAt? key) = some (node, token)) :
    t.Nearest key i node token := by
  induction k generalizing i with
  | zero => cases h
  | succ k ih =>
    rw [follow, List.findSome?_cons] at h
    cases hi : t.attribute? i key with
    | some value =>
      have hhere : t.tokenAt? key i = some (i, value) := by rw [tokenAt?, hi, Option.map_some]
      rw [hhere] at h
      obtain ⟨rfl, rfl⟩ := Prod.mk.inj (Option.some.inj h)
      exact .here hi
    | none =>
      rw [tokenAt?_eq_none_iff.2 hi] at h
      cases hup : t.composedParent? i with
      | none => simp [hup] at h
      | some j =>
        rw [hup] at h
        exact .above hi hup (ih h)

theorem findSome?_of_nearest (h : t.Nearest key i node token) {k : Nat}
    (hmem : node ∈ follow t.composedParent? k (some i)) :
    (follow t.composedParent? k (some i)).findSome? (t.tokenAt? key) = some (node, token) := by
  induction h generalizing k with
  | @here i token hi =>
    cases k with
    | zero => cases hmem
    | succ k => rw [follow, List.findSome?_cons, tokenAt?, hi, Option.map_some]
  | @above i j node token hi hup hnearest ih =>
    cases k with
    | zero => cases hmem
    | succ k =>
      rw [follow, hup, List.mem_cons] at hmem
      -- the node has a token and the first node of the way has none
      have hrest : node ∈ follow t.composedParent? k (some j) := by
        refine hmem.resolve_left ?_
        rintro rfl
        rw [hnearest.attribute] at hi
        cases hi
      rw [follow, hup, List.findSome?_cons, tokenAt?_eq_none_iff.2 hi]
      exact ih hrest

end Tree

namespace Preview

open Tree Wire Page

namespace Frame

variable {s : Setup} {f f' : Frame} {base : Nat} {o : Outline} {w : Surroundings} {target node : Nat} {token : String}

/-- The search for a token finds the nearest one. -/
theorem nearestToken?_eq_some_iff {root : Nat} (hgrown : f.page.tree.Grown) (h : f.page.tree.Hosted 5 root) :
    f.nearestToken? target = some (node, token) ↔
      f.page.tree.Nearest f.settings.identityAttribute target node token :=
  ⟨nearest_of_findSome?, fun hnearest =>
    findSome?_of_nearest hnearest ((mem_composedPath_iff hgrown h).2 hnearest.leads)⟩

/-! ## Where outlines come from -/

/-- What is outlined. -/
def Outlined (f : Frame) (o : Outline) : Prop := f.hover = some o ∨ f.selection = some o

theorem outlineAt?_eq_some_iff : f.outlineAt? w target = some o ↔
    f.page.contains target = true ∧ f.nearestToken? target = some (o.node, o.token) ∧ f.page.contains o.node = true ∧
      o.rect = f.rect? w o.node := by
  obtain ⟨node, token, rect⟩ := o
  unfold outlineAt?
  by_cases htarget : f.page.contains target = true
  · rw [if_pos htarget]
    cases hnearest : f.nearestToken? target with
    | none => simp
    | some found =>
      obtain ⟨node', token'⟩ := found
      by_cases hnode : f.page.contains node' = true
      · simp only [if_pos hnode, Option.some.injEq, Outline.mk.injEq, Prod.mk.injEq, htarget, true_and]
        constructor
        · rintro ⟨rfl, rfl, rfl⟩
          exact ⟨⟨rfl, rfl⟩, hnode, rfl⟩
        · rintro ⟨⟨rfl, rfl⟩, -, rfl⟩
          exact ⟨rfl, rfl, rfl⟩
      · simp only [if_neg hnode, Option.some.injEq, Prod.mk.injEq, htarget, true_and]
        refine ⟨nofun, ?_⟩
        rintro ⟨⟨rfl, rfl⟩, hcontains, -⟩
        exact absurd hcontains hnode
  · rw [if_neg htarget]
    exact ⟨nofun, fun h => absurd h.1 htarget⟩

theorem mem_sent_click {m : Message} :
    m ∈ (f.click w target).sent ↔ ∃ o, f.outlineAt? w target = some o ∧ m = .select o.token := by
  unfold click
  cases f.outlineAt? w target with
  | none => simp
  | some o => simp

/-! ## A frame with its outlines -/

/-- A frame that outlines elements of its content only. The content stands from a place on. -/
structure Lively (s : Setup) (base : Nat) (f : Frame) : Prop where
  setup : f.setup = s
  housed : ∃ root lo top, Housed s f.page f.loadedUrls f.content root lo top ∧ base ≤ lo ∧
    ∀ o, f.Outlined o → Stands f.page root lo o.node

/-- The elements that can be outlined. -/
theorem stands_of_outlineAt {root lo top : Nat} (h : Housed s f.page f.loadedUrls f.content root lo top)
    (ho : f.outlineAt? w target = some o) : Stands f.page root lo o.node := by
  obtain ⟨-, hnearest, hcontains, -⟩ := outlineAt?_eq_some_iff.1 ho
  have hvalue := ((nearestToken?_eq_some_iff h.grown h.hosted).1 hnearest).attribute
  obtain ⟨e, he, -⟩ := Option.bind_eq_some_iff.1 hvalue
  have helement : f.page.tree.isElement o.node = true := by rw [isElement, he]; rfl
  exact stands_of_below h ((contains_iff h helement).1 hcontains) hvalue

theorem stands_of_outlineOf {root lo top : Nat} (h : Housed s f.page f.loadedUrls f.content root lo top)
    (ho : f.outlineOf? w token = some o) : Stands f.page root lo o.node := by
  obtain ⟨node, hnode, rfl⟩ := Option.map_eq_some_iff.1 ho
  have hmem := List.mem_of_find?_eq_some hnode
  have hvalue := List.find?_some hnode
  rw [contentRoot_eq h.toFramed] at hmem
  exact stands_of_below h (below_of_mem_descendants h.grown.linked hmem) (eq_of_beq hvalue)

/-- A frame with the same page and content, and no outline but those that it had and new ones of elements pointed at. -/
theorem Lively.look (h : Lively s base f) (hsetup : f'.setup = f.setup) (hpage : f'.page = f.page)
    (hscripts : f'.externalScripts = f.externalScripts) (hrendered : f'.rendered = f.rendered)
    (houtlines : ∀ o, f'.Outlined o → (∃ o', f.Outlined o' ∧ o'.node = o.node) ∨
      ∃ w target, f.outlineAt? w target = some o) : Lively s base f' := by
  obtain ⟨root, lo, top, hhoused, hbase, hstands⟩ := h.housed
  refine ⟨hsetup.trans h.setup, root, lo, top, ?_, hbase, fun o ho => ?_⟩
  · rw [hpage, loadedUrls, content, hscripts, hrendered]
    exact hhoused
  · rw [hpage]
    rcases houtlines o ho with ⟨o', ho', hnode⟩ | ⟨w, target, hat⟩
    · exact hnode ▸ hstands o' ho'
    · exact stands_of_outlineAt hhoused hat

/-- A frame with the same page, content and outlines. -/
theorem Lively.congr (h : Lively s base f) (hsetup : f'.setup = f.setup) (hpage : f'.page = f.page)
    (hscripts : f'.externalScripts = f.externalScripts) (hrendered : f'.rendered = f.rendered)
    (houtlines : ∀ o, f'.Outlined o → f.Outlined o) : Lively s base f' :=
  h.look hsetup hpage hscripts hrendered fun o ho => .inl ⟨o, houtlines o ho, rfl⟩

theorem Lively.base_le (h : Lively s base f) : base ≤ f.page.tree.size := by
  obtain ⟨root, lo, top, hhoused, hbase, -⟩ := h.housed
  have hrange := hhoused.range
  omega

/-! ## One event -/

/-- Content that is shown anew is new, and so is the selected element. -/
theorem lively_render (h : Lively s base f) (w : Surroundings) (html : String) :
    Lively s f.page.tree.size (f.render w html) := by
  obtain ⟨root, lo, top, hhoused, -, -⟩ := h.housed
  obtain ⟨root', lo', top', hhoused', hlo⟩ := housed_render hhoused html f.shadowMode
  unfold render
  dsimp only
  generalize f.page.render html f.shadowMode = p at hhoused' ⊢
  refine ⟨h.setup, root', lo', top', hhoused', hlo, fun o ho => ?_⟩
  rcases ho with ho | ho
  · cases ho
  · obtain ⟨o', -, hof⟩ := Option.bind_eq_some_iff.1 ho
    exact stands_of_outlineOf (f := { f with page := p, rendered := some html, hover := none }) hhoused' hof

theorem lively_setCss (h : Lively s base f) (css : String) : Lively s base { f with page := f.page.setCss css } := by
  obtain ⟨root, lo, top, hhoused, hbase, hstands⟩ := h.housed
  obtain ⟨hhoused', hspares⟩ := housed_setCss hhoused css
  generalize f.page.setCss css = p at hhoused' hspares
  exact ⟨h.setup, root, lo, top, hhoused', hbase, fun o ho =>
    (hstands o ho).congr hhoused.toPainted (hspares.mono (fun _ hi => hi) fun _ hi => hi.2)⟩

theorem lively_loadScripts (h : Lively s base f) (w : Surroundings) (urls : List String) :
    Lively s base (f.loadScripts w urls) := by
  unfold loadScripts
  split
  · exact h
  · obtain ⟨root, lo, top, hhoused, hbase, hstands⟩ := h.housed
    obtain ⟨hhoused', hspares⟩ := housed_scripts hhoused
      (((urls.map fun url => (⟨url, w.fetch url⟩ : LoadedScript)).filter fun s => s.source.isSome).map (·.url))
    rw [List.foldl_map] at hhoused' hspares
    exact ⟨h.setup, root, lo, top, hhoused', hbase, fun o ho =>
      (hstands o ho).congr hhoused.toPainted (hspares.mono (fun _ hi => hi) fun _ hi => hi.1)⟩

theorem outlined_switchHighlight {highlight : Bool} (h : (f.switchHighlight highlight).Outlined o) : f.Outlined o := by
  rcases h with h | h
  · have hhover : (if highlight then f.hover else none) = some o := h
    cases highlight with
    | true => exact .inl hhover
    | false => cases hhover
  · exact .inr h

theorem lively_switchHighlight (h : Lively s base f) (highlight : Bool) : Lively s base (f.switchHighlight highlight) :=
  h.congr rfl rfl rfl rfl fun _ => outlined_switchHighlight

theorem lively_onRender (h : Lively s base f) (w : Surroundings) (html css : String) (shadowMode highlight : Bool) :
    ∃ base', f.page.tree.size ≤ base' ∧ Lively s base' (f.onRender w html css shadowMode highlight) := by
  have hswitched : Lively s base ({ f with shadowMode }.switchHighlight highlight) :=
    lively_switchHighlight (f := { f with shadowMode }) (h.congr rfl rfl rfl rfl fun _ ho => ho) highlight
  obtain ⟨root, lo, top, hhoused, -, -⟩ := h.housed
  exact ⟨_, (housed_setCss hhoused css).2.later.size_le, lively_render (lively_setCss hswitched css) w html⟩

/-- What an event does to a frame: its content stays, or new content takes its place if the event shows markup. -/
def Renews (s : Setup) (base : Nat) (f f' : Frame) (renders : Prop) : Prop :=
  ∃ base', base ≤ base' ∧ (renders → f.page.tree.size ≤ base') ∧ Lively s base' f'

theorem Lively.stays (h : Lively s base f') {renders : Prop} (hnot : ¬ renders) : Renews s base f f' renders :=
  ⟨base, Nat.le_refl _, fun hrenders => absurd hrenders hnot, h⟩

theorem renews_rerender (h : Lively s base f) (w : Surroundings) :
    Renews s base f (f.rerender w) (f.rendered.isSome = true) := by
  cases hrendered : f.rendered with
  | none =>
    have hsame : f.rerender w = f := by rw [rerender, hrendered]
    rw [hsame]
    exact h.stays Bool.false_ne_true
  | some html =>
    have hrender : f.rerender w = f.render w html := by rw [rerender, hrendered]
    rw [hrender]
    exact ⟨_, h.base_le, fun _ => Nat.le_refl _, lively_render h w html⟩

theorem renews_setHighlight (h : Lively s base f) (w : Surroundings) (highlight : Bool) :
    Renews s base f (f.setHighlight w highlight) (f.rendered.isSome = true) :=
  renews_rerender (lively_switchHighlight h highlight) w

theorem lively_pointerOver (h : Lively s base f) (w : Surroundings) (target : NodeId) :
    Lively s base (f.pointerOver w target) := by
  refine h.look rfl rfl rfl rfl fun o ho => ?_
  rcases ho with ho | ho
  · exact .inr ⟨w, target, (Option.filter_eq_some_iff.1 ho).1⟩
  · exact .inl ⟨o, .inr ho, rfl⟩

theorem lively_pointerOut (h : Lively s base f) : Lively s base f.pointerOut :=
  h.congr rfl rfl rfl rfl fun _ ho => ho.elim nofun .inr

theorem lively_click (h : Lively s base f) (w : Surroundings) (target : NodeId) :
    Lively s base (f.click w target).frame := by
  unfold click
  cases hat : f.outlineAt? w target with
  | none => exact h
  | some o =>
    refine h.look rfl rfl rfl rfl fun o' ho' => ?_
    rcases ho' with ho' | ho'
    · exact .inl ⟨o', .inl ho', rfl⟩
    · obtain rfl := Option.some.inj ho'
      exact .inr ⟨w, target, hat⟩

theorem lively_refreshLayout (h : Lively s base f) (w : Surroundings) : Lively s base (f.refreshLayout w) := by
  refine h.look rfl rfl rfl rfl fun o ho => .inl ?_
  rcases ho with ho | ho
  · obtain ⟨o', ho', rfl⟩ := Option.map_eq_some_iff.1 ho
    exact ⟨o', .inl ho', rfl⟩
  · obtain ⟨o', ho', rfl⟩ := Option.map_eq_some_iff.1 ho
    exact ⟨o', .inr ho', rfl⟩

theorem renews_onMessage (h : Lively s base f) (w : Surroundings) {e : Envelope}
    (hkeeps : e.origin = s.editorOrigin → aboutScript e.message = false) :
    Renews s base f (f.onMessage w e).frame (f.Renders (.message e)) := by
  unfold onMessage
  split
  · rename_i horigin
    have hscript := hkeeps (horigin.trans (by rw [h.setup]))
    cases hmessage : e.message with
    | render html css shadowMode highlight =>
      obtain ⟨base', hbase, hlively⟩ := lively_onRender h w html css shadowMode highlight
      exact ⟨base', Nat.le_trans h.base_le hbase, fun _ => hbase, hlively⟩
    | setHighlight highlight =>
      obtain ⟨base', hbase, hnew, hlively⟩ := renews_setHighlight h w highlight
      refine ⟨base', hbase, fun hrenders => hnew ?_, hlively⟩
      simpa [Renders, hmessage, horigin] using hrenders
    | init session settings =>
      have hgreeted : Lively s base (f.onInit session settings).frame := h.congr rfl rfl rfl rfl fun _ ho => ho
      exact hgreeted.stays (by simp [Renders, hmessage])
    | setCss css => exact (lively_setCss h css).stays (by simp [Renders, hmessage])
    | externalScripts urls => exact (lively_loadScripts h w urls).stays (by simp [Renders, hmessage])
    | runScript text => simp [hmessage, aboutScript] at hscript
    | disableScript => simp [hmessage, aboutScript] at hscript
    | ready session => exact h.stays (by simp [Renders, hmessage])
    | select token => exact h.stays (by simp [Renders, hmessage])
  · rename_i horigin
    exact h.stays fun hrenders => horigin hrenders.1

/-- **An event that leaves the user's script alone leaves elements of the content outlined only**: of the same content,
or of new content if it shows markup. -/
theorem lively_step (h : Lively s base f) (w : Surroundings) {e : Event} (hkeeps : e.KeepsScript s.editorOrigin) :
    Renews s base f (f.step w e).frame (f.Renders e) := by
  cases e with
  | message e => exact renews_onMessage h w hkeeps
  | pointerOver target => exact (lively_pointerOver h w target).stays id
  | pointerOut => exact (lively_pointerOut h).stays id
  | click target => exact (lively_click h w target).stays id
  | hoverAt p =>
    unfold step
    dsimp only
    split
    · exact (lively_pointerOver h w _).stays id
    · exact (lively_pointerOut h).stays id
  | clickAt p =>
    unfold step
    dsimp only
    split
    · exact (lively_click h w _).stays id
    · exact h.stays id
  | refreshLayout => exact (lively_refreshLayout h w).stays id
  | shadowMode on =>
    exact renews_rerender (f := { f with shadowMode := on }) (h.congr rfl rfl rfl rfl fun _ ho => ho) w
  | highlight on => exact renews_setHighlight h w on

/-! ## A history -/

/-- The node was made after the last event of a history that showed markup began. -/
def New (s : Setup) (history : Traffic) (node : Nat) : Prop :=
  ∀ (earlier later : Traffic) (x : Surroundings × Event), history = earlier ++ x :: later →
    (after s earlier).Renders x.2 → (after s earlier).page.tree.size ≤ node

theorem new_concat {history : Traffic} {x : Surroundings × Event} (h : New s history node)
    (hx : (after s history).Renders x.2 → (after s history).page.tree.size ≤ node) : New s (history ++ [x]) node := by
  intro earlier later y hsplit hrenders
  rcases List.eq_nil_or_concat later with rfl | ⟨later, z, rfl⟩
  · obtain ⟨rfl, hxy⟩ := List.append_inj' hsplit rfl
    obtain rfl := (List.cons.inj hxy).1
    exact hx hrenders
  · rw [List.concat_eq_append, ← List.cons_append, ← List.append_assoc] at hsplit
    obtain ⟨rfl, -⟩ := List.append_inj' hsplit rfl
    exact h earlier later y rfl hrenders

theorem lively_after {history : Traffic} (hkeeps : ∀ x ∈ history, x.2.KeepsScript s.editorOrigin) :
    ∃ base, Lively s base (after s history) ∧ ∀ node, base ≤ node → New s history node := by
  induction history using List.reverseRecOn with
  | nil =>
    refine ⟨0, ⟨rfl, 5, 6, 6, housed_ofSetup s, Nat.zero_le _, fun o ho => ?_⟩, fun node _ earlier later x hsplit => ?_⟩
    · rcases ho with ho | ho <;> cases ho
    · exact absurd hsplit.symm (by simp)
  | append_singleton history x ih =>
    obtain ⟨base, hlively, hnew⟩ := ih fun y hy => hkeeps y (List.mem_append_left _ hy)
    obtain ⟨base', hbase, hrenders, hlively'⟩ :=
      lively_step hlively x.1 (hkeeps x (List.mem_append_right _ (List.mem_singleton_self x)))
    rw [after_concat]
    exact ⟨base', hlively', fun node hnode => new_concat (hnew node (Nat.le_trans hbase hnode)) fun hx =>
      Nat.le_trans (hrenders hx) hnode⟩

/-- A live element of the content: the way up from it comes to the region, and no earlier render made it. -/
structure Live (s : Setup) (history : Traffic) (node : Nat) : Prop where
  contained : (after s history).page.contains node = true
  element : (after s history).page.tree.isElement node = true
  new : New s history node

/-- **What is outlined is live content.** After any history without scripts of the user's, the elements that are
outlined are elements of the content that is shown. A click sends the token of the nearest node above its target that
has one, when the target and that node belong to the content; the node is such an element then. -/
theorem outlines_live {history : Traffic} (hkeeps : ∀ x ∈ history, x.2.KeepsScript s.editorOrigin) :
    (∀ o, (after s history).hover = some o ∨ (after s history).selection = some o → Live s history o.node) ∧
      ∀ (w : Surroundings) (target : NodeId) (m : Message), m ∈ ((after s history).click w target).sent ↔
        ∃ node token, m = .select token ∧ (after s history).page.contains target = true ∧
          (after s history).page.tree.Nearest (after s history).settings.identityAttribute target node token ∧
          Live s history node := by
  obtain ⟨base, hlively, hnew⟩ := lively_after hkeeps
  obtain ⟨root, lo, top, hhoused, hbase, hstands⟩ := hlively.housed
  have hlive : ∀ {node : Nat}, Stands (after s history).page root lo node → Live s history node := fun hnode =>
    ⟨contains_of_stands hhoused hnode, hnode.element, hnew _ (Nat.le_trans hbase hnode.new)⟩
  refine ⟨fun o ho => hlive (hstands o ho), fun w target m => ?_⟩
  rw [mem_sent_click]
  constructor
  · rintro ⟨o, hat, rfl⟩
    obtain ⟨htarget, hnearest, -, -⟩ := outlineAt?_eq_some_iff.1 hat
    exact ⟨o.node, o.token, rfl, htarget, (nearestToken?_eq_some_iff hhoused.grown hhoused.hosted).1 hnearest,
      hlive (stands_of_outlineAt hhoused hat)⟩
  · rintro ⟨node, token, rfl, htarget, hnearest, hnode⟩
    refine ⟨⟨node, token, (after s history).rect? w node⟩, outlineAt?_eq_some_iff.2 ⟨htarget, ?_, hnode.contained, rfl⟩, rfl⟩
    exact (nearestToken?_eq_some_iff hhoused.grown hhoused.hosted).2 hnearest

/-- A paragraph that was selected is found again in the shadow tree that its markup is shown in next. -/
theorem live_of_shadow_mode :
    let s : Setup := ⟨"page", "editor", "content", "style", "script"⟩
    let w : Surroundings := ⟨fun _ => none, none⟩
    let history : Traffic := [(w, .message ⟨"editor", .render "<p data-vellum-id=\"v1\">a</p>" "" false true⟩),
      (w, .click 7), (w, .shadowMode true)]
    (after s history).selection.map (·.node) = some 10 ∧ Live s history 10 := by
  intro s w history
  have hselected : (after s history).selection.map (·.node) = some 10 := by decide +kernel
  have hkeeps : ∀ x ∈ history, x.2.KeepsScript s.editorOrigin := by
    intro x hx
    simp only [history, List.mem_cons, List.not_mem_nil, or_false] at hx
    rcases hx with rfl | rfl | rfl
    · exact fun _ => rfl
    · trivial
    · trivial
  obtain ⟨o, ho, hnode⟩ := Option.map_eq_some_iff.1 hselected
  exact ⟨hselected, hnode ▸ (outlines_live hkeeps).1 o (.inr ho)⟩

end Frame

end Preview

end LiveMarkup
