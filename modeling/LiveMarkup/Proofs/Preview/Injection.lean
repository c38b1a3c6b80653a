/-
When the user's script replaces more than itself.

The element of the user's script is looked for by its id, from the body on. The content comes first there, and it may
hold an element with that id: then this element is taken out instead (`not_injected`). Where the content has none, the
script is put behind the region, or taken out there, and nothing under the region changes (`injected`). Main result:
`script_injected_iff`.
-/
import LiveMarkup.Proofs.Preview.History
import LiveMarkup.Proofs.Preview.Seating

set_option autoImplicit false

namespace LiveMarkup.Preview

open Tree Wire

/-- What a message asks of the user's script: that one with a text is there, or that none is. -/
def scriptAsked : Message → Option (Option String)
  | .runScript text => some (some text)
  | .disableScript => some none
  | .init .. | .ready _ | .render .. | .setCss _ | .setHighlight _ | .externalScripts _ | .select _ => none

/-- What an event asks of the user's script, when only one origin is listened to. -/
def Event.script? (trusted : String) : Event → Option (Option String)
  | .message e => if e.origin = trusted then scriptAsked e.message else none
  | .pointerOver _ | .pointerOut | .click _ | .hoverAt _ | .clickAt _ | .refreshLayout
  | .shadowMode _ | .highlight _ => none

namespace Page

variable {s : Setup} {p : Page} {script : Option Nat} {asked : Option String} {text : String} {i : Nat}

/-- The page with the user's script that is asked for. -/
def withUserScript (p : Page) : Option String → Page
  | some text => p.insertUserScript text
  | none => p.removeUserScript

/-- The body holds the region, and behind it the user's script that is asked for: a script element with its text. -/
def BodyHolds (p : Page) : Option String → Prop
  | some text => ∃ script node, p.tree.children p.body = [p.region, script] ∧
      p.tree.kind? script = some (userScriptKind p.scriptId) ∧ p.tree.children script = [node] ∧
      p.tree.Leaf node (.text text)
  | none => p.tree.children p.body = [p.region]

/-- The region, or an element under it that is not in a shadow tree, has the id of the user's script. -/
def ScriptIdInContent (p : Page) : Prop :=
  ∃ i ∈ p.region :: p.tree.descendants p.region, (p.tree.element? i).bind Element.id? = some p.scriptId

/-! ## The search for the script -/

/-- What the search for the user's script asks of a node. -/
def hasScriptId (p : Page) (i : NodeId) : Bool := (p.tree.element? i).bind Element.id? == some p.scriptId

theorem hasScriptId_of_script (h : Seated s p script) (hi : script = some i) : p.hasScriptId i = true := by
  have hname : Text.eqIgnoreCase "id" "id" = true := beq_self_eq_true "id".toLower
  have hid : ((Element.ofName "script").setAttribute "id" s.scriptId).id? = some s.scriptId := by
    simp [Element.id?, Element.attribute?, Element.setAttribute, Element.setIn, Element.ofName, hname]
  rw [hasScriptId, element?_of_kind (h.scriptNode i hi).1, h.fields.2.2.2.2, Option.bind_some, hid]
  exact beq_self_eq_true (some s.scriptId)

/-- The search comes to the region and the content before it comes to the script. -/
theorem userScript?_eq (h : Seated s p script) :
    p.userScript? = ((5 :: p.tree.descendants 5).find? p.hasScriptId).or script := by
  have hlt := h.region_lt
  have hfind : p.userScript? = (p.tree.descendants 3).find? p.hasScriptId := by
    rw [userScript?, h.fields.2.1]
    rfl
  rw [hfind, descendants_eq h.grown (by omega), h.inBody, List.flatMap_cons, List.find?_append]
  cases hscript : script with
  | none => rw [Option.toList_none, List.flatMap_nil, List.find?_nil]
  | some i =>
    rw [Option.toList_some, List.flatMap_cons, List.cons_append, List.find?_cons_of_pos (hasScriptId_of_script h hscript)]

theorem userScript?_of_not (h : Seated s p script) (hno : ¬ p.ScriptIdInContent) : p.userScript? = script := by
  have hnone : (5 :: p.tree.descendants 5).find? p.hasScriptId = none := by
    refine List.find?_eq_none.2 fun i hi hid => hno ⟨i, ?_, eq_of_beq hid⟩
    rwa [h.fields.2.2.2.1]
  rw [userScript?_eq h, hnone, Option.none_or]

theorem userScript?_of_content (h : Seated s p script) (hin : p.ScriptIdInContent) :
    ∃ i, p.userScript? = some i ∧ (i = 5 ∨ p.tree.Below 5 i) := by
  obtain ⟨i, hi, hid⟩ := hin
  rw [h.fields.2.2.2.1] at hi
  have hsome : ((5 :: p.tree.descendants 5).find? p.hasScriptId).isSome = true :=
    List.find?_isSome.2 ⟨i, hi, beq_iff_eq.2 hid⟩
  obtain ⟨hit, hhit⟩ := Option.isSome_iff_exists.1 hsome
  refine ⟨hit, by rw [userScript?_eq h, hhit, Option.some_or], ?_⟩
  rcases List.mem_cons.1 (List.mem_of_find?_eq_some hhit) with hfive | hmem
  · exact .inl hfive
  · exact .inr (below_of_mem_descendants h.grown.linked hmem)

/-! ## Taking the script out and putting it in -/

theorem removeUserScript_of_some (h : p.userScript? = some i) :
    p.removeUserScript = { p with tree := p.tree.detach i } := by
  rw [removeUserScript, h]

theorem removeUserScript_of_none (h : p.userScript? = none) : p.removeUserScript = p := by
  rw [removeUserScript, h]

theorem insertUserScript_eq (p : Page) (text : String) : p.insertUserScript text = { p.removeUserScript with
    tree := p.removeUserScript.tree.withText p.removeUserScript.body (userScriptKind p.removeUserScript.scriptId) text } :=
  rfl

/-- **Where no content has its id, the script is taken out**, and nothing under the region changes. -/
theorem seated_removeUserScript (h : Seated s p script) (hno : ¬ p.ScriptIdInContent) :
    Seated s p.removeUserScript none ∧ SameUnder p.tree p.removeUserScript.tree 5 := by
  have hfound := userScript?_of_not h hno
  cases hscript : script with
  | none =>
    rw [hscript] at hfound h
    rw [removeUserScript_of_none hfound]
    exact ⟨h, sameUnder_refl _ 5⟩
  | some i =>
    rw [hscript] at hfound
    obtain ⟨hkind, hholder⟩ := h.scriptNode i hscript
    have hlist : p.tree.children 3 = [5, i] := by rw [h.inBody, hscript]; rfl
    have hne := h.script_ne hscript
    have hparent : p.tree.parent? i = some 3 := (h.grown.linked.parent_iff 3 i).2 (by rw [hlist]; simp)
    have hlater := later_detach h.grown i
    have hkept (a : Nat) (ha : a ≠ 3) : (p.tree.detach i).children a = p.tree.children a := by
      refine (children_detach h.grown.linked i a).trans (h.grown.linked.filter_of_not_child ?_)
      rw [hparent]
      exact fun heq => ha (Option.some.inj heq).symm
    obtain ⟨e, hregion⟩ := h.regionNode
    rw [removeUserScript_of_some hfound]
    refine ⟨⟨h.fields, grown_detach h.grown i, ?_, ?_, ⟨e, (kind?_detach p.tree i 5).trans hregion⟩, nofun,
      fun _ hin => h.style_lt hlater.size_le hin⟩, sameUnder_detach h.grown hlist hholder⟩
    · exact (hkept 2 (by decide)).trans h.inHead
    · refine (children_detach h.grown.linked i 3).trans ?_
      rw [hlist, List.filter_cons_of_pos (by simpa using Ne.symm hne), List.filter_cons_of_neg (by simp)]
      rfl

/-- **A script is put behind the region of a page without one**, and nothing under the region changes. -/
theorem seated_withText (h : Seated s p none) (text : String) :
    Seated s { p with tree := p.tree.withText p.body (userScriptKind p.scriptId) text } (some p.tree.size) ∧
      SameUnder p.tree (p.tree.withText p.body (userScriptKind p.scriptId) text) 5 ∧
      BodyHolds { p with tree := p.tree.withText p.body (userScriptKind p.scriptId) text } (some text) := by
  have hlt := h.region_lt
  obtain ⟨hhead, hbody, hstyle, hregionId, hid⟩ := h.fields
  have hbodylt : 3 < p.tree.size := by omega
  have hcopied : copiedKind (userScriptKind s.scriptId) = userScriptKind s.scriptId := rfl
  have hfills := fills_withText h.grown hbodylt hcopied text
  obtain ⟨hkind, hchildren, hleaf⟩ := leaf_withText hbodylt hcopied text
  have hlist : (p.tree.withText 3 (userScriptKind s.scriptId) text).children 3 = [5, p.tree.size] := by
    rw [children_withText hbodylt hcopied, if_pos rfl, h.inBody]
    rfl
  obtain ⟨e, hregion⟩ := h.regionNode
  rw [hbody, hid]
  refine ⟨⟨⟨hhead, rfl, hstyle, hregionId, rfl⟩, hfills.grown, ?_, hlist, ⟨e, (hfills.kind 5 hlt).trans hregion⟩, ?_,
      fun _ hin => h.style_lt hfills.size_le hin⟩,
    sameUnder_withText h.grown h.inBody hcopied text, p.tree.size, p.tree.size + 1, ?_, hkind, hchildren, hleaf⟩
  · exact (hfills.children 2 (by omega) (by decide)).trans h.inHead
  · rintro i ⟨⟩
    refine ⟨hkind, fun a ha => ?_⟩
    -- the script is new, so a node that was there before holds it only if it got a child
    by_contra hne
    have hplace := (hfills.grown.later a _ ha).1
    rw [held_congr (hfills.kind a hplace) (hfills.children a hplace hne)] at ha
    exact Nat.lt_irrefl _ (h.grown.later a _ ha).2
  · rw [hregionId]
    exact hlist

/-- **Where no content has its id, the script is replaced**, and nothing under the region changes. -/
theorem injected (h : Seated s p script) (hno : ¬ p.ScriptIdInContent) (asked : Option String) :
    (∃ script', Seated s (p.withUserScript asked) script') ∧ SameUnder p.tree (p.withUserScript asked).tree p.region ∧
      (p.withUserScript asked).BodyHolds asked := by
  obtain ⟨hremoved, hsame⟩ := seated_removeUserScript h hno
  rw [h.fields.2.2.2.1]
  cases asked with
  | none =>
    refine ⟨⟨none, hremoved⟩, hsame, ?_⟩
    change p.removeUserScript.tree.children p.removeUserScript.body = [p.removeUserScript.region]
    rw [hremoved.fields.2.1, hremoved.fields.2.2.2.1]
    exact hremoved.inBody
  | some text =>
    obtain ⟨hseated, hsame', hbody⟩ := seated_withText hremoved text
    rw [withUserScript, insertUserScript_eq]
    exact ⟨⟨_, hseated⟩, hsame.trans hsame', hbody⟩

theorem mem_of_bodyHolds (h : p.BodyHolds asked) : p.region ∈ p.tree.children p.body := by
  cases asked with
  | none =>
    rw [BodyHolds] at h
    rw [h]
    exact List.mem_singleton_self _
  | some text =>
    obtain ⟨script, node, hlist, -⟩ := h
    rw [hlist]
    exact List.mem_cons_self

theorem body_withUserScript (p : Page) (asked : Option String) :
    (p.withUserScript asked).body = p.body ∧ (p.withUserScript asked).region = p.region := by
  have hremoved : p.removeUserScript.body = p.body ∧ p.removeUserScript.region = p.region := by
    unfold removeUserScript
    split <;> exact ⟨rfl, rfl⟩
  cases asked with
  | none => exact hremoved
  | some text => exact hremoved

theorem linked_withUserScript (h : p.tree.Linked) (asked : Option String) : (p.withUserScript asked).tree.Linked := by
  have hremoved : p.removeUserScript.tree.Linked := by
    unfold removeUserScript
    split
    · exact linked_detach h _
    · exact h
  cases asked with
  | none => exact hremoved
  | some text =>
    exact linked_insertBefore (linked_insertBefore (linked_alloc (linked_alloc hremoved _) _) _ _ _) _ _ _

/-- The node that the search finds loses its parent, and the others keep the one that they have. -/
theorem parent?_withUserScript (h : Seated s p script) (hfound : p.userScript? = some i) (asked : Option String) {j : Nat}
    (hj : j < p.tree.size) : (p.withUserScript asked).tree.parent? j = if j = i then none else p.tree.parent? j := by
  have hdetach := parent?_detach p.tree i j
  have hbody : 3 < (p.tree.detach i).size := by
    have hlt := h.region_lt
    rw [size_detach]
    omega
  cases asked with
  | none =>
    rw [withUserScript, removeUserScript_of_some hfound]
    exact hdetach
  | some text =>
    rw [withUserScript, insertUserScript_eq, removeUserScript_of_some hfound]
    refine Eq.trans ?_ hdetach
    dsimp only
    rw [h.fields.2.1]
    exact parent?_withText hbody rfl text (by rwa [size_detach])

/-- **Where the content has the id of the script, the wrong node is taken out**: the region, or a node under it. -/
theorem not_injected (h : Seated s p script) (hin : p.ScriptIdInContent) (asked : Option String) :
    ¬ (SameUnder p.tree (p.withUserScript asked).tree p.region ∧ (p.withUserScript asked).BodyHolds asked) := by
  rintro ⟨hsame, hholds⟩
  have hregion : p.region = 5 := h.fields.2.2.2.1
  obtain ⟨i, hfound, hi⟩ := userScript?_of_content h hin
  rcases hi with rfl | hbelow
  · -- the region lost its parent, but the body should hold it
    have hnone := parent?_withUserScript h hfound asked h.region_lt
    have hmem := mem_of_bodyHolds hholds
    rw [(body_withUserScript p asked).2, hregion] at hmem
    rw [((linked_withUserScript h.grown.linked asked).parent_iff _ 5).2 hmem, if_pos rfl] at hnone
    cases hnone
  · have hwithin := within_of_below hbelow
    have hnone := parent?_withUserScript h hfound asked (lt_of_within h.grown hwithin).2
    obtain ⟨a, -, hmem⟩ := Relation.TransGen.tail'_iff.1 hbelow
    rw [hregion] at hsame
    rw [parent?_of_get? (hsame.get i hwithin), (h.grown.linked.parent_iff a i).2 hmem, if_pos rfl] at hnone
    cases hnone

end Page

namespace Frame

variable {s : Setup} {f : Frame}

/-! ## What an event does to the page -/

section Steps

variable {P : Page → Prop} (hcss : ∀ p css, P p → P (p.setCss css))
  (hrender : ∀ p html mode, P p → P (p.render html mode)) (hclear : ∀ p, P p → P p.clearExternalScripts)
  (hadd : ∀ p url, P p → P (p.addExternalScript url)) (w : Surroundings)

include hrender in
theorem page_rerender (h : P f.page) : P (f.rerender w).page := by
  unfold rerender
  split
  · exact hrender f.page _ f.shadowMode h
  · exact h

include hclear hadd in
theorem page_loadScripts (h : P f.page) (urls : List String) : P (f.loadScripts w urls).page := by
  unfold loadScripts
  split
  · exact h
  · exact List.foldlRecOn (motive := P) _ _ (hclear f.page h) fun p hp script _ => hadd p script.url hp

theorem page_click (f : Frame) (w : Surroundings) (target : NodeId) : (f.click w target).frame.page = f.page := by
  unfold click
  split <;> rfl

include hcss hrender hclear hadd in
theorem page_onMessage {e : Envelope} (he : (Event.message e).script? f.setup.editorOrigin = none) (h : P f.page) :
    P (f.onMessage w e).frame.page := by
  unfold onMessage
  split
  · rename_i horigin
    rw [Event.script?, if_pos horigin] at he
    cases hmessage : e.message with
    | render html css shadowMode highlight =>
      have hpage : ((f.onRender w html css shadowMode highlight).quietly).frame.page =
          (f.page.setCss css).render html shadowMode := by
        unfold quietly onRender render switchHighlight
        with_reducible rfl
      dsimp only
      rw [hpage]
      exact hrender _ html shadowMode (hcss f.page css h)
    | setCss css => exact hcss f.page css h
    | setHighlight highlight => exact page_rerender hrender w (f := f.switchHighlight highlight) h
    | externalScripts urls => exact page_loadScripts hclear hadd w h urls
    | runScript text =>
      rw [hmessage] at he
      cases he
    | disableScript =>
      rw [hmessage] at he
      cases he
    | init session settings => exact h
    | ready session => exact h
    | select token => exact h
  · exact h

include hcss hrender hclear hadd in
/-- **What the changes of a page keep, every event keeps** that asks nothing of the user's script. -/
theorem page_step {e : Event} (he : e.script? f.setup.editorOrigin = none) (h : P f.page) :
    P (f.step w e).frame.page := by
  cases e with
  | message e => exact page_onMessage hcss hrender hclear hadd w he h
  | click target =>
    change P (f.click w target).frame.page
    rw [page_click]
    exact h
  | clickAt p =>
    unfold step
    dsimp only
    split
    · rw [page_click]
      exact h
    · exact h
  | hoverAt p =>
    unfold step
    dsimp only
    split <;> exact h
  | shadowMode on => exact page_rerender hrender w (f := { f with shadowMode := on }) h
  | highlight on => exact page_rerender hrender w (f := f.switchHighlight on) h
  | pointerOver target => exact h
  | pointerOut => exact h
  | refreshLayout => exact h

end Steps

/-- A script message changes the user's script in the page. -/
theorem page_step_of_script (w : Surroundings) {e : Event} {asked : Option String}
    (he : e.script? f.setup.editorOrigin = some asked) : (f.step w e).frame.page = f.page.withUserScript asked := by
  cases e with
  | message e =>
    change (f.onMessage w e).frame.page = _
    unfold onMessage
    rw [Event.script?] at he
    split at he
    · rename_i horigin
      rw [if_pos horigin]
      cases hmessage : e.message <;> rw [hmessage] at he <;> cases he <;> rfl
    · cases he
  | _ => cases he

/-- The script has its seat after a history in which no script message came to content with the id of the script. -/
theorem seated_after {history : Traffic}
    (h : ∀ done x asked, done ++ [x] <+: history → x.2.script? s.editorOrigin = some asked →
      (∃ script, Page.Seated s (after s done).page script) → ¬ (after s done).page.ScriptIdInContent) :
    ∃ script, Page.Seated s (after s history).page script := by
  induction history using List.reverseRecOn with
  | nil => exact ⟨none, Page.seated_ofSetup s⟩
  | append_singleton history x ih =>
    have hseated := ih fun done y asked hbegins => h done y asked (hbegins.trans (List.prefix_append history [x]))
    obtain ⟨script, hscript⟩ := hseated
    have hsetup : (after s history).setup.editorOrigin = s.editorOrigin := by rw [setup_after]
    rw [after_concat]
    cases hasked : x.2.script? s.editorOrigin with
    | none =>
      exact ⟨script, page_step (P := fun p => Page.Seated s p script) (fun _ css hp => Page.seated_setCss hp css)
        (fun _ html mode hp => Page.seated_render hp html mode) (fun _ hp => Page.seated_clearScripts hp)
        (fun _ url hp => Page.seated_addScript hp url) x.1 (by rw [hsetup, hasked]) hscript⟩
    | some asked =>
      rw [page_step_of_script x.1 (by rw [hsetup, hasked])]
      exact (Page.injected hscript (h history x asked (List.prefix_refl _) hasked ⟨script, hscript⟩) asked).1

/-- **When script messages leave the content alone.** All along a history every script message leaves everything under
the region as it is, and the body with the region and the script that is asked for, exactly when no script message
comes while the region, or an element under it that is not in a shadow tree, has the id of the user's script. -/
theorem script_injected_iff (s : Setup) (history : Traffic) :
    (∀ done x asked, done ++ [x] <+: history → x.2.script? s.editorOrigin = some asked →
        SameUnder (after s done).page.tree (after s (done ++ [x])).page.tree (after s done).page.region ∧
          (after s (done ++ [x])).page.BodyHolds asked) ↔
      ∀ done x asked, done ++ [x] <+: history → x.2.script? s.editorOrigin = some asked →
        ¬ (after s done).page.ScriptIdInContent := by
  have hpage : ∀ done x asked, x.2.script? s.editorOrigin = some asked →
      (after s (done ++ [x])).page = (after s done).page.withUserScript asked := by
    intro done x asked hasked
    rw [after_concat]
    exact page_step_of_script x.1 (by rwa [setup_after])
  constructor
  · intro h done x asked hbegins hasked
    have hdone : ∃ script, Page.Seated s (after s done).page script := by
      refine seated_after fun earlier y asked' hearlier hy hseated hin => ?_
      obtain ⟨script, hscript⟩ := hseated
      have hboth := h earlier y asked' (hearlier.trans ((List.prefix_append done [x]).trans hbegins)) hy
      rw [hpage earlier y asked' hy] at hboth
      exact Page.not_injected hscript hin asked' hboth
    intro hin
    obtain ⟨script, hscript⟩ := hdone
    have hboth := h done x asked hbegins hasked
    rw [hpage done x asked hasked] at hboth
    exact Page.not_injected hscript hin asked hboth
  · intro h done x asked hbegins hasked
    have hdone : ∃ script, Page.Seated s (after s done).page script :=
      seated_after fun earlier y asked' hearlier hy _ =>
        h earlier y asked' (hearlier.trans ((List.prefix_append done [x]).trans hbegins)) hy
    obtain ⟨script, hscript⟩ := hdone
    rw [hpage done x asked hasked]
    exact (Page.injected hscript (h done x asked hbegins hasked) asked).2

/-- A paragraph with the id of the user's script is taken out of the content when a script is to run. -/
theorem exists_script_takes_content : ∃ (s : Setup) (done : Traffic) (x : Surroundings × Event) (text : String),
    x.2.script? s.editorOrigin = some (some text) ∧
      (after s done).page.tree.children (after s done).page.region = [6] ∧
      (after s (done ++ [x])).page.tree.children (after s done).page.region = [] := by
  refine ⟨⟨"page", "editor", "content", "style", "script"⟩,
    [(⟨fun _ => none, none⟩, .message ⟨"editor", .render "<p id=\"script\">a</p>" "" false true⟩)],
    (⟨fun _ => none, none⟩, .message ⟨"editor", .runScript "x()"⟩), "x()", ?_⟩
  decide +kernel

end Frame

end LiveMarkup.Preview
