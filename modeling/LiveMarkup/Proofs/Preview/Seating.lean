/-
Where the user's script stands in a page.

The element of the script is the last child of the body, behind the region, and no other node holds it (`Seated`).
What a page does with content, style sheets and other scripts touches neither the body nor that element
(`seated_setCss`, `seated_render`, `seated_clearScripts`, `seated_addScript`). An element with a text that is taken out
of the body, or put at its end, changes nothing under the region (`sameUnder_detach`, `sameUnder_withText`).
-/
import LiveMarkup.Proofs.Preview.Painting

set_option autoImplicit false

namespace LiveMarkup

namespace Tree

variable {t t' t'' : Tree} {a b i id parent : Nat} {kind : Kind} {text : String} {kinds lists : Nat → Prop}

/-! ## The same under a node -/

/-- Under a node two trees are the same: the same nodes stand there, with the same data and the same links. -/
structure SameUnder (t t' : Tree) (id : Nat) : Prop where
  kind : t'.kind? id = t.kind? id
  children : t'.children id = t.children id
  nodes : ∀ i, t'.Within id i ↔ t.Within id i
  get : ∀ i, t.Within id i → t'.get? i = t.get? i

theorem sameUnder_refl (t : Tree) (id : Nat) : SameUnder t t id := ⟨rfl, rfl, fun _ => .rfl, fun _ _ => rfl⟩

theorem SameUnder.trans (h : SameUnder t t' id) (h' : SameUnder t' t'' id) : SameUnder t t'' id where
  kind := h'.kind.trans h.kind
  children := h'.children.trans h.children
  nodes i := (h'.nodes i).trans (h.nodes i)
  get i hi := (h'.get i ((h.nodes i).2 hi)).trans (h.get i hi)

/-- Where the nodes under a node stay what they are, no other node comes there. -/
theorem sameUnder_of_get (hkind : t'.kind? id = t.kind? id) (hchildren : t'.children id = t.children id)
    (hget : ∀ i, t.Within id i → t'.get? i = t.get? i) : SameUnder t t' id := by
  have hheld : ∀ a, a = id ∨ t.Within id a → t'.held a = t.held a := by
    rintro a (rfl | ha)
    · exact held_congr hkind hchildren
    · exact held_congr (kind?_of_get? (hget a ha)) (children_of_get? (hget a ha))
  refine ⟨hkind, hchildren, fun i => ⟨fun hi => ?_, fun hi => ?_⟩, hget⟩
  · induction hi with
    | single hmem => exact .single (by rwa [hheld id (.inl rfl)] at hmem)
    | @tail a b _ hmem ih => exact ih.tail (by rwa [hheld a (.inr ih)] at hmem)
  · induction hi with
    | single hmem => exact .single (by rwa [hheld id (.inl rfl)])
    | @tail a b hab hmem ih => exact ih.tail (by rwa [hheld a (.inr hab)])

theorem lt_of_within (hgrown : t.Grown) (h : t.Within id i) : id < i ∧ i < t.size := by
  induction h with
  | single hmem => exact hgrown.later _ _ hmem
  | tail _ hmem ih =>
    have hlater := hgrown.later _ _ hmem
    exact ⟨Nat.lt_trans ih.1 hlater.1, hlater.2⟩

/-- What only an earlier node holds does not stand under a node. -/
theorem not_within_of_holder (hgrown : t.Grown) (hlt : a < id) (hholder : ∀ b, i ∈ t.held b → b = a) :
    ¬ t.Within id i := by
  intro hi
  obtain ⟨b, hb, hmem⟩ : ∃ b, (b = id ∨ t.Within id b) ∧ i ∈ t.held b := by
    cases hi with
    | single hmem => exact ⟨id, .inl rfl, hmem⟩
    | tail hab hmem => exact ⟨_, .inr hab, hmem⟩
  have hba := hholder b hmem
  rcases hb with rfl | hb
  · omega
  · have hbound := (lt_of_within hgrown hb).1
    omega

/-- A second child that only its parent holds is taken out: nothing changes under the first one. -/
theorem sameUnder_detach (hgrown : t.Grown) (hlist : t.children parent = [id, i])
    (hholder : ∀ b, i ∈ t.held b → b = parent) : SameUnder t (t.detach i) id := by
  have hparent : t.parent? i = some parent := (hgrown.linked.parent_iff parent i).2 (by rw [hlist]; simp)
  have hlt : parent < id := (hgrown.later parent id (mem_held_of_children (by rw [hlist]; simp))).1
  have hkept : t.parent? i ≠ some id := by
    rw [hparent]
    exact fun heq => Nat.ne_of_lt hlt (Option.some.inj heq)
  refine sameUnder_of_get (kind?_detach t i id)
    ((children_detach hgrown.linked i id).trans (hgrown.linked.filter_of_not_child hkept)) fun j hj => ?_
  have hbound := (lt_of_within hgrown hj).1
  have hne : j ≠ i := by
    rintro rfl
    exact not_within_of_holder hgrown hlt hholder hj
  refine get?_detach_of_ne hparent hne (by omega) ?_
  rw [hlist, List.mem_cons, List.mem_singleton]
  exact fun hmem => hmem.elim (fun heq => by omega) hne

/-! ## A new element with a text -/

/-- A tree with a new node that holds a text, at the end of the children of a node. -/
def withText (t : Tree) (parent : Nat) (kind : Kind) (text : String) : Tree :=
  ((t.alloc kind).1.addChild (.text text) t.size none).1.appendChild parent t.size

theorem copiesView_text (t : Tree) (hkind : copiedKind kind = kind) (text : String) :
    CopiesView t (.node 0 kind [] [.node 0 (.text text) [] []])
      ((t.alloc kind).1.addChild (.text text) t.size none).1 := by
  have houter := copiesView_alloc t 0 kind
  rw [hkind] at houter
  exact copiesView_child houter (copiesView_alloc _ 0 (.text text))

theorem fills_withText (hgrown : t.Grown) (hparent : parent < t.size) (hkind : copiedKind kind = kind) (text : String) :
    Fills t parent [.node 0 kind [] [.node 0 (.text text) [] []]] (t.withText parent kind text) := by
  have hlinked : ((t.alloc kind).1.addChild (.text text) t.size none).1.Linked :=
    linked_insertBefore (linked_alloc (linked_alloc hgrown.linked _) _) _ _ _
  have hbare : (View.node 0 kind [] [.node 0 (.text text) [] []]).bare = .node 0 kind [] [.node 0 (.text text) [] []] := by
    rw [View.bare, hkind]
    rfl
  have hfills := fills_copy hgrown hparent (copiesView_text t hkind text) hlinked
  rwa [hbare] at hfills

theorem children_withText (hparent : parent < t.size) (hkind : copiedKind kind = kind) (text : String) (i : Nat) :
    (t.withText parent kind text).children i =
      if i = parent then t.children parent ++ [t.size]
      else ((t.alloc kind).1.addChild (.text text) t.size none).1.children i := by
  have hcopy := copiesView_text t hkind text
  have hlt := hcopy.size_lt
  have hold := children_of_get? (hcopy.old parent hparent)
  have happend := children_appendChild_of_detached (show parent < _ by omega) hlt (by omega) hcopy.detached.1 i
  rw [hold] at happend
  exact happend

/-- The new node, and the text in it. -/
theorem leaf_withText (hparent : parent < t.size) (hkind : copiedKind kind = kind) (text : String) :
    (t.withText parent kind text).kind? t.size = some kind ∧
      (t.withText parent kind text).children t.size = [t.size + 1] ∧
      (t.withText parent kind text).Leaf (t.size + 1) (.text text) := by
  have hkinds (i : Nat) : (t.withText parent kind text).kind? i =
      ((t.alloc kind).1.addChild (.text text) t.size none).1.kind? i := kind?_insertBefore ..
  have hchildren := children_withText hparent hkind text
  have hlt : t.size < (t.alloc kind).1.size := by rw [size_alloc]; omega
  have hadded (i : Nat) := children_addChild hlt (.text text) i
  have hnew (i : Nat) := kind?_addChild (t.alloc kind).1 (.text text) t.size i
  rw [size_alloc] at hadded hnew
  refine ⟨?_, ?_, ?_, ?_⟩
  · rw [hkinds, hnew, if_neg (by omega), kind?_alloc_self]
  · rw [hchildren, if_neg (by omega), hadded, if_pos rfl, children_alloc, children_of_le (Nat.le_refl _)]
    rfl
  · rw [hkinds, hnew, if_pos rfl]
  · rw [hchildren, if_neg (by omega), hadded, if_neg (by omega), children_alloc, children_of_le (by omega)]

theorem parent?_withText (hparent : parent < t.size) (hkind : copiedKind kind = kind) (text : String) (hi : i < t.size) :
    (t.withText parent kind text).parent? i = t.parent? i := by
  have hcopy := copiesView_text t hkind text
  have hlt := hcopy.size_lt
  rw [withText, appendChild, parent?_insertBefore (by omega) hlt (by omega), if_neg (by omega)]
  exact parent?_of_get? (hcopy.old i hi)

/-- A new node is put at the end of the children of a node that has one: nothing changes under that one. -/
theorem sameUnder_withText (hgrown : t.Grown) (hlist : t.children parent = [id]) (hkind : copiedKind kind = kind)
    (text : String) : SameUnder t (t.withText parent kind text) id := by
  have hid := hgrown.later parent id (mem_held_of_children (by rw [hlist]; simp))
  have hparent : parent < t.size := Nat.lt_trans hid.1 hid.2
  have hfills := fills_withText hgrown hparent hkind text
  have hcopy := copiesView_text t hkind text
  have hlt := hcopy.size_lt
  refine sameUnder_of_get (hfills.kind id hid.2) (hfills.children id hid.2 (Nat.ne_of_gt hid.1)) fun i hi => ?_
  have hbound := lt_of_within hgrown hi
  have hold := hcopy.old i hbound.2
  rw [← hold]
  refine get?_appendChild_of_detached (by omega) hlt (by omega) hcopy.detached.1 (by omega) (by omega) ?_
  rw [children_of_get? (hcopy.old parent hparent), hlist, List.mem_singleton]
  omega

/-! ## Shadow trees -/

theorem mem_held_of_shadow (h : t.shadow? a = some b) : b ∈ t.held a := by
  obtain ⟨e, he, hshadow⟩ := Option.bind_eq_some_iff.1 h
  rw [held, kind?_of_element? he, Option.map_some, Option.getD_some, Kind.links, hshadow]
  simp

theorem spares_alloc (h : t.Grown) (hlinks : kind.links = []) : Spares kinds lists t (t.alloc kind).1 where
  grown := grown_alloc h hlinks
  later := later_alloc t hlinks
  kind i hi _ := by rw [kind?_alloc, if_neg (by omega)]
  children i _ _ := children_alloc t kind i

/-- An element is given a shadow tree that is new, or none. -/
theorem spares_setShadow {e : Element} (h : Spares (· ≠ id) lists t t') (hkind : t'.kind? id = some (.element e))
    (hid : id < t.size) {shadow : Option Nat} (hshadow : ∀ root, shadow = some root → t.size ≤ root ∧ root < t'.size) :
    Spares (· ≠ id) lists t (t'.modifyElement id fun e => { e with shadow }) where
  grown := grown_setShadow h.grown hkind fun root hroot =>
    ⟨Nat.lt_of_lt_of_le hid (hshadow root hroot).1, (hshadow root hroot).2⟩
  later := later_setShadow h.later hkind fun root hroot => (hshadow root hroot).1
  kind i hi hne := by rw [kind?_setShadow hkind, if_neg hne, h.kind i hi hne]
  children i hi hk := by rw [children_modifyElement, h.children i hi hk]

/-- An element has a shadow tree, or is given one. -/
theorem spares_attachShadow {e : Element} (lists : Nat → Prop) (h : t.Grown) (hkind : t.kind? id = some (.element e)) :
    ∃ t' root, t.attachShadow id = (t', some root) ∧ Spares (· ≠ id) lists t t' ∧
      (∃ e', t'.kind? id = some (.element e')) ∧ id < root ∧ root < t'.size := by
  have hid := lt_size_of_kind hkind
  cases hshadow : e.shadow with
  | some root =>
    have hroot := h.later id root (mem_held_of_shadow (by rw [shadow?_of_kind hkind, hshadow]))
    exact ⟨t, root, attachShadow_of_kind hkind hshadow, .refl h, ⟨e, hkind⟩, hroot⟩
  | none =>
    have hkind' : (t.alloc (.fragment (some id))).1.kind? id = some (.element e) := by
      rw [kind?_alloc, if_neg (by omega), hkind]
    refine ⟨_, t.size, attachShadow_of_none hkind hshadow, spares_setShadow (spares_alloc h rfl) hkind' hid ?_,
      ⟨_, by rw [kind?_setShadow hkind', if_pos rfl]⟩, hid, ?_⟩
    · rintro root ⟨⟩
      rw [size_alloc]
      omega
    · rw [size_modifyElement, size_alloc]
      exact Nat.lt_succ_self t.size

end Tree

namespace Preview

open Tree

/-- The element of the user's script. -/
def userScriptKind (id : String) : Kind := elementWith "script" "id" id

namespace Page

variable {s : Setup} {p p' : Page} {script : Option Nat}

/-- A page with the user's script behind its region, or without one. Nothing but the body holds the script. -/
structure Seated (s : Setup) (p : Page) (script : Option Nat) : Prop where
  fields : p.head = 2 ∧ p.body = 3 ∧ p.style = 4 ∧ p.region = 5 ∧ p.scriptId = s.scriptId
  grown : p.tree.Grown
  inHead : p.tree.children 2 = 4 :: p.externalScripts
  inBody : p.tree.children 3 = 5 :: script.toList
  regionNode : ∃ e, p.tree.kind? 5 = some (.element e)
  scriptNode : ∀ i, script = some i →
    p.tree.kind? i = some (userScriptKind s.scriptId) ∧ ∀ a, i ∈ p.tree.held a → a = 3
  styleNode : ∀ style, p.shadowStyle = some style → 5 < style ∧ style < p.tree.size

theorem Seated.region_lt (h : Seated s p script) : 5 < p.tree.size := by
  obtain ⟨e, hkind⟩ := h.regionNode
  exact lt_size_of_kind hkind

theorem Seated.script_ne {i : Nat} (h : Seated s p script) (hi : script = some i) : i ≠ 5 := by
  have hnodup := h.grown.linked.nodup 3
  rw [h.inBody, hi, Option.toList_some, List.nodup_cons, List.mem_singleton] at hnodup
  exact fun heq => hnodup.1 heq.symm

/-- Where the style element in use stands: not in the head or the body. -/
theorem Seated.active_bounds (h : Seated s p script) : 3 < p.activeStyle ∧ p.activeStyle < p.tree.size := by
  have hlt := h.region_lt
  rw [activeStyle]
  cases hstyle : p.shadowStyle with
  | none =>
    rw [Option.getD_none, h.fields.2.2.1]
    omega
  | some style =>
    obtain ⟨hplace, hsize⟩ := h.styleNode style hstyle
    exact ⟨Nat.lt_trans (by decide) hplace, hsize⟩

/-- The style element of the shadow tree is still in a tree that has grown. -/
theorem Seated.style_lt (h : Seated s p script) {t : Tree} (hsize : p.tree.size ≤ t.size) {style : Nat}
    (hin : p.shadowStyle = some style) : 5 < style ∧ style < t.size :=
  ⟨(h.styleNode style hin).1, Nat.lt_of_lt_of_le (h.styleNode style hin).2 hsize⟩

/-- The script keeps its seat when the body and the head do, and the region stays an element. -/
theorem Seated.congr (h : Seated s p script)
    (hp : p' = { p with
      tree := p'.tree, css := p'.css, shadowStyle := p'.shadowStyle, shadowMode := p'.shadowMode
      externalScripts := p'.externalScripts })
    (hspares : Spares (· ≠ 5) (· = 3) p.tree p'.tree) (hhead : p'.tree.children 2 = 4 :: p'.externalScripts)
    (hregion : ∃ e, p'.tree.kind? 5 = some (.element e))
    (hstyle : ∀ style, p'.shadowStyle = some style → 5 < style ∧ style < p'.tree.size) : Seated s p' script := by
  have hlt := h.region_lt
  refine ⟨by rw [hp]; exact h.fields, hspares.grown, hhead, ?_, hregion, fun i hi => ?_, hstyle⟩
  · rw [hspares.children 3 (by omega) rfl, h.inBody]
  · obtain ⟨hkind, hholder⟩ := h.scriptNode i hi
    have hsize := lt_size_of_kind hkind
    exact ⟨(hspares.kind i hsize (h.script_ne hi)).trans hkind, fun a ha =>
      hholder a (hspares.later.held a i hsize ha)⟩

/-! ## What a page does with its content -/

/-- What happens under the region, in the style elements and behind them keeps the script's seat. -/
theorem Seated.restyled (h : Seated s p script)
    (hp : p' = { p with tree := p'.tree, css := p'.css, shadowStyle := p'.shadowStyle, shadowMode := p'.shadowMode })
    (hspares : Spares (fun _ => True) (fun i => i = 2 ∨ i = 3) p.tree p'.tree)
    (hstyle : ∀ style, p'.shadowStyle = some style → 5 < style ∧ style < p'.tree.size) : Seated s p' script := by
  have hlt := h.region_lt
  obtain ⟨e, hkind⟩ := h.regionNode
  have hsame : p'.externalScripts = p.externalScripts := by rw [hp]
  refine h.congr (by rw [hp]) (hspares.mono (fun _ _ => trivial) fun _ => .inr) ?_
    ⟨e, (hspares.kind 5 hlt trivial).trans hkind⟩ hstyle
  rw [hspares.children 2 (by omega) (.inl rfl), hsame]
  exact h.inHead

theorem seated_applyCss (h : Seated s p script) : Seated s p.applyCss script := by
  obtain ⟨hactive, hlt⟩ := h.active_bounds
  have hstyle : p.style = 4 := h.fields.2.2.1
  have hspares : Spares (fun _ => True) (fun i => i = 2 ∨ i = 3) p.tree p.applyCss.tree :=
    spares_applyCss h.grown hlt ⟨by rw [hstyle]; omega, by omega⟩
  exact h.restyled rfl hspares fun _ hin => h.style_lt hspares.later.size_le hin

theorem seated_setCss (h : Seated s p script) (css : String) : Seated s (p.setCss css) script :=
  seated_applyCss (p := { p with css }) (h.restyled rfl (.refl h.grown) h.styleNode)

theorem seated_clearContent (h : Seated s p script) : Seated s p.clearContent script := by
  refine h.restyled rfl ?_ nofun
  have hlight : Spares (fun _ => True) (fun i => i = 2 ∨ i = 3) p.tree (p.tree.clearChildren 5) :=
    spares_clearChildren h.grown (by omega)
  rw [tree_clearContent h.fields.2.2.2.1]
  cases hshadow : (p.tree.clearChildren 5).shadow? 5 with
  | none => exact hlight
  | some root =>
    have hlt := (hlight.grown.later 5 root (mem_held_of_shadow hshadow)).1
    exact hlight.trans (spares_clearChildren hlight.grown (by omega))

/-- The root that content is put under stands at the region or behind it. -/
theorem seated_attachRoot (h : Seated s p script) (mode : Bool) : Seated s (p.attachRoot mode).1 script ∧
    5 ≤ (p.attachRoot mode).2 ∧ (p.attachRoot mode).2 < (p.attachRoot mode).1.tree.size := by
  have hregion : p.region = 5 := h.fields.2.2.2.1
  have hlt := h.region_lt
  obtain ⟨e, hkind⟩ := h.regionNode
  cases mode with
  | false =>
    have htree := tree_attachRoot_light hregion
    have hspares : Spares (· ≠ 5) (fun i => i = 2 ∨ i = 3) p.tree (p.attachRoot false).1.tree := by
      rw [htree]
      exact spares_setShadow (.refl h.grown) hkind hlt nofun
    refine ⟨h.congr rfl (hspares.mono (fun _ hi => hi) fun _ => .inr) ?_ ?_ fun _ hin =>
      h.style_lt hspares.later.size_le hin, Nat.le_of_eq hregion.symm, ?_⟩
    · rw [hspares.children 2 (by omega) (.inl rfl)]
      exact h.inHead
    · rw [htree, kind?_setShadow hkind, if_pos rfl]
      exact ⟨_, rfl⟩
    · have hroot : (p.attachRoot false).2 = 5 := hregion
      rw [hroot]
      exact Nat.lt_of_lt_of_le hlt hspares.later.size_le
  | true =>
    obtain ⟨t, root, hattach, hspares, ⟨e', hkind'⟩, hroot, hrootlt⟩ :=
      spares_attachShadow (fun i => i = 2 ∨ i = 3) h.grown hkind
    have hfills := fills_addChild hspares.grown hrootlt shadowStyleKind rfl
    have hall := hspares.trans (hfills.spares (by omega))
    have hsize := hspares.later.size_le
    rw [attachRoot_shaded hregion hattach]
    refine ⟨h.congr rfl (hall.mono (fun _ hi => hi) fun _ => .inr) ?_ ?_ ?_, Nat.le_of_lt hroot, ?_⟩
    · exact (hall.children 2 (by omega) (.inl rfl)).trans h.inHead
    · exact ⟨e', (hfills.kind 5 (by omega)).trans hkind'⟩
    · rintro style ⟨⟩
      refine ⟨Nat.lt_of_lt_of_le hlt hsize, ?_⟩
      change t.size < (t.addChild shadowStyleKind root none).1.size
      rw [size_addChild]
      exact Nat.lt_succ_self t.size
    · exact Nat.lt_of_lt_of_le hrootlt hfills.size_le

theorem seated_render (h : Seated s p script) (html : String) (mode : Bool) : Seated s (p.render html mode) script := by
  obtain ⟨hseated, hroot, hlt⟩ := seated_attachRoot (seated_clearContent h) mode
  obtain ⟨t, hpage, hfills⟩ := render_eq html mode hseated.grown hlt
  have hspares : Spares (fun _ => True) (fun i => i = 2 ∨ i = 3) (p.clearContent.attachRoot mode).1.tree t := by
    refine hfills.spares ?_
    rintro (heq | heq) <;> rw [heq] at hroot <;> exact absurd hroot (by decide)
  rw [hpage]
  exact seated_applyCss (hseated.restyled rfl hspares fun _ hin => hseated.style_lt hspares.later.size_le hin)

/-! ## What a page does with its scripts -/

theorem seated_clearScripts (h : Seated s p script) : Seated s p.clearExternalScripts script := by
  obtain ⟨hgrown, hsize, hlater, hkind, hchildren, hhead⟩ := foldl_detach h.grown h.inHead
  obtain ⟨e, hregion⟩ := h.regionNode
  refine h.congr rfl ⟨hgrown, hlater, fun i _ _ => hkind i, fun i _ hi => hchildren i ?_⟩ hhead
    ⟨e, (hkind 5).trans hregion⟩ fun _ hin => h.style_lt hlater.size_le hin
  omega

theorem seated_addScript (h : Seated s p script) (url : String) : Seated s (p.addExternalScript url) script := by
  have hhead : p.head = 2 := h.fields.1
  have hfive := h.region_lt
  obtain ⟨e, hregion⟩ := h.regionNode
  have hlt : 2 < p.tree.size := by omega
  have hpage : p.addExternalScript url = { p with
      tree := (p.tree.addChild (scriptKind url) 2 none).1
      externalScripts := p.externalScripts ++ [p.tree.size] } := by
    rw [← hhead]
    rfl
  have hfills := fills_addChild h.grown hlt (scriptKind url) rfl
  rw [hpage]
  refine h.congr rfl (hfills.spares (by omega)) ?_ ⟨e, (hfills.kind 5 hfive).trans hregion⟩ fun _ hin =>
    h.style_lt hfills.size_le hin
  exact (children_addChild hlt (scriptKind url) 2).trans ((if_pos rfl).trans (by rw [h.inHead]; rfl))

theorem seated_ofSetup (s : Setup) : Seated s (ofSetup s) none := by
  obtain ⟨-, -, h2, h3, -, -⟩ := children_skeleton s
  have hgrown := grown_skeleton s
  have hkind := (kind?_skeleton s 5).trans (if_pos rfl)
  rw [ofSetup_eq]
  generalize skeleton s = t at h2 h3 hgrown hkind
  exact ⟨⟨rfl, rfl, rfl, rfl, rfl⟩, hgrown, h2, h3, ⟨_, hkind⟩, nofun, nofun⟩

end Page

end Preview

end LiveMarkup
