/-
The way from a node up to the region of a page.

The walk up goes on at the host of a fragment that has no parent. Renders leave such fragments behind, the roots of
shadow trees that are no longer used, but they are empty, and the region is the only host (`Hosted`). So an element
reaches the region exactly when it stands under the root of the content (`contains_iff`), and all that a page does
keeps it so (`housed_render`, `housed_setCss`, `housed_scripts`).
-/
import LiveMarkup.Proofs.Dom.Circles
import LiveMarkup.Proofs.Preview.Painting

set_option autoImplicit false

namespace LiveMarkup

namespace Tree

variable {t t' : Tree} {a b i region root parent : Nat} {ps : List View}

/-! ## Fragments and their host -/

/-- The fragments with a host: it is the region, they have no parent, and all but the root of the content are empty. -/
structure Hosted (t : Tree) (region root : Nat) : Prop where
  region : ∀ j host, t.host? j = some host → host = region ∧ region < j
  alone : ∀ j host, t.host? j = some host → t.parent? j = none
  empty : ∀ j host, t.host? j = some host → j ≠ root → t.children j = []

theorem host?_congr (h : t'.kind? i = t.kind? i) : t'.host? i = t.host? i := by rw [host?, host?, h]

theorem host?_of_element {e : Element} (h : t.kind? i = some (.element e)) : t.host? i = none := by rw [host?, h]

theorem host?_of_fragment {host : Option Nat} (h : t.kind? i = some (.fragment host)) : t.host? i = host := by
  rw [host?, h]

theorem kind?_of_host (h : t.host? i = some a) : t.kind? i = some (.fragment (some a)) := by
  rw [host?] at h
  cases hkind : t.kind? i with
  | none => simp [hkind] at h
  | some kind => cases kind <;> simp_all

theorem host?_of_copied (h : ∀ kind, t.kind? i = some kind → IsCopied kind) : t.host? i = none := by
  rw [host?]
  cases hkind : t.kind? i with
  | none => rfl
  | some kind =>
    have hcopied := h kind hkind
    cases kind <;> simp_all [IsCopied]

/-- Fragments stay in order when none gets a host, a parent or children. -/
theorem Hosted.congr (h : t.Hosted region root) (hhost : ∀ j host, t'.host? j = some host → t.host? j = some host)
    (hparent : ∀ j host, t.host? j = some host → t.parent? j = none → t'.parent? j = none)
    (hchildren : ∀ j host, t.host? j = some host → j ≠ root → t.children j = [] → t'.children j = []) :
    t'.Hosted region root where
  region j host hj := h.region j host (hhost j host hj)
  alone j host hj := hparent j host (hhost j host hj) (h.alone j host (hhost j host hj))
  empty j host hj hne := hchildren j host (hhost j host hj) hne (h.empty j host (hhost j host hj) hne)

/-- Where the root of the content is empty too, it can be any node. -/
theorem Hosted.reroot (h : t.Hosted region root) (hroot : t.children root = []) (root' : Nat) :
    t.Hosted region root' := by
  refine ⟨h.region, h.alone, fun j host hj _ => ?_⟩
  by_cases hne : j = root
  · rw [hne, hroot]
  · exact h.empty j host hj hne

theorem hosted_clearChildren (h : t.Hosted region root) (parent : Nat) : (t.clearChildren parent).Hosted region root := by
  refine h.congr (fun j host hj => ?_) (fun j host _ hnone => ?_) (fun j host _ _ hempty => ?_)
  · rwa [host?_congr (kind?_clearChildren t parent j)] at hj
  · rw [parent?_clearChildren, hnone, ite_self]
  · rw [children_clearChildren, hempty, ite_self]

theorem hosted_detach (hlinked : t.Linked) (h : t.Hosted region root) (id : Nat) : (t.detach id).Hosted region root := by
  refine h.congr (fun j host hj => ?_) (fun j host _ hnone => ?_) (fun j host _ _ hempty => ?_)
  · rwa [host?_congr (kind?_detach t id j)] at hj
  · rw [parent?_detach, hnone, ite_self]
  · rw [children_detach hlinked, hempty, List.filter_nil]

theorem hosted_modifyElement (h : t.Hosted region root) (id : Nat) (f : Element → Element) :
    (t.modifyElement id f).Hosted region root := by
  refine h.congr (fun j host hj => ?_) (fun j host _ hnone => ?_) (fun j host _ _ hempty => ?_)
  · rwa [host?_modifyElement] at hj
  · rw [parent?_modifyElement, hnone]
  · rw [children_modifyElement, hempty]

/-- What is put under the root of the content, or under a node that is no such fragment, gets no host. -/
theorem hosted_fills (hgrown : t.Grown) (h : t.Hosted region root) (hfills : Fills t parent ps t')
    (hparent : parent = root ∨ t.host? parent = none) : t'.Hosted region root := by
  have hold (j host : Nat) (hj : t.host? j = some host) : j < t.size := lt_size_of_kind (kind?_of_host hj)
  refine h.congr (fun j host hj => ?_) (fun j host hj hnone => ?_) (fun j host hj hne hempty => ?_)
  · by_cases hlt : j < t.size
    · rwa [host?_congr (hfills.kind j hlt)] at hj
    · rw [host?_of_copied fun kind => hfills.copied j kind (Nat.not_lt.1 hlt)] at hj
      cases hj
  · -- a parent is a node that lists it, and did so before
    by_contra hsome
    obtain ⟨a, ha⟩ := Option.ne_none_iff_exists'.1 hsome
    have hmem := (hfills.grown.linked.parent_iff a j).1 ha
    have hheld := hfills.later.held a j (hold j host hj) (mem_held_of_children hmem)
    have hlater := hgrown.later a j hheld
    have ha' : a < t.size := Nat.lt_trans hlater.1 hlater.2
    have hchild : j ∈ t.children a := by
      by_cases hap : a = parent
      · obtain ⟨new, hchildren, hnew, -⟩ := hfills.added
        rw [hap, hchildren, List.mem_append] at hmem
        refine hap ▸ hmem.resolve_right fun hmem => ?_
        exact absurd (hold j host hj) (Nat.not_lt.2 (hnew j hmem))
      · rwa [hfills.children a ha' hap] at hmem
    rw [(hgrown.linked.parent_iff a j).2 hchild] at hnone
    cases hnone
  · rw [hfills.children j (hold j host hj), hempty]
    rintro rfl
    rcases hparent with hparent | hparent
    · exact hne hparent
    · rw [hparent] at hj
      cases hj

/-- A shadow tree of the region becomes the root of the content, where all earlier ones are empty. -/
theorem hosted_attachShadow {e : Element} (hkind : t.kind? region = some (.element e))
    (h : ∀ root, t.Hosted region root) (hattach : t.attachShadow region = (t', some root)) : t'.Hosted region root := by
  cases hshadow : e.shadow with
  | some shadow =>
    rw [attachShadow_of_kind hkind hshadow] at hattach
    obtain ⟨rfl, -⟩ := Prod.mk.inj hattach
    exact h root
  | none =>
    rw [attachShadow_of_none hkind hshadow] at hattach
    obtain ⟨rfl, hroot⟩ := Prod.mk.inj hattach
    obtain rfl := Option.some.inj hroot
    refine hosted_modifyElement ?_ region _
    have hlt := lt_size_of_kind hkind
    have hnew : (t.alloc (.fragment (some region))).1.host? t.size = some region :=
      host?_of_fragment (kind?_alloc_self t _)
    have hold (j : Nat) (hj : j ≠ t.size) := get?_alloc_of_ne (.fragment (some region)) hj
    refine ⟨fun j host hj => ?_, fun j host hj => ?_, fun j host hj hne => ?_⟩
    · by_cases hsize : j = t.size
      · subst hsize
        rw [hnew] at hj
        exact ⟨(Option.some.inj hj).symm, hlt⟩
      · rw [host?_congr (kind?_of_get? (hold j hsize))] at hj
        exact (h t.size).region j host hj
    · by_cases hsize : j = t.size
      · rw [hsize, parent?, get?_alloc_self]
        rfl
      · rw [host?_congr (kind?_of_get? (hold j hsize))] at hj
        rw [parent?_of_get? (hold j hsize)]
        exact (h t.size).alone j host hj
    · rw [host?_congr (kind?_of_get? (hold j hne))] at hj
      rw [children_alloc]
      exact (h t.size).empty j host hj hne

/-! ## The way up -/

theorem composedParent?_cases (h : t.composedParent? a = some b) : t.parent? a = some b ∨ t.host? a = some b := by
  rw [← above_true, above, if_pos rfl] at h
  cases hparent : t.parent? a with
  | some c => exact .inl (by rwa [hparent, Option.some_or] at h)
  | none => exact .inr (by rwa [hparent, Option.none_or] at h)

theorem composedParent?_of_parent (h : t.parent? a = some b) : t.composedParent? a = some b := by
  rw [← above_true]
  exact above_of_parent h

theorem composedParent?_of_host (hparent : t.parent? a = none) (h : t.host? a = some b) :
    t.composedParent? a = some b := by
  rw [← above_true, above, if_pos rfl, hparent, Option.none_or, h]

/-- The way up leads to earlier nodes only. -/
theorem lt_of_composedParent (hgrown : t.Grown) (h : t.Hosted region root) (hab : t.composedParent? a = some b) :
    b < a := by
  rcases composedParent?_cases hab with hparent | hhost
  · exact (hgrown.later b a (mem_held_of_children ((hgrown.linked.parent_iff b a).1 hparent))).1
  · obtain ⟨rfl, hlt⟩ := h.region a b hhost
    exact hlt

theorem acyclic_composedParent (hgrown : t.Grown) (h : t.Hosted region root) : Acyclic t.composedParent? := by
  intro a b hab hback
  have hle : a ≤ b := by
    clear hab
    induction hback with
    | refl => exact Nat.le_refl _
    | tail _ hxy ih => exact Nat.le_trans (Nat.le_of_lt (lt_of_composedParent hgrown h hxy)) ih
  exact absurd (lt_of_composedParent hgrown h hab) (Nat.not_lt.2 hle)

/-- The way up is listed in full. -/
theorem mem_composedPath_iff (hgrown : t.Grown) (h : t.Hosted region root) :
    b ∈ t.composedPath a ↔ Leads t.composedParent? a b := by
  refine mem_follow_iff fun k => length_follow_le (acyclic_composedParent hgrown h) (fun a b hab => ?_) k (some a)
  rw [← above_true] at hab
  exact lt_size_of_above hab

/-- What leads up to the region stands under the root of the content, or it is a fragment of the region's. -/
theorem cases_of_leads_region (hlinked : t.Linked) (h : t.Hosted region root)
    (hchildren : root ≠ region → t.children region = []) (hi : Leads t.composedParent? i region) :
    i = region ∨ t.host? i = some region ∨ t.Below root i := by
  induction hi using Relation.ReflTransGen.head_induction_on with
  | refl => exact .inl rfl
  | @head a b hab _ ih =>
    rcases composedParent?_cases hab with hparent | hhost
    · have hmem := (hlinked.parent_iff b a).1 hparent
      rcases ih with rfl | hhosted | hbelow
      · -- the region has children only where it is the root of the content
        by_cases hroot : root = b
        · exact .inr (.inr (.single (hroot ▸ hmem)))
        · rw [hchildren hroot] at hmem
          exact absurd hmem List.not_mem_nil
      · by_cases hroot : b = root
        · exact .inr (.inr (.single (hroot ▸ hmem)))
        · rw [h.empty b region hhosted hroot] at hmem
          exact absurd hmem List.not_mem_nil
      · exact .inr (.inr (hbelow.tail hmem))
    · obtain ⟨rfl, -⟩ := h.region a b hhost
      exact .inr (.inl hhost)

/-- What stands under the root of the content leads up to the region. -/
theorem leads_region_of_below (hlinked : t.Linked) (h : t.Hosted region root)
    (hroot : root = region ∨ t.host? root = some region) (hi : t.Below root i) : Leads t.composedParent? i region := by
  have hup : Leads t.composedParent? root region := by
    rcases hroot with rfl | hhost
    · exact Leads.refl _ root
    · exact .single (composedParent?_of_host (h.alone root region hhost) hhost)
  induction hi with
  | single hmem => exact Leads.head (composedParent?_of_parent ((hlinked.parent_iff _ _).2 hmem)) hup
  | tail _ hmem ih => exact Leads.head (composedParent?_of_parent ((hlinked.parent_iff _ _).2 hmem)) ih

end Tree

namespace Preview

open Tree View

namespace Page

variable {s : Setup} {p : Page} {urls : List String} {content : List View} {root lo top : Nat} {i : Nat}

/-! ## The region as the only host -/

/-- A painted page whose region is the only host. -/
structure Housed (s : Setup) (p : Page) (urls : List String) (content : List View) (root lo top : Nat) : Prop
    extends Painted s p urls content root lo top where
  hosted : p.tree.Hosted 5 root

theorem Framed.region_kind (h : Framed s p urls content root lo top) :
    ∃ shadow, p.tree.kind? 5 = some (regionKind s shadow) := by
  rcases h.mode with hlight | ⟨style, hshaded⟩
  · exact ⟨_, hlight.regionNode⟩
  · exact ⟨_, hshaded.regionNode.1⟩

theorem Framed.region_empty (h : Framed s p urls content root lo top) (hne : root ≠ 5) : p.tree.children 5 = [] := by
  rcases h.mode with hlight | ⟨style, hshaded⟩
  · exact absurd hlight.root_eq hne
  · exact hshaded.regionNode.2

theorem Framed.root_host (h : Framed s p urls content root lo top) : root = 5 ∨ p.tree.host? root = some 5 := by
  rcases h.mode with hlight | ⟨style, hshaded⟩
  · exact .inl hlight.root_eq
  · exact .inr (host?_of_fragment hshaded.rootNode)

theorem Framed.host_activeStyle (h : Framed s p urls content root lo top) : p.tree.host? p.activeStyle = none := by
  rcases h.mode with hlight | ⟨style, hshaded⟩
  · rw [hlight.active h.fields.2.2.1]
    exact host?_of_element h.styleNode
  · rw [hshaded.active]
    exact host?_of_element hshaded.styleNode

theorem hosted_applyCss (h : Framed s p urls content root lo top) (hhosted : p.tree.Hosted 5 root) :
    p.applyCss.tree.Hosted 5 root := by
  obtain ⟨-, -, -, -, hactive⟩ := h.active_bounds
  have hcleared : p.unstyled.Hosted 5 root := hosted_clearChildren (hosted_clearChildren hhosted _) _
  rw [applyCss_eq]
  by_cases hempty : (escapeStyleText p.css).isEmpty = true
  · rw [if_pos hempty]
    exact hcleared
  · rw [if_neg hempty]
    have hgrown : p.unstyled.Grown := grown_clearChildren (grown_clearChildren h.grown _) _
    have hlt : p.activeStyle < p.unstyled.size := by rwa [unstyled, size_clearChildren, size_clearChildren]
    have hhost : p.unstyled.host? p.activeStyle = none := by
      rw [unstyled, host?_congr (kind?_clearChildren _ _ _), host?_congr (kind?_clearChildren _ _ _)]
      exact h.host_activeStyle
    exact hosted_fills hgrown hcleared (fills_addChild hgrown hlt (.text (escapeStyleText p.css)) rfl) (.inr hhost)

/-- Without content all fragments of the region are empty. -/
theorem hosted_clearContent (h : Framed s p urls content root lo top) (hhosted : p.tree.Hosted 5 root) (root' : Nat) :
    p.clearContent.tree.Hosted 5 root' := by
  obtain ⟨-, -, -, -, -, -, hroot⟩ := clearContent_spec h
  refine Hosted.reroot ?_ hroot root'
  rw [tree_clearContent h.fields.2.2.2.1]
  cases (p.tree.clearChildren 5).shadow? 5 with
  | none => exact hosted_clearChildren hhosted 5
  | some shadow => exact hosted_clearChildren (hosted_clearChildren hhosted 5) shadow

theorem hosted_attachRoot (h : Framed s p urls content root lo top) (hhosted : p.tree.Hosted 5 root) (mode : Bool) :
    (p.clearContent.attachRoot mode).1.tree.Hosted 5 (p.clearContent.attachRoot mode).2 := by
  have hregion : p.region = 5 := h.fields.2.2.2.1
  cases mode with
  | false =>
    have hroot : (p.clearContent.attachRoot false).2 = 5 := hregion
    rw [hroot, tree_attachRoot_light (p := p.clearContent) hregion]
    exact hosted_modifyElement (hosted_clearContent h hhosted 5) 5 _
  | true =>
    obtain ⟨t, root', hattach, hgrown, -, -, -, -, -, hrootNode, -⟩ := attachShadow_spec h
    obtain ⟨-, -, -, hkind, -⟩ := clearContent_spec h
    obtain ⟨shadow, hregionNode⟩ := h.region_kind
    have hshaded : t.Hosted 5 root' :=
      hosted_attachShadow ((hkind 5).trans hregionNode) (hosted_clearContent h hhosted) hattach
    rw [attachRoot_shaded (p := p.clearContent) hregion hattach]
    exact hosted_fills hgrown hshaded (fills_addChild hgrown (lt_size_of_kind hrootNode) shadowStyleKind rfl) (.inl rfl)

/-- **A render leaves the region the only host.** -/
theorem housed_render (h : Housed s p urls content root lo top) (html : String) (mode : Bool) :
    ∃ root' lo' top', Housed s (p.render html mode) urls (paintedContent html) root' lo' top' ∧ p.tree.size ≤ lo' := by
  obtain ⟨root', lo', top', hpainted, -, -, hlo, -, -, hroot⟩ := painted_render h.toFramed html mode
  obtain ⟨root'', hroot', hframed, -⟩ := framed_attachRoot h.toFramed mode
  obtain rfl : root'' = root' := hroot'.symm.trans hroot
  have hbounds := hframed.root_bounds
  have hhosted := hosted_attachRoot h.toFramed h.hosted mode
  obtain ⟨t', htree, hfills⟩ := render_eq html mode hframed.grown (hroot ▸ hbounds.2.2)
  rw [hroot] at hfills hhosted
  refine ⟨root'', lo', top', ⟨hpainted, ?_⟩, hlo⟩
  rw [htree]
  exact hosted_applyCss (hframed.fill hfills) (hosted_fills hframed.grown hhosted hfills (.inl rfl))

theorem housed_setCss (h : Housed s p urls content root lo top) (css : String) :
    Housed s (p.setCss css) urls content root lo top ∧
      Spares (fun _ => True) (fun i => i ≠ 4 ∧ i ≠ p.activeStyle) p.tree (p.setCss css).tree := by
  have hframed : Framed s { p with css } urls content root lo top :=
    h.toFramed.congr rfl h.grown (Nat.le_refl _) (fun _ _ => rfl) fun _ _ _ _ => rfl
  obtain ⟨-, -, -, -, hactive⟩ := h.active_bounds
  have hstyle : p.style = 4 := h.fields.2.2.1
  refine ⟨⟨(painted_setCss h.toFramed css).1, hosted_applyCss hframed h.hosted⟩,
    spares_applyCss (p := { p with css }) hframed.grown hactive ⟨?_, ?_⟩⟩
  · exact fun hkept => hkept.1 hstyle
  · exact fun hkept => hkept.2 rfl

theorem housed_clearScripts (h : Housed s p urls content root lo top) :
    Housed s p.clearExternalScripts [] content root lo top ∧ Spares (fun _ => True) (· ≠ 2) p.tree p.clearExternalScripts.tree := by
  obtain ⟨hgrown, -, hlater, hkind, hchildren, -⟩ := foldl_detach h.grown h.inHead
  refine ⟨⟨(painted_clearScripts h.toPainted).1, ?_⟩, hgrown, hlater, fun i _ _ => hkind i, fun i _ => hchildren i⟩
  have hboth : p.clearExternalScripts.tree.Linked ∧ p.clearExternalScripts.tree.Hosted 5 root :=
    List.foldlRecOn (motive := fun t : Tree => t.Linked ∧ t.Hosted 5 root) _ _ ⟨h.grown.linked, h.hosted⟩
      fun t ht id _ => ⟨linked_detach ht.1 id, hosted_detach ht.1 ht.2 id⟩
  exact hboth.2

theorem housed_addScript (h : Housed s p urls content root lo top) (url : String) :
    Housed s (p.addExternalScript url) (urls ++ [url]) content root lo top ∧
      Spares (fun _ => True) (· ≠ 2) p.tree (p.addExternalScript url).tree := by
  have hhead : p.head = 2 := h.fields.1
  have hlt : p.head < p.tree.size := lt_size_of_kind (hhead ▸ h.headNode)
  have hfills := fills_addChild h.grown hlt (scriptKind url) rfl
  have hhost : p.tree.host? p.head = none := hhead ▸ host?_of_element h.headNode
  exact ⟨⟨(painted_addScript h.toPainted url).1, hosted_fills h.grown h.hosted hfills (.inr hhost)⟩,
    hfills.spares (by simp [hhead])⟩

/-- **Other scripts leave the region the only host**, and change nothing outside of the head. -/
theorem housed_scripts (h : Housed s p urls content root lo top) (urls' : List String) :
    Housed s (urls'.foldl addExternalScript p.clearExternalScripts) urls' content root lo top ∧
      Spares (fun _ => True) (· ≠ 2) p.tree (urls'.foldl addExternalScript p.clearExternalScripts).tree := by
  have hadded : ∀ (urls' : List String) {p : Page} {urls : List String}, Housed s p urls content root lo top →
      Housed s (urls'.foldl addExternalScript p) (urls ++ urls') content root lo top ∧
        Spares (fun _ => True) (· ≠ 2) p.tree (urls'.foldl addExternalScript p).tree := by
    intro urls'
    induction urls' with
    | nil => exact fun h => ⟨by rwa [List.append_nil], .refl h.grown⟩
    | cons url urls' ih =>
      intro p urls h
      obtain ⟨hhoused, hspares⟩ := housed_addScript h url
      obtain ⟨hall, hspares'⟩ := ih hhoused
      rw [List.append_assoc] at hall
      exact ⟨hall, hspares.trans hspares'⟩
  obtain ⟨hcleared, hspares⟩ := housed_clearScripts h
  obtain ⟨hall, hspares'⟩ := hadded urls' hcleared
  exact ⟨hall, hspares.trans hspares'⟩

theorem housed_ofSetup (s : Setup) : Housed s (ofSetup s) [] [] 5 6 6 := by
  refine ⟨painted_ofSetup s, ?_⟩
  have hnone (j : Nat) : (ofSetup s).tree.host? j = none := by
    rw [ofSetup_eq, host?]
    simp only [kind?_skeleton]
    split_ifs <;> try rfl
    cases j <;> rfl
  exact ⟨fun j host hj => absurd hj (by simp [hnone]), fun j host hj => absurd hj (by simp [hnone]),
    fun j host hj => absurd hj (by simp [hnone])⟩

/-! ## Elements of the content -/

/-- An element of the content: it stands under the root, and is new with the content. -/
structure Stands (p : Page) (root lo i : Nat) : Prop where
  below : p.tree.Below root i
  element : p.tree.isElement i = true
  new : lo ≤ i

theorem kind?_of_isElement {t : Tree} (h : t.isElement i = true) : ∃ e, t.kind? i = some (.element e) := by
  obtain ⟨e, he⟩ := Option.isSome_iff_exists.1 h
  exact ⟨e, kind?_of_element? he⟩

/-- **The elements from which the way up comes to the region** are those under the root of the content. -/
theorem contains_iff (h : Housed s p urls content root lo top) (he : p.tree.isElement i = true) :
    p.contains i = true ↔ p.tree.Below root i := by
  have hregion : p.region = 5 := h.fields.2.2.2.1
  obtain ⟨e, hkind⟩ := kind?_of_isElement he
  rw [contains, hregion, Bool.and_eq_true, bne_iff_ne, List.contains_iff_mem, mem_composedPath_iff h.grown h.hosted]
  constructor
  · rintro ⟨hne, hleads⟩
    rcases cases_of_leads_region h.grown.linked h.hosted h.region_empty hleads with heq | hhost | hbelow
    · exact absurd heq hne
    · rw [host?_of_element hkind] at hhost
      cases hhost
    · exact hbelow
  · intro hbelow
    have hlt := (h.of_within (within_of_below hbelow)).1
    have hbounds := h.root_bounds
    have hne : (i : Nat) ≠ 5 := by omega
    exact ⟨hne, leads_region_of_below h.grown.linked h.hosted h.root_host hbelow⟩

theorem contains_of_stands (h : Housed s p urls content root lo top) (hi : Stands p root lo i) : p.contains i = true :=
  (contains_iff h hi.element).2 hi.below

/-- What has an attribute and stands under the root of the content is no style element, but belongs to the content. -/
theorem stands_of_below (h : Housed s p urls content root lo top) {key value : String} (hi : p.tree.Below root i)
    (hvalue : p.tree.attribute? i key = some value) : Stands p root lo i := by
  obtain ⟨e, he, hattribute⟩ := Option.bind_eq_some_iff.1 hvalue
  have hkind := kind?_of_element? he
  refine ⟨hi, by rw [isElement, he]; rfl, ?_⟩
  rcases h.below_root (within_of_below hi) with hstyle | ⟨text, hleaf, -⟩ | hrange
  · rcases h.mode with hlight | ⟨style, hshaded⟩
    · rw [hlight.inUse] at hstyle
      cases hstyle
    · rw [hshaded.inUse] at hstyle
      obtain rfl := Option.some.inj hstyle
      obtain rfl := Kind.element.inj (Option.some.inj (hshaded.styleNode.symm.trans hkind))
      cases hattribute
  · rw [hkind] at hleaf
    cases hleaf
  · exact hrange.1

/-- Content that keeps its nodes keeps its elements. -/
theorem Stands.congr (h : Painted s p urls content root lo top) {p' : Page}
    (hspares : Spares (fun _ => True) (fun i => i ≠ 2 ∧ i ≠ 4 ∧ i ≠ p.activeStyle) p.tree p'.tree) (hi : Stands p root lo i) :
    Stands p' root lo i := by
  obtain ⟨hactive, hregion, hactiveRoot, hactiveLo, -⟩ := h.active_bounds
  have hbounds := h.root_bounds
  have hrange := h.range
  have hkept : ∀ a, a = root ∨ lo ≤ a → a ≠ 2 ∧ a ≠ 4 ∧ a ≠ p.activeStyle := by
    intro a ha
    omega
  -- under the root there is also the style element, but only texts stand under that
  have hbelow : ∀ {a}, p.tree.Below root a → p'.tree.Below root a ∨ ∃ text, p.tree.Leaf a (.text text) := by
    intro a ha
    induction ha with
    | single hmem =>
      refine .inl (.single ?_)
      rwa [hspares.children root hbounds.2.2 (hkept root (.inl rfl))]
    | @tail a b hab hmem ih =>
      rcases ih with ih | ⟨text, -, hempty⟩
      · rcases h.below_root (within_of_below hab) with hstyle | ⟨text, -, hempty⟩ | hplace
        · rw [show a = p.activeStyle by rw [activeStyle, hstyle]; rfl] at hmem
          exact .inr (exists_of_forall₂ h.text hmem)
        · rw [hempty] at hmem
          exact absurd hmem List.not_mem_nil
        · refine .inl (ih.tail ?_)
          rwa [hspares.children a (by omega) (hkept a (.inr hplace.1))]
      · rw [hempty] at hmem
        exact absurd hmem List.not_mem_nil
  obtain ⟨e, hkind⟩ := kind?_of_isElement hi.element
  have hlt : i < p.tree.size := lt_size_of_kind hkind
  refine ⟨?_, ?_, hi.new⟩
  · rcases hbelow hi.below with hbelow | ⟨text, hleaf, -⟩
    · exact hbelow
    · rw [hkind] at hleaf
      cases hleaf
  · have hkind' := (hspares.kind i hlt trivial).trans hkind
    rw [isElement, element?_of_kind hkind']
    rfl

end Page

end Preview

end LiveMarkup
