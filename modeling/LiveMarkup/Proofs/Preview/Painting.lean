/-
What a preview page shows.

The first six nodes of a page are its skeleton. Everything else hangs on it: the scripts behind the style element of
the head, the content in the region or in its shadow tree, and the text of the style sheet in the style element in
use. `Framed` says where all this hangs, and `Painted` adds the style sheet; writing a style sheet, other content and
other scripts keep both (`painted_applyCss`, `painted_render`, `painted_scripts`). So the markup of a page depends
only on what was painted (`html_of_painted`), and what a render replaces is no longer attached
(`not_attached_render`).
-/
import LiveMarkup.Preview.Page
import LiveMarkup.Proofs.Dom.Growth
import Mathlib.Data.List.Forall2

set_option autoImplicit false

namespace LiveMarkup.Preview

open Tree View

/-! ## What is painted -/

/-- The region of a page, with its shadow tree. -/
def regionKind (s : Setup) (shadow : Option NodeId) : Kind :=
  .element { (Element.ofName "div").setAttribute "id" s.contentId with shadow }

/-- The element of a script that a page uses. -/
def scriptKind (url : String) : Kind := elementWith "script" "src" url

/-- The style element of a shadow tree. -/
def shadowStyleKind : Kind := .element (.ofName "style")

/-- The texts of a style element. -/
def styleTexts (css : String) : List String :=
  if (escapeStyleText css).isEmpty then [] else [escapeStyleText css]

/-- What is shown for markup. -/
def paintedContent (html : String) : List View :=
  match Html.parse html with
  | .ok content => content.picturesOf (content.children Tree.root)
  | .error _ => [.node 0 (.text html) [] []]

namespace Page

/-- The style element in use. -/
def activeStyle (p : Page) : Nat := p.shadowStyle.getD p.style

/-- In light mode the content is in the region, which has no shadow tree. -/
structure Light (s : Setup) (p : Page) (root : Nat) : Prop where
  mode : p.shadowMode = false
  inUse : p.shadowStyle = none
  regionNode : p.tree.kind? 5 = some (regionKind s none)
  root_eq : root = 5

/-- In shadow mode the content is in the shadow tree of the region, which begins with a style element. -/
structure Shaded (s : Setup) (p : Page) (root lo style : Nat) : Prop where
  mode : p.shadowMode = true
  inUse : p.shadowStyle = some style
  regionNode : p.tree.kind? 5 = some (regionKind s (some root)) ∧ p.tree.children 5 = []
  rootNode : p.tree.kind? root = some (.fragment (some 5))
  styleNode : p.tree.kind? style = some shadowStyleKind
  places : 5 < root ∧ root < style ∧ style < lo

/-- A page with its skeleton: the elements that every page has. -/
structure Skeleton (s : Setup) (p : Page) : Prop where
  fields : p.head = 2 ∧ p.body = 3 ∧ p.style = 4 ∧ p.region = 5 ∧ p.regionId = s.contentId
  document : p.tree.kind? 0 = some .document ∧ p.tree.children 0 = [1]
  outer : p.tree.kind? 1 = some (.element (.ofName "html")) ∧ p.tree.children 1 = [2, 3]
  headNode : p.tree.kind? 2 = some (.element (.ofName "head"))
  bodyNode : p.tree.kind? 3 = some (.element (.ofName "body")) ∧ p.tree.children 3 = [5]
  styleNode : p.tree.kind? 4 = some (elementWith "style" "id" s.styleId)

/-- A page with its skeleton, scripts and content. The content takes a range of places. -/
structure Framed (s : Setup) (p : Page) (urls : List String) (content : List View) (root lo top : Nat) : Prop
    extends Skeleton s p where
  grown : p.tree.Grown
  inHead : p.tree.children 2 = 4 :: p.externalScripts
  scripts : List.Forall₂ (fun i url => p.tree.Leaf i (scriptKind url)) p.externalScripts urls
  scriptPlaces : ∀ i : Nat, i ∈ p.externalScripts → 5 < i ∧ (i < lo ∨ top ≤ i)
  mode : p.Light s root ∨ ∃ style, p.Shaded s root lo style
  range : 5 < lo ∧ lo ≤ top ∧ top ≤ p.tree.size
  closed : ∀ a b : Nat, lo ≤ a → a < top → b ∈ p.tree.held a → b < top
  filled : ∃ cs, p.tree.children root = p.shadowStyle.toList ++ cs ∧ (∀ c : Nat, c ∈ cs → lo ≤ c ∧ c < top) ∧
    cs.map p.tree.picture = content

/-- A page with everything that it shows. -/
structure Painted (s : Setup) (p : Page) (urls : List String) (content : List View) (root lo top : Nat) : Prop
    extends Framed s p urls content root lo top where
  text : List.Forall₂ (fun i text => p.tree.Leaf i (.text text)) (p.tree.children p.activeStyle) (styleTexts p.css)
  idle : p.shadowStyle.isSome = true → p.tree.children 4 = []

variable {s : Setup} {p : Page} {urls : List String} {content : List View} {root lo top : Nat} {t' : Tree}

theorem Framed.size (h : Framed s p urls content root lo top) : 5 < p.tree.size := by
  rcases h.mode with hlight | ⟨style, hshaded⟩
  · exact lt_size_of_kind hlight.regionNode
  · exact lt_size_of_kind hshaded.regionNode.1

/-- Where the content hangs. -/
theorem Framed.root_bounds (h : Framed s p urls content root lo top) : 5 ≤ root ∧ root < lo ∧ root < p.tree.size := by
  have hrange := h.range.1
  have hsize := h.size
  rcases h.mode with hlight | ⟨style, hshaded⟩
  · have := hlight.root_eq
    omega
  · have hplaces := hshaded.places
    have := lt_size_of_kind hshaded.rootNode
    omega

theorem Light.active (h : p.Light s root) (hstyle : p.style = 4) : p.activeStyle = 4 := by
  rw [activeStyle, h.inUse, Option.getD_none, hstyle]

theorem Shaded.active {style : Nat} (h : p.Shaded s root lo style) : p.activeStyle = style := by
  rw [activeStyle, h.inUse, Option.getD_some]

/-- Where the style element in use stands. -/
theorem Framed.active_bounds (h : Framed s p urls content root lo top) :
    4 ≤ p.activeStyle ∧ p.activeStyle ≠ 5 ∧ p.activeStyle ≠ root ∧ p.activeStyle < lo ∧ p.activeStyle < p.tree.size := by
  have hrange := h.range.1
  have hsize := h.size
  rcases h.mode with hlight | ⟨style, hshaded⟩
  · rw [hlight.active h.fields.2.2.1, hlight.root_eq]
    omega
  · have hplaces := hshaded.places
    have := lt_size_of_kind hshaded.styleNode
    rw [hshaded.active]
    omega

theorem scriptKind_ne_shadowStyle (url : String) : scriptKind url ≠ shadowStyleKind := by
  intro h
  exact absurd (congrArg Element.name (Kind.element.inj h)) (by decide : "script" ≠ "style")

theorem exists_of_forall₂ {α β : Type} {R : α → β → Prop} {xs : List α} {ys : List β} {x : α}
    (h : List.Forall₂ R xs ys) (hx : x ∈ xs) : ∃ y, R x y := by
  induction h with
  | nil => simp at hx
  | cons hxy _ ih =>
    rcases List.mem_cons.1 hx with rfl | hx
    · exact ⟨_, hxy⟩
    · exact ih hx

/-- A script is no node that anything else hangs on. -/
theorem Framed.script_ne {i : Nat} (h : Framed s p urls content root lo top) (hscript : i ∈ p.externalScripts) :
    i ≠ p.activeStyle ∧ i ≠ root ∧ 5 < i ∧ i < p.tree.size := by
  obtain ⟨url, hkind, -⟩ := exists_of_forall₂ h.scripts hscript
  have hplace := (h.scriptPlaces i hscript).1
  have hsize := lt_size_of_kind hkind
  rcases h.mode with hlight | ⟨style, hshaded⟩
  · rw [hlight.active h.fields.2.2.1, hlight.root_eq]
    omega
  · refine ⟨?_, ?_, hplace, hsize⟩
    · rintro rfl
      rw [hshaded.active, hshaded.styleNode] at hkind
      exact scriptKind_ne_shadowStyle url (Option.some.inj hkind).symm
    · rintro rfl
      rw [hshaded.rootNode] at hkind
      exact absurd (Option.some.inj hkind) nofun

/-- Leaves stay leaves where nothing changes. -/
theorem leaves_congr {t t' : Tree} {kindOf : String → Kind} {ids : List Nat} {names : List String}
    (h : List.Forall₂ (fun i name => t.Leaf i (kindOf name)) ids names)
    (hsame : ∀ i : Nat, i ∈ ids → t'.kind? i = t.kind? i ∧ t'.children i = t.children i) :
    List.Forall₂ (fun i name => t'.Leaf i (kindOf name)) ids names := by
  induction h with
  | nil => exact .nil
  | cons hleaf _ ih =>
    obtain ⟨hkind, hchildren⟩ := hsame _ List.mem_cons_self
    exact .cons ⟨hkind.trans hleaf.1, hchildren.trans hleaf.2⟩ (ih fun i hi => hsame i (List.mem_cons_of_mem _ hi))

/-- A page keeps its skeleton where its elements stay as they are. -/
theorem Skeleton.congr {p' : Page} (h : Skeleton s p)
    (hp : p' = { p with
      tree := p'.tree, css := p'.css, shadowStyle := p'.shadowStyle, shadowMode := p'.shadowMode
      externalScripts := p'.externalScripts })
    (hkind : ∀ i : Nat, i < 5 → p'.tree.kind? i = p.tree.kind? i)
    (hchildren : ∀ i : Nat, i < 4 → i ≠ 2 → p'.tree.children i = p.tree.children i) : Skeleton s p' := by
  refine ⟨?_, ?_, ?_, ?_, ?_, ?_⟩
  · rw [hp]
    exact h.fields
  · rw [hkind 0 (by omega), hchildren 0 (by omega) (by omega)]
    exact h.document
  · rw [hkind 1 (by omega), hchildren 1 (by omega) (by omega)]
    exact h.outer
  · rw [hkind 2 (by omega)]
    exact h.headNode
  · rw [hkind 3 (by omega), hchildren 3 (by omega) (by omega)]
    exact h.bodyNode
  · rw [hkind 4 (by omega)]
    exact h.styleNode

/-- A page keeps its mode where its region and what hangs on it stay as they are. -/
theorem Framed.mode_congr {p' : Page} (h : Framed s p urls content root lo top) (hmode : p'.shadowMode = p.shadowMode)
    (hstyle : p'.shadowStyle = p.shadowStyle)
    (hkind : ∀ i : Nat, i < p.tree.size → p'.tree.kind? i = p.tree.kind? i)
    (hchildren : root ≠ 5 → p'.tree.children 5 = p.tree.children 5) :
    p'.Light s root ∨ ∃ style, p'.Shaded s root lo style := by
  rcases h.mode with hlight | ⟨style, hshaded⟩
  · refine .inl ⟨hmode.trans hlight.mode, hstyle.trans hlight.inUse, ?_, hlight.root_eq⟩
    rw [hkind 5 h.size]
    exact hlight.regionNode
  · have hne : root ≠ 5 := Nat.ne_of_gt hshaded.places.1
    refine .inr ⟨style, hmode.trans hshaded.mode, hstyle.trans hshaded.inUse, ?_, ?_, ?_, hshaded.places⟩
    · rw [hkind 5 h.size, hchildren hne]
      exact hshaded.regionNode
    · rw [hkind root (lt_size_of_kind hshaded.rootNode)]
      exact hshaded.rootNode
    · rw [hkind style (lt_size_of_kind hshaded.styleNode)]
      exact hshaded.styleNode

/-- A page keeps its content where it differs in its scripts and in the texts of its style elements. -/
theorem Framed.keep {p' : Page} {urls' : List String} (h : Framed s p urls content root lo top)
    (hp : p' = { p with tree := p'.tree, css := p'.css, externalScripts := p'.externalScripts })
    (hgrown : p'.tree.Grown) (hsize : p.tree.size ≤ p'.tree.size)
    (hkind : ∀ i : Nat, i < p.tree.size → p'.tree.kind? i = p.tree.kind? i)
    (hchildren : ∀ i : Nat, i < p.tree.size → i ≠ 2 → i ≠ 4 → i ≠ p.activeStyle →
      p'.tree.children i = p.tree.children i)
    (hhead : p'.tree.children 2 = 4 :: p'.externalScripts)
    (hscripts : List.Forall₂ (fun i url => p'.tree.Leaf i (scriptKind url)) p'.externalScripts urls')
    (hplaces : ∀ i : Nat, i ∈ p'.externalScripts → 5 < i ∧ (i < lo ∨ top ≤ i)) :
    Framed s p' urls' content root lo top := by
  obtain ⟨hactive, hregion, hroot, hlo, -⟩ := h.active_bounds
  have hbounds := h.root_bounds
  have hrange := h.range
  have hfive := h.size
  have hshadow : p'.shadowMode = p.shadowMode ∧ p'.shadowStyle = p.shadowStyle := by
    rw [hp]
    exact ⟨rfl, rfl⟩
  have hin : ∀ i : Nat, lo ≤ i → i < top →
      p'.tree.kind? i = p.tree.kind? i ∧ p'.tree.children i = p.tree.children i := fun i hi hi' =>
    ⟨hkind i (by omega), hchildren i (by omega) (by omega) (by omega) (by omega)⟩
  refine ⟨h.toSkeleton.congr (by rw [hp]) (fun i hi => hkind i (by omega)) fun i hi hne =>
    hchildren i (by omega) hne (by omega) (by omega), hgrown, hhead, hscripts, hplaces,
    h.mode_congr hshadow.1 hshadow.2 hkind fun _ => hchildren 5 hfive (by omega) (by omega) (Ne.symm hregion), by omega,
    fun a b ha ha' hb => ?_, ?_⟩
  · rw [held_congr (hin a ha ha').1 (hin a ha ha').2] at hb
    exact h.closed a b ha ha' hb
  · obtain ⟨cs, hroot', hcs, hpictures⟩ := h.filled
    refine ⟨cs, ?_, hcs, ?_⟩
    · rw [hchildren root hbounds.2.2 (by omega) (by omega) (Ne.symm hroot), hroot', hshadow.2]
    · rw [← hpictures]
      refine List.map_congr_left fun c hmem => ?_
      exact picture_congr h.grown hgrown hrange.2.2 h.closed hin (hcs c hmem).1 (hcs c hmem).2

/-- A page that differs in the texts of its style elements is framed as before. -/
theorem Framed.congr {p' : Page} (h : Framed s p urls content root lo top)
    (hp : p' = { p with tree := p'.tree, css := p'.css }) (hgrown : p'.tree.Grown) (hsize : p.tree.size ≤ p'.tree.size)
    (hkind : ∀ i : Nat, i < p.tree.size → p'.tree.kind? i = p.tree.kind? i)
    (hchildren : ∀ i : Nat, i < p.tree.size → i ≠ 4 → i ≠ p.activeStyle → p'.tree.children i = p.tree.children i) :
    Framed s p' urls content root lo top := by
  have hactive := h.active_bounds
  have hfive := h.size
  have hsame : p'.externalScripts = p.externalScripts := by rw [hp]
  refine h.keep (by rw [hp]) hgrown hsize hkind (fun i hi _ => hchildren i hi) ?_ ?_ ?_
  · rw [hchildren 2 (by omega) (by omega) (by omega), hsame]
    exact h.inHead
  · rw [hsame]
    refine leaves_congr h.scripts fun i hi => ?_
    obtain ⟨hne, -, hplace, hlt⟩ := h.script_ne hi
    exact ⟨hkind i hlt, hchildren i hlt (by omega) hne⟩
  · rw [hsame]
    exact h.scriptPlaces

/-! ## The style sheet -/

/-- A page without the texts of its style elements. -/
def unstyled (p : Page) : Tree := (p.tree.clearChildren p.style).clearChildren p.activeStyle

theorem children_unstyled (p : Page) (i : Nat) :
    p.unstyled.children i = if i = p.activeStyle ∨ i = p.style then [] else p.tree.children i := by
  rw [unstyled, children_clearChildren, children_clearChildren]
  by_cases hactive : i = p.activeStyle
  · rw [if_pos hactive, if_pos (.inl hactive)]
  · by_cases hstyle : i = p.style
    · rw [if_neg hactive, if_pos hstyle, if_pos (.inr hstyle)]
    · rw [if_neg hactive, if_neg hstyle, if_neg (by tauto)]

theorem applyCss_eq (p : Page) :
    p.applyCss = { p with
      tree := if (escapeStyleText p.css).isEmpty then p.unstyled
        else (p.unstyled.addChild (.text (escapeStyleText p.css)) p.activeStyle none).1 } := rfl

/-- **The style sheet is written into the style element in use**, and into no other. -/
theorem painted_applyCss (h : Framed s p urls content root lo top) :
    Painted s p.applyCss urls content root lo top ∧ Later p.tree p.applyCss.tree ∧
      ∀ b : Nat, b ∈ p.applyCss.tree.children p.activeStyle → p.tree.size ≤ b := by
  obtain ⟨-, -, -, -, hactive⟩ := h.active_bounds
  have hsize : p.unstyled.size = p.tree.size := by rw [unstyled, size_clearChildren, size_clearChildren]
  have hgrown : p.unstyled.Grown := grown_clearChildren (grown_clearChildren h.grown _) _
  have hlater : Later p.tree p.unstyled := (later_clearChildren _ _).trans (later_clearChildren _ _)
  have hkind (i : Nat) : p.unstyled.kind? i = p.tree.kind? i := by
    rw [unstyled, kind?_clearChildren, kind?_clearChildren]
  have hstyle : p.style = 4 := h.fields.2.2.1
  have hchildren := p.children_unstyled
  rw [hstyle] at hchildren
  have hother (i : Nat) (hne : i ≠ 4) (hne' : i ≠ p.activeStyle) : p.unstyled.children i = p.tree.children i := by
    rw [hchildren, if_neg (by tauto)]
  rw [applyCss_eq]
  by_cases hempty : (escapeStyleText p.css).isEmpty = true
  · rw [if_pos hempty]
    refine ⟨⟨h.congr rfl hgrown (Nat.le_of_eq hsize.symm) (fun i _ => hkind i) fun i _ => hother i, ?_, ?_⟩, hlater, ?_⟩
    · rw [styleTexts, if_pos hempty]
      change List.Forall₂ _ (p.unstyled.children p.activeStyle) []
      rw [hchildren, if_pos (.inl rfl)]
      exact .nil
    · intro _
      change p.unstyled.children 4 = []
      rw [hchildren, if_pos (.inr rfl)]
    · intro b hb
      rw [hchildren, if_pos (.inl rfl)] at hb
      simp at hb
  · rw [if_neg hempty]
    have hlt : p.activeStyle < p.unstyled.size := by omega
    have hadded (i : Nat) := children_addChild hlt (.text (escapeStyleText p.css)) i
    have hnew (i : Nat) := kind?_addChild p.unstyled (.text (escapeStyleText p.css)) p.activeStyle i
    have hfills := fills_addChild hgrown hlt (.text (escapeStyleText p.css)) rfl
    have hall : (p.unstyled.addChild (.text (escapeStyleText p.css)) p.activeStyle none).1.children p.activeStyle =
        [p.unstyled.size] := by
      rw [hadded, if_pos rfl, hchildren, if_pos (.inl rfl), List.nil_append]
    -- what the new tree holds is all said, so it need not be looked into any more
    generalize (p.unstyled.addChild (.text (escapeStyleText p.css)) p.activeStyle none).1 = t at *
    refine ⟨⟨h.congr rfl hfills.grown ?_ ?_ ?_, ?_, ?_⟩, hlater.trans hfills.later, ?_⟩
    · rw [← hsize]
      exact hfills.size_le
    · intro i hi
      rw [← hkind]
      exact hfills.kind i (by omega)
    · intro i hi hne hne'
      rw [← hother i hne hne']
      exact hfills.children i (by omega) hne'
    · rw [styleTexts, if_neg hempty]
      change List.Forall₂ _ (t.children p.activeStyle) _
      rw [hall]
      refine .cons ⟨?_, ?_⟩ .nil
      · change t.kind? p.unstyled.size = _
        rw [hnew, if_pos rfl]
      · change t.children p.unstyled.size = _
        rw [hadded, if_neg (by omega), children_of_le (Nat.le_refl _)]
    · intro hsome
      change t.children 4 = []
      have hne : (4 : Nat) ≠ p.activeStyle := by
        rcases h.mode with hlight | ⟨style, hshaded⟩
        · rw [hlight.inUse] at hsome
          cases hsome
        · have hplaces := hshaded.places
          rw [hshaded.active]
          omega
      rw [hadded, if_neg hne, hchildren, if_pos (.inr rfl)]
    · intro b hb
      change b ∈ t.children p.activeStyle at hb
      rw [hall, List.mem_singleton] at hb
      omega

/-- Writing the style sheet leaves all nodes but the style elements as they are. -/
theorem spares_applyCss {lists : Nat → Prop} (hgrown : p.tree.Grown) (hactive : p.activeStyle < p.tree.size)
    (hlists : ¬ lists p.style ∧ ¬ lists p.activeStyle) : Spares (fun _ => True) lists p.tree p.applyCss.tree := by
  have hcleared : Spares (fun _ => True) lists p.tree p.unstyled :=
    (spares_clearChildren hgrown hlists.1).trans (spares_clearChildren (grown_clearChildren hgrown _) hlists.2)
  rw [applyCss_eq]
  dsimp only
  by_cases hempty : (escapeStyleText p.css).isEmpty = true
  · rw [if_pos hempty]
    exact hcleared
  · rw [if_neg hempty]
    have hlt : p.activeStyle < p.unstyled.size := Nat.lt_of_lt_of_le hactive hcleared.later.size_le
    exact hcleared.trans ((fills_addChild hcleared.grown hlt (.text (escapeStyleText p.css)) rfl).spares hlists.2)

/-! ## Content -/

theorem Framed.shadow_eq (h : Framed s p urls content root lo top) :
    p.tree.shadow? p.region = if p.shadowMode then some root else none := by
  have hregion : p.region = 5 := h.fields.2.2.2.1
  rw [hregion]
  rcases h.mode with hlight | ⟨style, hshaded⟩
  · rw [shadow?_of_kind hlight.regionNode, hlight.mode]
    rfl
  · rw [shadow?_of_kind hshaded.regionNode.1, hshaded.mode]
    rfl

/-- A page with other nodes in and behind its region, and no content yet. -/
theorem Framed.emptied {p' : Page} {root' : Nat} (h : Framed s p urls content root lo top)
    (hp : p' = { p with tree := p'.tree, shadowStyle := p'.shadowStyle, shadowMode := p'.shadowMode })
    (hgrown : p'.tree.Grown) (hsize : p.tree.size ≤ p'.tree.size)
    (hkind : ∀ i : Nat, i < p.tree.size → i ≠ 5 → p'.tree.kind? i = p.tree.kind? i)
    (hchildren : ∀ i : Nat, i < p.tree.size → i ≠ 5 → i ≠ root → p'.tree.children i = p.tree.children i)
    (hmode : p'.Light s root' ∨ ∃ style, p'.Shaded s root' p'.tree.size style)
    (hroot : p'.tree.children root' = p'.shadowStyle.toList) :
    Framed s p' urls [] root' p'.tree.size p'.tree.size := by
  have hbounds := h.root_bounds
  have hfive := h.size
  have hsame : p'.externalScripts = p.externalScripts := by rw [hp]
  refine ⟨h.toSkeleton.congr (by rw [hp]) (fun i hi => hkind i (by omega) (by omega)) fun i hi _ =>
    hchildren i (by omega) (by omega) (by omega), hgrown, ?_, ?_, ?_, hmode, by omega, by omega, ?_⟩
  · rw [hchildren 2 (by omega) (by omega) (by omega), hsame]
    exact h.inHead
  · rw [hsame]
    refine leaves_congr h.scripts fun i hi => ?_
    obtain ⟨-, hne, hplace, hlt⟩ := h.script_ne hi
    exact ⟨hkind i hlt (by omega), hchildren i hlt (by omega) hne⟩
  · intro i hi
    rw [hsame] at hi
    have hne := h.script_ne hi
    exact ⟨hne.2.2.1, .inl (by omega)⟩
  · exact ⟨[], by rw [hroot, List.append_nil], by simp, rfl⟩

/-- Content is put behind what stands under the root already. -/
theorem Framed.fill {ps : List View} (h : Framed s p urls [] root p.tree.size p.tree.size)
    (hfills : Fills p.tree root ps t') :
    Framed s { p with tree := t' } urls ps root p.tree.size t'.size := by
  have hbounds := h.root_bounds
  have hfive := h.size
  refine ⟨h.toSkeleton.congr rfl (fun i hi => hfills.kind i (by omega)) fun i hi _ =>
    hfills.children i (by omega) (by omega), hfills.grown, ?_, ?_, ?_,
    h.mode_congr rfl rfl hfills.kind fun hne => hfills.children 5 hfive (Ne.symm hne),
    ⟨by omega, hfills.size_le, Nat.le_refl _⟩, fun a b _ _ hb => (hfills.grown.later a b hb).2, ?_⟩
  · exact (hfills.children 2 (by omega) (by omega)).trans h.inHead
  · refine leaves_congr h.scripts fun i hi => ?_
    obtain ⟨-, hne, -, hlt⟩ := h.script_ne hi
    exact ⟨hfills.kind i hlt, hfills.children i hlt hne⟩
  · intro i hi
    have hne := h.script_ne hi
    exact ⟨hne.2.2.1, .inl hne.2.2.2⟩
  · obtain ⟨cs, hroot, -, hnone⟩ := h.filled
    obtain rfl := List.map_eq_nil_iff.1 hnone
    obtain ⟨new, hnew, hplaces, hpictures⟩ := hfills.added
    refine ⟨new, ?_, fun c hmem => ⟨hplaces c hmem, ?_⟩, hpictures⟩
    · rw [hnew, hroot, List.append_nil]
    · exact (hfills.grown.later root c (mem_held_of_children (by rw [hnew]; simp [hmem]))).2

theorem tree_clearContent (hregion : p.region = 5) : p.clearContent.tree =
    ((p.tree.clearChildren 5).shadow? 5).elim (p.tree.clearChildren 5) (p.tree.clearChildren 5).clearChildren := by
  rw [← hregion, clearContent]
  dsimp only
  cases (p.tree.clearChildren p.region).shadow? p.region <;> rfl

/-- A page without content is changed in its region only. -/
theorem clearContent_spec (h : Framed s p urls content root lo top) :
    p.clearContent.tree.Grown ∧ p.clearContent.tree.size = p.tree.size ∧ Later p.tree p.clearContent.tree ∧
      (∀ i : Nat, p.clearContent.tree.kind? i = p.tree.kind? i) ∧
      (∀ i : Nat, i ≠ 5 → i ≠ root → p.clearContent.tree.children i = p.tree.children i) ∧
      p.clearContent.tree.children 5 = [] ∧ p.clearContent.tree.children root = [] := by
  have htree := tree_clearContent h.fields.2.2.2.1
  have hinner (i : Nat) := children_clearChildren p.tree 5 i
  rcases h.mode with hlight | ⟨style, hshaded⟩
  · have hshadow := shadow?_of_kind ((kind?_clearChildren p.tree 5 5).trans hlight.regionNode)
    rw [hshadow] at htree
    rw [htree, hlight.root_eq]
    refine ⟨grown_clearChildren h.grown 5, size_clearChildren _ 5, later_clearChildren _ 5,
      fun i => kind?_clearChildren _ 5 i,
      fun i hi _ => ?_, ?_, ?_⟩
    · exact (hinner i).trans (if_neg hi)
    · exact (hinner 5).trans (if_pos rfl)
    · exact (hinner 5).trans (if_pos rfl)
  · have hshadow := shadow?_of_kind ((kind?_clearChildren p.tree 5 5).trans hshaded.regionNode.1)
    have hplaces := hshaded.places
    have houter (i : Nat) := children_clearChildren (p.tree.clearChildren 5) root i
    rw [hshadow] at htree
    rw [htree]
    refine ⟨grown_clearChildren (grown_clearChildren h.grown 5) root, ?_, ?_, fun i => ?_, fun i hi hi' => ?_, ?_, ?_⟩
    · exact (size_clearChildren _ root).trans (size_clearChildren _ 5)
    · exact (later_clearChildren _ 5).trans (later_clearChildren _ root)
    · exact (kind?_clearChildren _ root i).trans (kind?_clearChildren _ 5 i)
    · exact ((houter i).trans (if_neg hi')).trans ((hinner i).trans (if_neg hi))
    · exact ((houter 5).trans (if_neg (by omega))).trans ((hinner 5).trans (if_pos rfl))
    · exact (houter root).trans (if_pos rfl)

/-- A region without content gets a shadow tree without nodes, unless it has one. -/
theorem attachShadow_spec (h : Framed s p urls content root lo top) :
    ∃ (t : Tree) (root' : Nat), p.clearContent.tree.attachShadow 5 = (t, some root') ∧ t.Grown ∧ p.tree.size ≤ t.size ∧
      Later p.tree t ∧ (∀ i : Nat, i < p.tree.size → i ≠ 5 → t.kind? i = p.tree.kind? i) ∧
      (∀ i : Nat, i < p.tree.size → i ≠ 5 → i ≠ root → t.children i = p.tree.children i) ∧
      t.kind? 5 = some (regionKind s (some root')) ∧ t.kind? root' = some (.fragment (some 5)) ∧
      t.children 5 = [] ∧ t.children root' = [] ∧ 5 < root' ∧ (root' = root ∨ p.tree.size ≤ root') := by
  obtain ⟨hgrown, hsize, hlater, hkind, hchildren, hfive, hroot⟩ := clearContent_spec h
  have hlt := h.size
  rcases h.mode with hlight | ⟨style, hshaded⟩
  · have hregion := (hkind 5).trans hlight.regionNode
    have halloc := grown_alloc hgrown (show (Kind.fragment (some 5)).links = [] from rfl)
    have hregion' : (p.clearContent.tree.alloc (.fragment (some 5))).1.kind? 5 = some (regionKind s none) := by
      rw [kind?_alloc, if_neg (by omega), hregion]
    have hkinds (i : Nat) : i ≠ 5 → ((p.clearContent.tree.alloc (.fragment (some 5))).1.modifyElement 5 fun e =>
        { e with shadow := some p.clearContent.tree.size }).kind? i =
          if i = p.clearContent.tree.size then some (.fragment (some 5)) else p.tree.kind? i := by
      intro hi
      rw [kind?_setShadow hregion', if_neg hi, kind?_alloc, hkind]
    refine ⟨_, _, attachShadow_of_none hregion rfl, ?_, ?_, ?_, ?_, ?_, ?_, ?_, ?_, ?_, by omega, .inr (by omega)⟩
    · refine grown_setShadow halloc hregion' ?_
      rintro root ⟨⟩
      rw [size_alloc]
      omega
    · rw [size_modifyElement, size_alloc]
      omega
    · refine later_setShadow (hlater.trans (later_alloc _ rfl)) hregion' ?_
      rintro root ⟨⟩
      omega
    · intro i hi hne
      rw [hkinds i hne, if_neg (by omega)]
    · intro i hi hne hne'
      rw [children_modifyElement, children_alloc, hchildren i hne hne']
    · rw [kind?_setShadow hregion', if_pos rfl]
      rfl
    · rw [hkinds _ (by omega), if_pos rfl]
    · rw [children_modifyElement, children_alloc, hfive]
    · rw [children_modifyElement, children_alloc, children_of_le (Nat.le_refl _)]
  · have hregion := (hkind 5).trans hshaded.regionNode.1
    exact ⟨_, root, attachShadow_of_kind hregion rfl, hgrown, Nat.le_of_eq hsize.symm, hlater, fun i _ _ => hkind i,
      fun i _ => hchildren i, hregion, (hkind root).trans hshaded.rootNode, hfive, hroot, hshaded.places.1,
      .inl rfl⟩

theorem tree_attachRoot_light (hregion : p.region = 5) :
    (p.attachRoot false).1.tree = p.tree.modifyElement 5 fun e => { e with shadow := none } := by
  rw [← hregion]
  rfl

theorem attachRoot_shaded {t : Tree} {root' : Nat} (hregion : p.region = 5)
    (hattach : p.tree.attachShadow 5 = (t, some root')) : p.attachRoot true = ({ p with
      shadowMode := true
      tree := (t.addChild shadowStyleKind root' none).1
      shadowStyle := some t.size }, root') := by
  rw [attachRoot, if_pos rfl]
  dsimp only
  rw [hregion, hattach]
  rfl

/-- **The page after its content was cleared and a root attached** has its skeleton and scripts, and nothing that hangs
on the root but a new style element. -/
theorem framed_attachRoot (h : Framed s p urls content root lo top) (mode : Bool) :
    ∃ root' : Nat, (p.clearContent.attachRoot mode).2 = root' ∧
      Framed s (p.clearContent.attachRoot mode).1 urls [] root' (p.clearContent.attachRoot mode).1.tree.size
        (p.clearContent.attachRoot mode).1.tree.size ∧
      Later p.tree (p.clearContent.attachRoot mode).1.tree ∧ (root' ≤ root ∨ p.tree.size ≤ root') ∧
      ∀ style : Nat, (p.clearContent.attachRoot mode).1.shadowStyle = some style → p.tree.size ≤ style := by
  have hregion : p.region = 5 := h.fields.2.2.2.1
  have hlt := h.size
  cases mode with
  | false =>
    obtain ⟨hgrown, hsize, hlater, hkind, hchildren, hfive, -⟩ := clearContent_spec h
    obtain ⟨shadow, hregionNode⟩ : ∃ shadow, p.clearContent.tree.kind? 5 = some (regionKind s shadow) := by
      rcases h.mode with hlight | ⟨style, hshaded⟩
      · exact ⟨_, (hkind 5).trans hlight.regionNode⟩
      · exact ⟨_, (hkind 5).trans hshaded.regionNode.1⟩
    have htree := tree_attachRoot_light (p := p.clearContent) hregion
    refine ⟨5, hregion, h.emptied rfl ?_ ?_ ?_ ?_ (.inl ⟨rfl, rfl, ?_, rfl⟩) ?_, ?_, .inl h.root_bounds.1, nofun⟩
    · rw [htree]
      exact grown_setShadow hgrown hregionNode nofun
    · rw [htree, size_modifyElement, hsize]
    · intro i _ hne
      rw [htree, kind?_setShadow hregionNode, if_neg hne, hkind]
    · intro i _ hne hne'
      rw [htree, children_modifyElement, hchildren i hne hne']
    · rw [htree, kind?_setShadow hregionNode, if_pos rfl]
      rfl
    · rw [htree, children_modifyElement, hfive]
      rfl
    · rw [htree]
      exact later_setShadow hlater hregionNode nofun
  | true =>
    obtain ⟨t, root', hattach, hgrown, hsize, hlater, hkind, hchildren, hfive, hrootNode, hregionChildren, hroot, hplace,
      hnew⟩ := attachShadow_spec h
    have hrootlt := lt_size_of_kind hrootNode
    have hpage := attachRoot_shaded (p := p.clearContent) hregion hattach
    have hfills := fills_addChild hgrown hrootlt shadowStyleKind rfl
    have hadded (i : Nat) := children_addChild hrootlt shadowStyleKind i
    have hkinds (i : Nat) := kind?_addChild t shadowStyleKind root' i
    rw [hpage]
    refine ⟨root', rfl, h.emptied rfl hfills.grown (Nat.le_trans hsize hfills.size_le) ?_ ?_ ?_ ?_,
      hlater.trans hfills.later, hnew.imp_left Nat.le_of_eq, ?_⟩
    · intro i hi hne
      exact (hkinds i).trans ((if_neg (by omega)).trans (hkind i hi hne))
    · intro i hi hne hne'
      refine (hadded i).trans ((if_neg ?_).trans (hchildren i hi hne hne'))
      omega
    · refine .inr ⟨t.size, rfl, rfl, ⟨?_, ?_⟩, ?_, ?_, hplace, hrootlt, ?_⟩
      · exact (hkinds 5).trans ((if_neg (by omega)).trans hfive)
      · exact (hadded 5).trans ((if_neg (by omega)).trans hregionChildren)
      · exact (hkinds root').trans ((if_neg (by omega)).trans hrootNode)
      · exact (hkinds t.size).trans (if_pos rfl)
      · change t.size < (t.addChild shadowStyleKind root' none).1.size
        rw [size_addChild]
        omega
    · exact (hadded root').trans ((if_pos rfl).trans (by rw [hroot]; rfl))
    · rintro style ⟨⟩
      exact hsize

/-- What a render does with its root: it puts the content there, and then writes the style sheet. -/
theorem render_eq (html : String) (mode : Bool) (hgrown : (p.clearContent.attachRoot mode).1.tree.Grown)
    (hroot : (p.clearContent.attachRoot mode).2 < (p.clearContent.attachRoot mode).1.tree.size) :
    ∃ t', p.render html mode = { (p.clearContent.attachRoot mode).1 with tree := t' }.applyCss ∧
      Fills (p.clearContent.attachRoot mode).1.tree (p.clearContent.attachRoot mode).2 (paintedContent html) t' := by
  unfold paintedContent render
  dsimp only
  cases Html.parse html with
  | ok content => exact ⟨_, rfl, fills_importChildren hgrown hroot content Tree.root⟩
  | error e => exact ⟨_, rfl, fills_addChild hgrown hroot _ rfl⟩

/-- **A render puts the content of its markup under a root, with nothing else there but the style sheet.** All of it
is new: it stands behind all nodes of before. -/
theorem painted_render (h : Framed s p urls content root lo top) (html : String) (mode : Bool) :
    ∃ root' lo' top', Painted s (p.render html mode) urls (paintedContent html) root' lo' top' ∧
      Later p.tree (p.render html mode).tree ∧ (root' ≤ root ∨ p.tree.size ≤ root') ∧ p.tree.size ≤ lo' ∧
      (∀ style : Nat, (p.render html mode).shadowStyle = some style → p.tree.size ≤ style) ∧
      (∀ b : Nat, b ∈ (p.render html mode).tree.children (p.render html mode).activeStyle → p.tree.size ≤ b) ∧
      (p.clearContent.attachRoot mode).2 = root' := by
  obtain ⟨root', hroot, hframed, hlater, hnew, hstyle⟩ := framed_attachRoot h mode
  have hbounds := hframed.root_bounds
  obtain ⟨t', htree, hfills⟩ := render_eq html mode hframed.grown (hroot ▸ hbounds.2.2)
  rw [htree]
  generalize (p.clearContent.attachRoot mode).1 = p' at hframed hlater hstyle hfills
  rw [hroot] at hfills
  have hfilled := hframed.fill hfills
  obtain ⟨hpainted, hlater', hfresh⟩ := painted_applyCss hfilled
  have hsize := hlater.size_le
  refine ⟨root', _, _, hpainted, (hlater.trans hfills.later).trans hlater', hnew, hsize, hstyle, fun b hb => ?_, hroot⟩
  have hle : p'.tree.size ≤ t'.size := hfills.size_le
  have hfresh' : t'.size ≤ b := hfresh b hb
  omega

/-- Another style sheet changes nothing else of a page. -/
theorem painted_setCss (h : Framed s p urls content root lo top) (css : String) :
    Painted s (p.setCss css) urls content root lo top ∧ Later p.tree (p.setCss css).tree := by
  have hframed : Framed s { p with css } urls content root lo top :=
    h.congr rfl h.grown (Nat.le_refl _) (fun _ _ => rfl) fun _ _ _ _ => rfl
  obtain ⟨hpainted, hlater, -⟩ := painted_applyCss hframed
  exact ⟨hpainted, hlater⟩

/-! ## Scripts -/

/-- A page that differs in its scripts is painted as before. -/
theorem Painted.rescript {p' : Page} {urls' : List String} (h : Painted s p urls content root lo top)
    (hp : p' = { p with tree := p'.tree, externalScripts := p'.externalScripts }) (hgrown : p'.tree.Grown)
    (hsize : p.tree.size ≤ p'.tree.size) (hkind : ∀ i : Nat, i < p.tree.size → p'.tree.kind? i = p.tree.kind? i)
    (hchildren : ∀ i : Nat, i < p.tree.size → i ≠ 2 → p'.tree.children i = p.tree.children i)
    (hhead : p'.tree.children 2 = 4 :: p'.externalScripts)
    (hscripts : List.Forall₂ (fun i url => p'.tree.Leaf i (scriptKind url)) p'.externalScripts urls')
    (hplaces : ∀ i : Nat, i ∈ p'.externalScripts → 5 < i ∧ (i < lo ∨ top ≤ i)) :
    Painted s p' urls' content root lo top := by
  obtain ⟨hactive, -, -, -, hactivelt⟩ := h.active_bounds
  have hfive := h.size
  have hsame : p'.activeStyle = p.activeStyle ∧ p'.css = p.css ∧ p'.shadowStyle = p.shadowStyle := by
    rw [hp]
    exact ⟨rfl, rfl, rfl⟩
  refine ⟨h.toFramed.keep (by rw [hp]) hgrown hsize hkind (fun i hi hne _ _ => hchildren i hi hne) hhead hscripts hplaces,
    ?_, ?_⟩
  · rw [hsame.1, hsame.2.1, hchildren p.activeStyle hactivelt (by omega)]
    refine leaves_congr h.text fun i hi => ?_
    have hlater := h.grown.later p.activeStyle i (mem_held_of_children hi)
    exact ⟨hkind i hlater.2, hchildren i hlater.2 (by omega)⟩
  · rw [hsame.2.2, hchildren 4 (by omega) (by omega)]
    exact h.idle

/-- Taking the children behind the first one out of a node changes its list only. -/
theorem foldl_detach {t : Tree} (h : t.Grown) {parent first : Nat} {ids : List Nat}
    (hids : t.children parent = first :: ids) :
    (ids.foldl (fun t id => t.detach id) t).Grown ∧ (ids.foldl (fun t id => t.detach id) t).size = t.size ∧
      Later t (ids.foldl (fun t id => t.detach id) t) ∧
      (∀ i : Nat, (ids.foldl (fun t id => t.detach id) t).kind? i = t.kind? i) ∧
      (∀ i : Nat, i ≠ parent → (ids.foldl (fun t id => t.detach id) t).children i = t.children i) ∧
      (ids.foldl (fun t id => t.detach id) t).children parent = [first] := by
  induction ids generalizing t with
  | nil => exact ⟨h, rfl, .refl t, fun _ => rfl, fun _ _ => rfl, hids⟩
  | cons id ids ih =>
    have hmem : id ∈ t.children parent := by rw [hids]; simp
    have hnodup := h.linked.nodup parent
    rw [hids, List.nodup_cons, List.nodup_cons] at hnodup
    have hrest : (t.detach id).children parent = first :: ids := by
      rw [children_detach h.linked, hids, List.filter_cons_of_pos, List.filter_cons_of_neg (by simp)]
      · rw [List.filter_eq_self.2 fun c hc => bne_iff_ne.2 ?_]
        rintro rfl
        exact hnodup.2.1 hc
      · rw [bne_iff_ne]
        rintro rfl
        exact hnodup.1 List.mem_cons_self
    obtain ⟨hgrown, hsize, hlater, hkind, hchildren, hparent⟩ := ih (grown_detach h id) hrest
    refine ⟨hgrown, hsize.trans (size_detach t id), (later_detach h id).trans hlater, fun i => ?_,
      fun i hi => ?_, hparent⟩
    · exact (hkind i).trans (kind?_detach t id i)
    · refine (hchildren i hi).trans ((children_detach h.linked id i).trans
        (h.linked.filter_of_not_child fun hparent' => ?_))
      exact hi (h.linked.parent_unique ((h.linked.parent_iff i id).1 hparent') hmem)

theorem painted_clearScripts (h : Painted s p urls content root lo top) :
    Painted s p.clearExternalScripts [] content root lo top ∧ Later p.tree p.clearExternalScripts.tree := by
  obtain ⟨hgrown, hsize, hlater, hkind, hchildren, hhead⟩ := foldl_detach h.grown h.inHead
  exact ⟨h.rescript rfl hgrown (Nat.le_of_eq hsize.symm) (fun i _ => hkind i) (fun i _ => hchildren i) hhead .nil
    (by simp [clearExternalScripts]), hlater⟩

theorem painted_addScript (h : Painted s p urls content root lo top) (url : String) :
    Painted s (p.addExternalScript url) (urls ++ [url]) content root lo top ∧
      Later p.tree (p.addExternalScript url).tree := by
  have hfive := h.size
  have hrange := h.range
  have hpage : p.addExternalScript url = { p with
      tree := (p.tree.addChild (scriptKind url) 2 none).1
      externalScripts := p.externalScripts ++ [p.tree.size] } := by
    rw [← h.fields.1]
    rfl
  have hlt : 2 < p.tree.size := by omega
  have hfills := fills_addChild h.grown hlt (scriptKind url) rfl
  have hadded (i : Nat) := children_addChild hlt (scriptKind url) i
  have hkinds (i : Nat) := kind?_addChild p.tree (scriptKind url) 2 i
  rw [hpage]
  refine ⟨h.rescript rfl hfills.grown hfills.size_le hfills.kind hfills.children ?_ ?_ ?_, hfills.later⟩
  · exact (hadded 2).trans ((if_pos rfl).trans (by rw [h.inHead]; rfl))
  · refine List.rel_append ?_ (.cons ⟨?_, ?_⟩ .nil)
    · refine leaves_congr h.scripts fun i hi => ?_
      obtain ⟨-, -, hplace, hlt⟩ := h.script_ne hi
      exact ⟨hfills.kind i hlt, hfills.children i hlt (by omega)⟩
    · exact (hkinds p.tree.size).trans (if_pos rfl)
    · exact (hadded p.tree.size).trans ((if_neg (by omega)).trans (children_of_le (Nat.le_refl _)))
  · intro i hi
    rcases List.mem_append.1 hi with hi | hi
    · exact h.scriptPlaces i hi
    · rw [List.mem_singleton.1 hi]
      exact ⟨hfive, .inr hrange.2.2⟩

/-- **Scripts are put behind the style element of the head**, in their order and in place of those that were there. -/
theorem painted_scripts (h : Painted s p urls content root lo top) (urls' : List String) :
    Painted s (urls'.foldl addExternalScript p.clearExternalScripts) urls' content root lo top ∧
      Later p.tree (urls'.foldl addExternalScript p.clearExternalScripts).tree := by
  have hadded : ∀ (urls' : List String) {p : Page} {urls : List String}, Painted s p urls content root lo top →
      Painted s (urls'.foldl addExternalScript p) (urls ++ urls') content root lo top ∧
        Later p.tree (urls'.foldl addExternalScript p).tree := by
    intro urls'
    induction urls' with
    | nil => exact fun h => ⟨by rwa [List.append_nil], .refl _⟩
    | cons url urls' ih =>
      intro p urls h
      obtain ⟨hpainted, hlater⟩ := painted_addScript h url
      obtain ⟨hall, hlater'⟩ := ih hpainted
      rw [List.append_assoc] at hall
      exact ⟨hall, hlater.trans hlater'⟩
  obtain ⟨hcleared, hlater⟩ := painted_clearScripts h
  obtain ⟨hall, hlater'⟩ := hadded urls' hcleared
  exact ⟨hall, hlater.trans hlater'⟩

/-! ## The page at first -/

/-- The tree of a page before anything is shown. -/
def skeleton (s : Setup) : Tree :=
  (((((Tree.empty.addChild (.element (.ofName "html")) 0 none).1.addChild (.element (.ofName "head")) 1 none).1.addChild
    (.element (.ofName "body")) 1 none).1.addChild (elementWith "style" "id" s.styleId) 2 none).1.addChild
    (regionKind s none) 3 none).1

theorem size_empty : Tree.empty.size = 1 := rfl

theorem snd_addChild (t : Tree) (kind : Kind) (parent : Nat) : (t.addChild kind parent none).2 = t.size := rfl

theorem ofSetup_eq (s : Setup) : ofSetup s =
    { tree := skeleton s, head := 2, body := 3, style := 4, region := 5
      regionId := s.contentId, scriptId := s.scriptId
      shadowStyle := none, shadowMode := false, css := "", externalScripts := [] } := by
  have hunfold : ofSetup s =
      let t₁ := Tree.empty.addChild (.element (.ofName "html")) Tree.root none
      let t₂ := t₁.1.addChild (.element (.ofName "head")) t₁.2 none
      let t₃ := t₂.1.addChild (.element (.ofName "body")) t₁.2 none
      let t₄ := t₃.1.addChild (elementWith "style" "id" s.styleId) t₂.2 none
      let t₅ := t₄.1.addChild (elementWith "div" "id" s.contentId) t₃.2 none
      { tree := t₅.1, head := t₂.2, body := t₃.2, style := t₄.2, region := t₅.2
        regionId := s.contentId, scriptId := s.scriptId
        shadowStyle := none, shadowMode := false, css := "", externalScripts := [] } := by
    unfold ofSetup
    with_reducible rfl
  rw [hunfold]
  simp only [snd_addChild, size_addChild, size_empty, Nat.reduceAdd]
  rfl

theorem size_skeleton (s : Setup) : (skeleton s).size = 6 := by simp only [skeleton, size_addChild, size_empty]

theorem grown_skeleton (s : Setup) : (skeleton s).Grown := by
  have houter := fills_addChild grown_empty (show 0 < Tree.empty.size from Nat.zero_lt_one)
    (.element (.ofName "html")) rfl
  have hhead := fills_addChild houter.grown (show 1 < _ by simp only [size_addChild, size_empty]; omega)
    (.element (.ofName "head")) rfl
  have hbody := fills_addChild hhead.grown (show 1 < _ by simp only [size_addChild, size_empty]; omega)
    (.element (.ofName "body")) rfl
  have hstyle := fills_addChild hbody.grown (show 2 < _ by simp only [size_addChild, size_empty]; omega)
    (elementWith "style" "id" s.styleId) rfl
  have hregion := fills_addChild hstyle.grown (show 3 < _ by simp only [size_addChild, size_empty]; omega)
    (regionKind s none) rfl
  exact hregion.grown

theorem kind?_skeleton (s : Setup) (i : Nat) : (skeleton s).kind? i =
    if i = 5 then some (regionKind s none)
    else if i = 4 then some (elementWith "style" "id" s.styleId)
    else if i = 3 then some (.element (.ofName "body"))
    else if i = 2 then some (.element (.ofName "head"))
    else if i = 1 then some (.element (.ofName "html"))
    else Tree.empty.kind? i := by
  simp only [skeleton, kind?_addChild, size_addChild, size_empty, Nat.reduceAdd]
  rfl

theorem children_skeleton (s : Setup) :
    (skeleton s).children 0 = [1] ∧ (skeleton s).children 1 = [2, 3] ∧ (skeleton s).children 2 = [4] ∧
      (skeleton s).children 3 = [5] ∧ (skeleton s).children 4 = [] ∧ (skeleton s).children 5 = [] := by
  have hempty (i : Nat) : Tree.empty.children i = [] := by
    cases i with
    | zero => rfl
    | succ i => exact children_of_le (by rw [size_empty]; omega)
  have houter := children_addChild (show 0 < Tree.empty.size from Nat.zero_lt_one) (.element (.ofName "html"))
  unfold skeleton
  refine ⟨?_, ?_, ?_, ?_, ?_, ?_⟩ <;>
    simp [children_addChild, houter, size_addChild, size_empty, hempty]

/-- **A page begins with its skeleton**, without scripts, style sheet and content. -/
theorem painted_ofSetup (s : Setup) : Painted s (ofSetup s) [] [] 5 6 6 := by
  obtain ⟨h0, h1, h2, h3, h4, h5⟩ := children_skeleton s
  have hsize := size_skeleton s
  have hgrown := grown_skeleton s
  have hkind := kind?_skeleton s
  rw [ofSetup_eq]
  generalize skeleton s = t at hsize hgrown hkind h0 h1 h2 h3 h4 h5
  have hlight : Light s { tree := t, head := 2, body := 3, style := 4, region := 5
                          regionId := s.contentId, scriptId := s.scriptId
                          shadowStyle := none, shadowMode := false, css := "", externalScripts := [] } 5 :=
    ⟨rfl, rfl, hkind 5, rfl⟩
  have hrange : 5 < 6 ∧ 6 ≤ 6 ∧ 6 ≤ t.size := by omega
  refine ⟨⟨⟨⟨rfl, rfl, rfl, rfl, rfl⟩, ⟨hkind 0, h0⟩, ⟨hkind 1, h1⟩, hkind 2, ⟨hkind 3, h3⟩, hkind 4⟩, hgrown, h2, .nil, ?_,
    .inl hlight, hrange, fun a b ha ha' => by omega, [], h5, by simp, rfl⟩, ?_, nofun⟩
  · exact fun i hi => absurd hi List.not_mem_nil
  · have hnone : styleTexts "" = [] := by decide
    change List.Forall₂ _ (t.children 4) (styleTexts "")
    rw [h4, hnone]
    exact .nil

/-! ## Pictures -/

/-- The picture of a node that holds nothing. -/
def leafView (kind : Kind) : View := .node 0 kind [] []

/-- The picture of a page, with what is in the style element of the head and in the region. -/
def pageView (s : Setup) (urls : List String) (style content : List View) : View :=
  .node 0 (.element (.ofName "html")) []
    [.node 0 (.element (.ofName "head")) []
      (.node 0 (elementWith "style" "id" s.styleId) [] style :: urls.map fun url => leafView (scriptKind url)),
      .node 0 (.element (.ofName "body")) [] [.node 0 (regionKind s none) [] content]]

/-- The pictures of the texts of a style element. -/
def styleView (css : String) : List View := (styleTexts css).map fun text => leafView (.text text)

theorem map_picture_leaves {t : Tree} (h : t.Grown) {kindOf : String → Kind} {ids : List Nat} {names : List String}
    (hleaves : List.Forall₂ (fun i name => t.Leaf i (kindOf name)) ids names)
    (hcopied : ∀ name, copiedKind (kindOf name) = kindOf name) (hcontents : ∀ name, (kindOf name).contents? = none) :
    ids.map t.picture = names.map fun name => leafView (kindOf name) := by
  induction hleaves with
  | nil => rfl
  | cons hleaf _ ih =>
    rw [List.map_cons, List.map_cons, ih, picture_of_leaf h hleaf (hcopied _) (hcontents _)]
    rfl

theorem Painted.style_pictures (h : Painted s p urls content root lo top) :
    (p.tree.children p.activeStyle).map p.tree.picture = styleView p.css :=
  map_picture_leaves h.grown h.text (fun _ => rfl) fun _ => rfl

/-- **What the document of a page shows.** In shadow mode its style element and its region are empty. -/
theorem picture_document (h : Painted s p urls content root lo top) :
    (p.tree.children Tree.root).map p.tree.picture =
      [pageView s urls (if p.shadowMode then [] else styleView p.css) (if p.shadowMode then [] else content)] := by
  have hscripts := map_picture_leaves h.grown h.scripts (fun _ => rfl) fun _ => rfl
  have hstyle : (p.tree.children 4).map p.tree.picture = if p.shadowMode then [] else styleView p.css := by
    rcases h.mode with hlight | ⟨style, hshaded⟩
    · rw [hlight.mode, ← h.style_pictures, hlight.active h.fields.2.2.1]
      rfl
    · rw [hshaded.mode, h.idle (by rw [hshaded.inUse]; rfl)]
      rfl
  have hcontent : (p.tree.children 5).map p.tree.picture = if p.shadowMode then [] else content := by
    rcases h.mode with hlight | ⟨style, hshaded⟩
    · obtain ⟨cs, hroot, -, hpictures⟩ := h.filled
      rw [hlight.root_eq, hlight.inUse] at hroot
      rw [hlight.mode, hroot, ← hpictures]
      rfl
    · rw [hshaded.mode, hshaded.regionNode.2]
      rfl
  have hregion : p.tree.picture 5 = .node 0 (regionKind s none) [] (if p.shadowMode then [] else content) := by
    obtain ⟨shadow, hkind⟩ : ∃ shadow, p.tree.kind? 5 = some (regionKind s shadow) := by
      rcases h.mode with hlight | ⟨style, hshaded⟩
      · exact ⟨_, hlight.regionNode⟩
      · exact ⟨_, hshaded.regionNode.1⟩
    rw [picture_eq h.grown hkind, hcontent]
    rfl
  have hstyleNode : p.tree.picture 4 =
      .node 0 (elementWith "style" "id" s.styleId) [] (if p.shadowMode then [] else styleView p.css) := by
    rw [picture_eq h.grown h.styleNode, hstyle]
    rfl
  have hbody : p.tree.picture 3 = .node 0 (.element (.ofName "body")) [] [p.tree.picture 5] := by
    rw [picture_eq h.grown h.bodyNode.1, h.bodyNode.2]
    rfl
  have hhead : p.tree.picture 2 = .node 0 (.element (.ofName "head")) []
      (p.tree.picture 4 :: p.externalScripts.map p.tree.picture) := by
    rw [picture_eq h.grown h.headNode, h.inHead]
    rfl
  have houter : p.tree.picture 1 = .node 0 (.element (.ofName "html")) [] [p.tree.picture 2, p.tree.picture 3] := by
    rw [picture_eq h.grown h.outer.1, h.outer.2]
    rfl
  have hchildren : p.tree.children Tree.root = [1] := h.document.2
  rw [hchildren, List.map_singleton, houter, hhead, hbody, hstyleNode, hregion, hscripts]
  rfl

/-- **What the shadow tree of a page shows**, in shadow mode: the style element in use and the content. -/
theorem picture_shadow (h : Painted s p urls content root lo top) (hmode : p.shadowMode = true) :
    (p.tree.children root).map p.tree.picture = .node 0 shadowStyleKind [] (styleView p.css) :: content := by
  rcases h.mode with hlight | ⟨style, hshaded⟩
  · rw [hlight.mode] at hmode
    cases hmode
  · obtain ⟨cs, hroot, -, hpictures⟩ := h.filled
    have hstyle := picture_eq h.grown hshaded.styleNode
    have htexts := h.style_pictures
    rw [hshaded.active] at htexts
    rw [htexts] at hstyle
    rw [hroot, hshaded.inUse, ← hpictures, Option.toList_some, List.singleton_append, List.map_cons, hstyle]
    rfl

/-- **The markup of a page depends only on what was painted.** -/
theorem html_of_painted {p' : Page} {root' lo' top' : Nat} (h : Painted s p urls content root lo top)
    (h' : Painted s p' urls content root' lo' top') (hcss : p.css = p'.css) (hmode : p.shadowMode = p'.shadowMode) :
    p.html = p'.html := by
  have hdocument : (p.tree.children Tree.root).map p.tree.picture = (p'.tree.children Tree.root).map p'.tree.picture := by
    rw [picture_document h, picture_document h', hcss, hmode]
  have hexported : p.exported = p'.exported := by
    unfold exported
    rw [importChildren_congr h.grown h'.grown hdocument, h.shadow_eq, h'.shadow_eq, h.fields.2.2.2.2,
      h'.fields.2.2.2.2, hmode]
    cases hm : p'.shadowMode with
    | false => rfl
    | true =>
      have hshadow : (p.tree.children root).map p.tree.picture = (p'.tree.children root').map p'.tree.picture := by
        rw [picture_shadow h (by rw [hmode, hm]), picture_shadow h' hm, hcss]
      simp only [if_true]
      cases (Tree.empty.importChildren p'.tree Tree.root Tree.root none).elementById? Tree.root s.contentId with
      | none => rfl
      | some host => simp only [importChildren_congr h.grown h'.grown hshadow]
  unfold html
  rw [hexported]

/-! ## The style elements -/

/-- The text of the style sheet is all that the style element in use holds, and the other one is empty. -/
structure Styled (p : Page) : Prop where
  attached : p.tree.Attached p.activeStyle
  element : ∃ e, p.tree.kind? p.activeStyle = some (.element e) ∧ e.name = "style"
  text : List.Forall₂ (fun i text => p.tree.Leaf i (.text text)) (p.tree.children p.activeStyle) (styleTexts p.css)
  idle : p.shadowStyle.isSome = true → p.tree.children p.style = []

theorem Painted.styled (h : Painted s p urls content root lo top) : p.Styled := by
  have hstyle : p.style = 4 := h.fields.2.2.1
  have hdocument : p.tree.children Tree.root = [1] := h.document.2
  have houter : p.tree.Attached 1 := .single (mem_held_of_children (by rw [hdocument]; simp))
  refine ⟨?_, ?_, h.text, fun hsome => by rw [hstyle]; exact h.idle hsome⟩
  · rcases h.mode with hlight | ⟨style, hshaded⟩
    · have hhead : p.tree.Attached 2 := houter.tail (mem_held_of_children (by rw [h.outer.2]; simp))
      rw [hlight.active hstyle]
      exact hhead.tail (mem_held_of_children (by rw [h.inHead]; simp))
    · have hbody : p.tree.Attached 3 := houter.tail (mem_held_of_children (by rw [h.outer.2]; simp))
      have hregion : p.tree.Attached 5 := hbody.tail (mem_held_of_children (by rw [h.bodyNode.2]; simp))
      have hroot : p.tree.Attached root := by
        refine hregion.tail ?_
        rw [held, hshaded.regionNode.1, List.mem_append]
        exact .inr (List.mem_singleton_self root)
      obtain ⟨cs, hchildren, -, -⟩ := h.filled
      rw [hshaded.active]
      exact hroot.tail (mem_held_of_children (by rw [hchildren, hshaded.inUse]; simp))
  · rcases h.mode with hlight | ⟨style, hshaded⟩
    · exact ⟨_, by rw [hlight.active hstyle]; exact h.styleNode, rfl⟩
    · exact ⟨_, by rw [hshaded.active]; exact hshaded.styleNode, rfl⟩

/-! ## What is no longer attached -/

theorem contentRoot_eq (h : Framed s p urls content root lo top) : p.contentRoot = root := by
  have hregion : p.region = 5 := h.fields.2.2.2.1
  rw [contentRoot, h.shadow_eq]
  rcases h.mode with hlight | ⟨style, hshaded⟩
  · rw [hlight.mode, hlight.root_eq]
    exact hregion
  · rw [hshaded.mode]
    rfl

theorem held_of_kind {t : Tree} {kind : Kind} {a b : Nat} (hkind : t.kind? a = some kind) (hlinks : kind.links = [])
    (hb : b ∈ t.held a) : b ∈ t.children a := by
  rw [held, hkind, Option.map_some, Option.getD_some, hlinks, List.append_nil] at hb
  exact hb

theorem not_mem_held_of_leaf {t : Tree} {kind : Kind} {a b : Nat} (h : t.Leaf a kind) (hlinks : kind.links = []) :
    b ∉ t.held a := by
  intro hb
  have hmem := held_of_kind h.1 hlinks hb
  rw [h.2] at hmem
  simp at hmem

/-- The root of the content holds nothing but its children. -/
theorem Framed.held_root (h : Framed s p urls content root lo top) {b : Nat} (hb : b ∈ p.tree.held root) :
    p.shadowStyle = some b ∨ (lo ≤ b ∧ b < top) := by
  have hmem : b ∈ p.tree.children root := by
    rcases h.mode with hlight | ⟨style, hshaded⟩
    · rw [hlight.root_eq] at hb ⊢
      exact held_of_kind hlight.regionNode rfl hb
    · exact held_of_kind hshaded.rootNode rfl hb
  obtain ⟨cs, hroot, hcs, -⟩ := h.filled
  rw [hroot, List.mem_append, Option.mem_toList] at hmem
  exact hmem.imp_right (hcs b)

/-- What stands under the root of the content: the style element with its texts, and the content. -/
theorem Painted.below_root (h : Painted s p urls content root lo top) {i : Nat}
    (hi : p.tree.Within root i) :
    p.shadowStyle = some i ∨ (∃ text, p.tree.Leaf i (.text text)) ∨ (lo ≤ i ∧ i < top) := by
  induction hi with
  | single hb => exact (h.held_root hb).imp_right .inr
  | @tail a b _ hb ih =>
    rcases ih with hstyle | ⟨text, hleaf⟩ | ⟨hlo, htop⟩
    · rcases h.mode with hlight | ⟨style, hshaded⟩
      · rw [hlight.inUse] at hstyle
        cases hstyle
      · rw [hshaded.inUse] at hstyle
        obtain rfl := Option.some.inj hstyle
        have hmem := held_of_kind hshaded.styleNode rfl hb
        rw [← hshaded.active] at hmem
        exact .inr (.inl (exists_of_forall₂ h.text hmem))
    · exact absurd hb (not_mem_held_of_leaf hleaf rfl)
    · have hlt := (h.grown.later a b hb).1
      exact .inr (.inr ⟨by omega, h.closed a b hlo htop hb⟩)

/-- What is attached to a page whose content and style sheet stand from a place on. -/
theorem Painted.attached_cases (h : Painted s p urls content root lo top) {n i : Nat} (hlo : n ≤ lo)
    (hstyle : ∀ style : Nat, p.shadowStyle = some style → n ≤ style)
    (htext : ∀ b : Nat, b ∈ p.tree.children p.activeStyle → n ≤ b) (hi : p.tree.Attached i) :
    i ≤ 5 ∨ i = root ∨ i ∈ p.externalScripts ∨ n ≤ i := by
  have hroot : ∀ b : Nat, b ∈ p.tree.held root → n ≤ b := fun b hb => by
    rcases h.held_root hb with hb | hb
    · exact hstyle b hb
    · omega
  unfold Attached Reaches at hi
  induction hi with
  | refl => exact .inl (Nat.zero_le _)
  | @tail a b _ hb ih =>
    have hlt := (h.grown.later a b hb).1
    rcases ih with ha | rfl | ha | ha
    · obtain rfl | rfl | rfl | rfl | rfl | rfl : a = 0 ∨ a = 1 ∨ a = 2 ∨ a = 3 ∨ a = 4 ∨ a = 5 := by omega
      · have hmem := held_of_kind h.document.1 rfl hb
        rw [h.document.2, List.mem_singleton] at hmem
        exact .inl (by omega)
      · have hmem := held_of_kind h.outer.1 rfl hb
        rw [h.outer.2, List.mem_cons, List.mem_singleton] at hmem
        exact .inl (by omega)
      · have hmem := held_of_kind h.headNode rfl hb
        rw [h.inHead, List.mem_cons] at hmem
        rcases hmem with hmem | hmem
        · exact .inl (by omega)
        · exact .inr (.inr (.inl hmem))
      · have hmem := held_of_kind h.bodyNode.1 rfl hb
        rw [h.bodyNode.2, List.mem_singleton] at hmem
        exact .inl (by omega)
      · have hmem := held_of_kind h.styleNode rfl hb
        rcases h.mode with hlight | ⟨style, hshaded⟩
        · rw [← hlight.active h.fields.2.2.1] at hmem
          exact .inr (.inr (.inr (htext b hmem)))
        · rw [h.idle (by rw [hshaded.inUse]; rfl)] at hmem
          simp at hmem
      · rcases h.mode with hlight | ⟨style, hshaded⟩
        · rw [← hlight.root_eq] at hb
          exact .inr (.inr (.inr (hroot b hb)))
        · rw [held, hshaded.regionNode.1, hshaded.regionNode.2, List.nil_append] at hb
          exact .inr (.inl (List.mem_singleton.1 hb))
    · exact .inr (.inr (.inr (hroot b hb)))
    · obtain ⟨url, hleaf⟩ := exists_of_forall₂ h.scripts ha
      exact absurd hb (not_mem_held_of_leaf hleaf rfl)
    · exact .inr (.inr (.inr (by omega)))

theorem externalScripts_render (p : Page) (html : String) (mode : Bool) :
    (p.render html mode).externalScripts = p.externalScripts := by
  cases mode <;> rfl

theorem shadowMode_render (p : Page) (html : String) (mode : Bool) : (p.render html mode).shadowMode = mode := by
  cases mode <;> rfl

/-- What stands under the root of the content is behind it, and is no script of the page. -/
theorem Painted.of_within (h : Painted s p urls content root lo top) {i : Nat} (hi : p.tree.Within root i) :
    root < i ∧ i < p.tree.size ∧ i ∉ p.externalScripts := by
  have hbounds : root < i ∧ i < p.tree.size := by
    induction hi with
    | single hb => exact h.grown.later _ _ hb
    | tail _ hb ih =>
      have hlater := h.grown.later _ _ hb
      omega
  refine ⟨hbounds.1, hbounds.2, fun hscript => ?_⟩
  obtain ⟨hne, -, -, -⟩ := h.script_ne hscript
  obtain ⟨url, hkind, -⟩ := exists_of_forall₂ h.scripts hscript
  rcases h.below_root hi with hstyle | ⟨text, hleaf, -⟩ | hrange
  · refine hne ?_
    rw [activeStyle, hstyle]
    rfl
  · rw [hkind] at hleaf
    exact absurd (Option.some.inj hleaf) nofun
  · have hplace := (h.scriptPlaces i hscript).2
    omega

/-- **After a render nothing of before is attached but the skeleton, the root of the content and the scripts.** -/
theorem not_attached_render (h : Framed s p urls content root lo top) (html : String) (mode : Bool) {i : Nat}
    (hroot : root < i) (hi : i < p.tree.size) (hscript : i ∉ p.externalScripts) :
    ¬ (p.render html mode).tree.Attached i := by
  intro hattached
  have hbounds := h.root_bounds
  obtain ⟨root', lo', top', hpainted, -, hnew, hlo, hstyle, htext, -⟩ := painted_render h html mode
  rcases hpainted.attached_cases hlo hstyle htext hattached with hcase | hcase | hcase | hcase
  · omega
  · omega
  · exact hscript (by rwa [externalScripts_render] at hcase)
  · omega

end Page

end LiveMarkup.Preview
