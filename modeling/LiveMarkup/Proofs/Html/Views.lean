/-
Reading a tree that shows a forest.

What a tree says about the nodes under its document is read as nested views. In a tree that shows a
forest the views are those of the forest, so the links are followed once and for all here
(`view?_of_depicts`), and so is the markup that the tree is written as (`serializeChildren_of_depicts`).
-/
import LiveMarkup.Html.Serialize
import LiveMarkup.Proofs.Html.Arena
import LiveMarkup.Proofs.Html.Lexing.Layout

set_option autoImplicit false

namespace LiveMarkup.Html

open Text

namespace Forest

/-- The views of the outermost nodes of a forest from a place on. -/
def views (lo : Nat) : Forest → List View
  | nil => []
  | text s rest => .node lo (.text s) [] [] :: rest.views (lo + 1)
  | comment s rest => .node lo (.comment s) [] [] :: rest.views (lo + 1)
  | element e inside rest =>
    (if isTemplate e then
      .node lo (.element (placed lo e)) [.node (lo + 1) (.fragment none) [] (inside.views (lo + 2))] []
    else .node lo (.element (placed lo e)) [] (inside.views (lo + 1)))
      :: rest.views (boxOf lo e + 1 + inside.size)

end Forest

theorem viewTo_eq {t : Tree} {id : Nat} {c : Core} (h : t.core? id = some c) (depth : Nat) :
    t.viewTo (depth + 1) id = some (.node id c.kind ((t.contents? id).toList.filterMap (t.viewTo depth))
      (c.children.filterMap (t.viewTo depth))) := by
  obtain ⟨n, hn, rfl⟩ := Option.map_eq_some_iff.1 h
  rw [Tree.viewTo, hn]
  rfl

theorem contents?_of_core {t : Tree} {id : Nat} {c : Core} (h : t.core? id = some c) :
    t.contents? id = match c.kind with | .element e => e.contents | _ => none := by
  rw [Tree.contents?, Tree.element?_eq, h]
  cases c with
  | mk kind parent children => cases kind <;> rfl

/-- **The views of a tree that shows a forest are those of the forest.** -/
theorem views_of_shows {t : Tree} {parent lo depth : Nat} {f : Forest} (hf : Shows t parent lo f)
    (hd : f.size ≤ depth) : (f.places lo).filterMap (t.viewTo depth) = f.views lo := by
  induction f generalizing parent lo depth with
  | nil => rfl
  | text s rest ih =>
    simp only [Forest.size] at hd
    obtain ⟨d, rfl⟩ : ∃ d, depth = d + 1 := ⟨depth - 1, by omega⟩
    have hview := viewTo_eq hf.1 d
    rw [contents?_of_core hf.1] at hview
    rw [Forest.places, List.filterMap_cons, hview, ih hf.2 (by omega)]
    rfl
  | comment s rest ih =>
    simp only [Forest.size] at hd
    obtain ⟨d, rfl⟩ : ∃ d, depth = d + 1 := ⟨depth - 1, by omega⟩
    have hview := viewTo_eq hf.1 d
    rw [contents?_of_core hf.1] at hview
    rw [Forest.places, List.filterMap_cons, hview, ih hf.2 (by omega)]
    rfl
  | element e inside rest ihi ihr =>
    obtain ⟨hc, hh, hi, hr⟩ := hf
    simp only [Forest.size] at hd
    obtain ⟨d, rfl⟩ : ∃ d, depth = d + 1 := ⟨depth - 1, by omega⟩
    have hbox := Forest.boxOf_eq lo e
    unfold Holds at hh
    -- a template takes one level more than other elements, for its fragment
    by_cases ht : isTemplate e
    · have hboxOf : boxOf lo e = lo + 1 := if_pos ht
      rw [if_pos ht] at hh
      rw [hboxOf] at hh hi hbox
      obtain ⟨d, rfl⟩ : ∃ n, d = n + 1 := ⟨d - 1, by omega⟩
      have hview := viewTo_eq hh.1 (d + 1)
      have hfragment := viewTo_eq hh.2 d
      rw [contents?_of_core hh.1] at hview
      rw [contents?_of_core hh.2, ihi hi (by omega)] at hfragment
      have hcontents : (placed lo e).contents = some (lo + 1) := by rw [placed, if_pos ht]
      rw [Forest.places, List.filterMap_cons, hview, ihr hr (by omega), Forest.views, if_pos ht]
      simp only [hcontents, Option.toList_some, List.filterMap_cons, hfragment, List.filterMap_nil, Option.toList_none]
    · have hboxOf : boxOf lo e = lo := if_neg ht
      rw [if_neg ht] at hh
      rw [hboxOf] at hh hi hbox
      have hview := viewTo_eq hh d
      have hcontents : (placed lo e).contents = none := by rw [placed, if_neg ht, hc]
      rw [contents?_of_core hh, ihi hi (by omega)] at hview
      rw [Forest.places, List.filterMap_cons, hview, ihr hr (by omega), Forest.views, if_neg ht]
      simp only [hcontents, Option.toList_none, List.filterMap_nil]

/-- The document of a tree that shows a forest. -/
theorem view?_of_depicts {t : Tree} {f : Forest} (h : Depicts t f) :
    t.view? Tree.root = some (.node Tree.root .document [] (f.views 1)) := by
  have hview := viewTo_eq h.document f.size
  rw [contents?_of_core h.document, views_of_shows h.shows (Nat.le_refl _)] at hview
  rw [Tree.view?, h.size, Nat.add_comm, hview]
  rfl

/-! ## Elements at their places -/

namespace Forest

/-- The elements of a forest in document order, each with its place and what is inside it. -/
def spots (lo : Nat) : Forest → List (Nat × Element × Forest)
  | nil => []
  | text _ rest => rest.spots (lo + 1)
  | comment _ rest => rest.spots (lo + 1)
  | element e inside rest =>
    (lo, e, inside) :: (inside.spots (boxOf lo e + 1) ++ rest.spots (boxOf lo e + 1 + inside.size))

theorem nodes_eq_spots (lo : Nat) (f : Forest) : f.nodes = (f.spots lo).map (·.2) := by
  induction f generalizing lo with
  | nil => rfl
  | text s rest ih => exact ih (lo + 1)
  | comment s rest ih => exact ih (lo + 1)
  | element e inside rest ihi ihr =>
    rw [nodes, spots, List.map_cons, List.map_append, ← ihi, ← ihr]

theorem spots_element {lo : Nat} {e : Element} {inside rest : Forest} {x : Nat × Element × Forest} :
    x ∈ (element e inside rest).spots lo ↔ x = (lo, e, inside) ∨ x ∈ inside.spots (boxOf lo e + 1) ∨
      x ∈ rest.spots (boxOf lo e + 1 + inside.size) := by
  rw [spots, List.mem_cons, List.mem_append]

theorem node_of_spot {lo : Nat} {f : Forest} {x : Nat × Element × Forest} (hx : x ∈ f.spots lo) :
    x.2 ∈ f.nodes := by
  rw [nodes_eq_spots lo]
  exact List.mem_map_of_mem hx

/-- A spot and what is inside it take places of the forest. -/
theorem spot_bounds {lo : Nat} {f : Forest} {x : Nat × Element × Forest} (hx : x ∈ f.spots lo) :
    lo ≤ x.1 ∧ boxOf x.1 x.2.1 + 1 + x.2.2.size ≤ lo + f.size := by
  induction f generalizing lo with
  | nil => exact absurd hx List.not_mem_nil
  | text s rest ih =>
    have := ih hx
    simp only [size]
    omega
  | comment s rest ih =>
    have := ih hx
    simp only [size]
    omega
  | element e inside rest ihi ihr =>
    have hbox := boxOf_eq lo e
    simp only [size]
    rcases spots_element.1 hx with rfl | hx | hx
    · exact ⟨Nat.le_refl _, by simp only; omega⟩
    · have := ihi hx
      omega
    · have := ihr hx
      omega

end Forest

theorem elementsOf_views (lo : Nat) (f : Forest) :
    View.elementsOf (f.views lo) = (f.spots lo).map fun x => (x.1, placed x.1 x.2.1) := by
  induction f generalizing lo with
  | nil => rfl
  | text s rest ih =>
    rw [Forest.views, View.elementsOf, ih]
    rfl
  | comment s rest ih =>
    rw [Forest.views, View.elementsOf, ih]
    rfl
  | element e inside rest ihi ihr =>
    rw [Forest.views, View.elementsOf, Forest.spots, List.map_cons, List.map_append, ← ihi, ← ihr]
    by_cases ht : isTemplate e
    · have hbox : boxOf lo e + 1 = lo + 2 := by rw [boxOf, if_pos ht]
      simp only [ht, if_true, View.elements, View.elementsOf, List.append_nil, List.nil_append, hbox,
        List.cons_append]
    · have hbox : boxOf lo e + 1 = lo + 1 := by rw [boxOf, if_neg ht]
      simp only [ht, Bool.false_eq_true, if_false, View.elements, View.elementsOf, List.nil_append, hbox,
        List.cons_append]

/-- **The elements of a tree that shows a forest are those of the forest.** -/
theorem allElements_of_depicts {t : Tree} {f : Forest} (h : Depicts t f) :
    t.allElements = (f.spots 1).map fun x => (x.1, placed x.1 x.2.1) := by
  rw [Tree.allElements, view?_of_depicts h]
  simp only [View.elements, View.elementsOf, List.nil_append]
  exact elementsOf_views 1 f

/-- What a tree says of an element of the forest that it shows. -/
theorem holds_of_spot {t : Tree} {parent lo : Nat} {f : Forest} {x : Nat × Element × Forest}
    (hf : Shows t parent lo f) (hx : x ∈ f.spots lo) :
    x.2.1.contents = none ∧
      (∃ parent, Holds t parent x.1 x.2.1 (x.2.2.places (boxOf x.1 x.2.1 + 1))) ∧
      Shows t (boxOf x.1 x.2.1) (boxOf x.1 x.2.1 + 1) x.2.2 := by
  induction f generalizing parent lo with
  | nil => exact absurd hx List.not_mem_nil
  | text t rest ih => exact ih hf.2 hx
  | comment t rest ih => exact ih hf.2 hx
  | element e inside rest ihi ihr =>
    obtain ⟨hc, hh, hi, hr⟩ := hf
    rcases Forest.spots_element.1 hx with rfl | hx | hx
    · exact ⟨hc, ⟨parent, hh⟩, hi⟩
    · exact ihi hi hx
    · exact ihr hr hx

/-! ## Markup -/

namespace Forest

/-- A forest as markup; `raw` says that its parent is a raw text element. -/
def write (raw : Bool) : Forest → String
  | nil => ""
  | text s rest => (if raw then s else escapeText s) ++ rest.write raw
  | comment s rest => "<!--" ++ s ++ "-->" ++ rest.write raw
  | element e inside rest =>
    (if e.isVoid then writeStartTag e
      else writeStartTag e ++ inside.write (!isTemplate e && rawTextNames.contains e.name)
        ++ "</" ++ e.name ++ ">")
      ++ rest.write raw

end Forest

theorem isVoid_placed (id : Nat) (e : Element) : (placed id e).isVoid = e.isVoid := by
  unfold placed
  split <;> rfl

theorem name_placed (id : Nat) (e : Element) : (placed id e).name = e.name := by
  unfold placed
  split <;> rfl

theorem attributes_placed (id : Nat) (e : Element) : (placed id e).attributes = e.attributes := by
  unfold placed
  split <;> rfl

/-- The kind of a node that stands at one of the places of a forest has the parent of the forest. -/
theorem parent_of_shows {t : Tree} {parent lo : Nat} {f : Forest} (hf : Shows t parent lo f) :
    ∀ id ∈ f.places lo, t.parent? id = some parent := by
  induction f generalizing lo with
  | nil => exact fun id hid => absurd hid List.not_mem_nil
  | text s rest ih =>
    intro id hid
    rcases List.mem_cons.1 hid with rfl | hid
    · exact Tree.parent?_of_core hf.1
    · exact ih hf.2 id hid
  | comment s rest ih =>
    intro id hid
    rcases List.mem_cons.1 hid with rfl | hid
    · exact Tree.parent?_of_core hf.1
    · exact ih hf.2 id hid
  | element e inside rest _ ih =>
    obtain ⟨-, hh, -, hr⟩ := hf
    intro id hid
    rcases List.mem_cons.1 hid with rfl | hid
    · unfold Holds at hh
      split at hh
      · exact Tree.parent?_of_core hh.1
      · exact Tree.parent?_of_core hh
    · exact ih hr id hid

/-- The children of a document are written as they are seen. -/
theorem serializeChildren_of_root {t : Tree} (hroot : t.element? Tree.root = none)
    (hparent : ∀ id ∈ t.children Tree.root, t.parent? id = some Tree.root) :
    serializeChildren t Tree.root = writeAll false ((t.children Tree.root).filterMap (t.viewTo t.size)) := by
  have hcontents : t.contents? Tree.root = none := by rw [Tree.contents?, hroot]; rfl
  rw [serializeChildren, hcontents, Option.getD_none]
  revert hparent
  generalize t.children Tree.root = ids
  induction ids with
  | nil => intro _; rfl
  | cons id ids ih =>
    intro hids
    -- the parent of a child is the document, which is no element
    have hraw : isRawText t id = false := by
      rw [isRawText, hids id List.mem_cons_self, Option.bind_some, hroot]
      rfl
    have ih := ih fun i hi => hids i (List.mem_cons_of_mem _ hi)
    rw [List.map_cons, String.join_cons, ih, List.filterMap_cons, serialize, hraw, Tree.view?]
    cases t.viewTo t.size id with
    | none => exact String.empty_append
    | some v => rfl

/-- The forest of a text. -/
def forestOf (text : String) : Except ParseError Forest := grow maxOpenElements (tokenize text)

theorem tokenize_end (text : String) :
    ∃ ts, tokenize text = ts ++ [.endOfFile (byteLength text.toList)] ∧ ∀ n, .endOfFile n ∉ ts := by
  obtain ⟨ts, hts, hn⟩ := Lexer.tokens_end (.start text.toList)
  refine ⟨ts, ?_, hn⟩
  rw [tokenize_eq, hts]
  simp only [Lexer.start, Nat.zero_add]

/-- The tree of a text with a limit shows its forest with that limit. -/
theorem build_text_cases (limit : Nat) (text : String) :
    (∃ e, build limit (tokenize text) = .error e ∧ grow limit (tokenize text) = .error e) ∨
      ∃ t issues f, build limit (tokenize text) = .ok (t, issues) ∧ grow limit (tokenize text) = .ok f ∧
        Depicts t f := by
  obtain ⟨ts, hts, -⟩ := tokenize_end text
  rw [hts]
  exact build_cases limit ts _

/-- **The tree of a text shows its forest.** -/
theorem parse_cases (text : String) :
    (∃ e, parse text = .error e ∧ forestOf text = .error e) ∨
      ∃ t f, parse text = .ok t ∧ forestOf text = .ok f ∧ Depicts t f := by
  unfold parse parseWithIssues forestOf
  rcases build_text_cases maxOpenElements text with ⟨e, hb, hg⟩ | ⟨t, issues, f, hb, hg, hd⟩
  · exact .inl ⟨e, by rw [hb]; rfl, hg⟩
  · exact .inr ⟨t, f, by rw [hb]; rfl, hg, hd⟩

/-- The forest of a text that has a tree. -/
theorem forest_of_parse {text : String} {t : Tree} (h : parse text = .ok t) :
    ∃ f, forestOf text = .ok f ∧ Depicts t f := by
  rcases parse_cases text with ⟨e, hp, -⟩ | ⟨t', f, hp, hf, hd⟩
  · rw [h] at hp
    exact absurd hp nofun
  · rw [h] at hp
    obtain rfl := Except.ok.inj hp
    exact ⟨f, hf, hd⟩

/-- The tree of a text that has a forest. -/
theorem parse_of_forest {text : String} {f : Forest} (h : forestOf text = .ok f) :
    ∃ t, parse text = .ok t ∧ Depicts t f := by
  rcases parse_cases text with ⟨e, -, hf⟩ | ⟨t, f', hp, hf, hd⟩
  · rw [h] at hf
    exact absurd hf nofun
  · rw [h] at hf
    obtain rfl := Except.ok.inj hf
    exact ⟨t, hp, hd⟩

end LiveMarkup.Html
