/-
List items inside one another.

In the tree of a text an item of a list is separated from every item of its group that it is inside of, or it
follows a paragraph in which something stops the search for them (`separated_of_items`). The second can happen:
a list item can stand right inside another one (`exists_item_directly_inside`).
-/
import LiveMarkup.Proofs.Html.Apart
import LiveMarkup.Proofs.Html.WellNested

set_option autoImplicit false

namespace LiveMarkup.Html

open Plan Spot

/-! ## Paragraphs that are followed -/

/-- A node follows a paragraph of the same parent, and an element inside the paragraph stops the search for an open
list item. -/
def FollowsHidden (t : Tree) (id : NodeId) : Prop :=
  ∃ z ∈ htmlNamed t ["p"], t.Precedes z.1 id ∧
    ∃ s ∈ t.allElements, (keyOf s.2).stopsItems = true ∧ t.Descends z.1 s.1

section Tree

variable {names : List String} {t : Tree} {f : Forest}

theorem apart_of_spot {opened : List Key} {follows : Bool} {lo : Nat} (hf : f.Apart opened follows) {y : Spot}
    (hy : y ∈ f.spots lo) (hgroup : names ∈ itemGroups) (hnames : (key y).isHtml names = true) :
    openListItem? names ((f.around lo y).map key ++ opened) = none ∨ follows = true ∧ f.around lo y = [] ∨
      ∃ z ∈ f.spots lo, hides z.2.1 z.2.2 = true ∧ f.around lo z = f.around lo y ∧ z.1 < y.1 := by
  -- the elements around the forest come behind those around the item in it; the paragraph stands in the same node
  induction f generalizing opened follows lo with
  | nil => exact absurd hy List.not_mem_nil
  | text s rest ih => exact ih hf hy
  | comment s rest ih => exact ih hf hy
  | element e inside rest ihi ihr =>
    obtain ⟨he, hinside, hrest⟩ := hf
    rcases Forest.spots_element.1 hy with rfl | hy | hy
    · -- nothing of the forest is around the item, and what it follows came before the forest
      rw [Forest.around_self]
      rcases he names hgroup hnames with hnone | hfollows
      · exact .inl hnone
      · exact .inr (.inl ⟨hfollows, rfl⟩)
    · rw [Forest.around_inside hy, List.map_append, List.append_assoc]
      rcases ihi hinside hy with hnone | ⟨hfollows, -⟩ | ⟨z, hz, hhides, haround, hlt⟩
      · exact .inl hnone
      · exact absurd hfollows Bool.false_ne_true
      · refine .inr (.inr ⟨z, Forest.spots_element.2 (.inr (.inl hz)), hhides, ?_, hlt⟩)
        rw [Forest.around_inside hz, haround]
    · rw [Forest.around_rest hy]
      rcases ihr hrest hy with hnone | ⟨hfollows, haround⟩ | ⟨z, hz, hhides, haround, hlt⟩
      · exact .inl hnone
      · -- the paragraph that is followed is the first element, or comes before it
        rcases (Bool.or_eq_true _ _).mp hfollows with hfollows | hhides
        · exact .inr (.inl ⟨hfollows, haround⟩)
        · refine .inr (.inr ⟨(lo, e, inside), Forest.spots_element.2 (.inl rfl), hhides, ?_, ?_⟩)
          · rw [Forest.around_self, haround]
          · have hbox := Forest.boxOf_eq lo e
            have := (Forest.stop_bounds hy).1
            simp only
            omega
      · refine .inr (.inr ⟨z, Forest.spots_element.2 (.inr (.inr hz)), hhides, ?_, hlt⟩)
        rw [Forest.around_rest hz, haround]

/-- The search for an open item passes an item only when something stops it before. -/
theorem stops_of_openListItem? {above below : List Key} {k : Key} (h : openListItem? names (above ++ k :: below) = none)
    (hk : k.isHtml names = true) : ∃ z ∈ above, z.stopsItems = true := by
  by_contra hnone
  have hfound := openListItem?_append h fun z hz => Bool.eq_false_iff.2 fun hc => hnone ⟨z, hz, hc⟩
  rw [openListItem?, if_pos hk] at hfound
  cases hfound

theorem followsHidden_of_spot (hd : Depicts t f) {y z : Spot} (hy : y ∈ f.spots 1) (hz : z ∈ f.spots 1)
    (hhides : hides z.2.1 z.2.2 = true) (haround : f.around 1 z = f.around 1 y) (hlt : z.1 < y.1) :
    FollowsHidden t y.1 := by
  rw [hides, Bool.and_eq_true, List.any_eq_true] at hhides
  obtain ⟨hp, e, he, hstops⟩ := hhides
  rw [Forest.elements, Forest.nodes_eq_spots (boxOf z.1 z.2.1 + 1), List.map_map] at he
  obtain ⟨s, hs, rfl⟩ := List.mem_map.1 he
  have hspot := Forest.mem_spots_inside hz hs
  refine ⟨_, (mem_htmlNamed hd).2 ⟨z, hz, hp, rfl⟩, precedes_of_around hd hz hy haround hlt,
    (s.1, placed s.1 s.2.1), ?_, ?_, (descends_iff hd hz hspot).2 hs⟩
  · rw [allElements_of_depicts hd]
    exact List.mem_map_of_mem hspot
  · rw [keyOf_placed]
    exact hstops

end Tree

/-- **A list item is separated from every item of its group that it is inside of, or it follows a paragraph in
which something stops the search for them.** -/
theorem separated_of_items {source : String} {t : Tree} (h : parse source = .ok t) :
    ∀ names ∈ itemGroups, ∀ x ∈ htmlNamed t names, ∀ y ∈ htmlNamed t names, t.Descends x.1 y.1 →
      Separated t Key.stopsItems x.1 y.1 ∨ FollowsHidden t y.1 := by
  obtain ⟨f, hf, hd⟩ := forest_of_parse h
  intro names hgroup x hx y hy hdesc
  obtain ⟨sx, hsx, hxname, rfl⟩ := (mem_htmlNamed hd).1 hx
  obtain ⟨sy, hsy, hyname, rfl⟩ := (mem_htmlNamed hd).1 hy
  -- at the top of the forest nothing is open, and no paragraph comes before it
  rcases apart_of_spot (apart_of_text hf) hsy hgroup hyname with hnone | ⟨hfollows, -⟩ | ⟨z, hz, hhides, haround, hlt⟩
  · left
    have hmem : sx ∈ f.around 1 sy := Forest.mem_around.2 ⟨hsx, (descends_iff_encloses hd hsx hsy).1 hdesc⟩
    obtain ⟨above, below, haround⟩ := List.append_of_mem hmem
    rw [List.append_nil, haround, List.map_append, List.map_cons] at hnone
    exact separated_of_around hd hsx hsy haround (stops_of_openListItem? hnone hxname)
  · exact absurd hfollows Bool.false_ne_true
  · exact .inr (followsHidden_of_spot hd hsy hz hhides haround hlt)

/-- A term that a definition ends, and a definition in a definition, which follows a paragraph with a menu. -/
theorem separated_of_definitions :
    ∃ t, parse "<dl><dt>a<dd><p><select><dd>" = .ok t ∧
      (t.allElements.map fun x => (x.1, x.2.name, t.parent? x.1)) =
        [(1, "dl", some 0), (2, "dt", some 1), (4, "dd", some 1), (5, "p", some 4), (6, "select", some 5),
          (7, "dd", some 4)] ∧
      ∀ names ∈ itemGroups, ∀ x ∈ htmlNamed t names, ∀ y ∈ htmlNamed t names, t.Descends x.1 y.1 →
        Separated t Key.stopsItems x.1 y.1 ∨ FollowsHidden t y.1 := by
  have hseen : (parse "<dl><dt>a<dd><p><select><dd>").map
        (fun t => t.allElements.map fun x => (x.1, x.2.name, t.parent? x.1))
      = .ok [(1, "dl", some 0), (2, "dt", some 1), (4, "dd", some 1), (5, "p", some 4), (6, "select", some 5),
          (7, "dd", some 4)] := by
    cbv
  cases hp : parse "<dl><dt>a<dd><p><select><dd>" with
  | error e =>
    rw [hp] at hseen
    cases hseen
  | ok t =>
    rw [hp] at hseen
    exact ⟨t, rfl, Except.ok.inj hseen, separated_of_items hp⟩

/-- **A list item can stand right inside another one**: the menu in the paragraph stops the search for the open
item, and is closed with the paragraph. -/
theorem exists_item_directly_inside :
    ∃ t, parse "<li><p><select><li>" = .ok t ∧ ∃ x ∈ htmlNamed t ["li"], ∃ y ∈ htmlNamed t ["li"],
      t.Descends x.1 y.1 ∧ ¬ Separated t Key.stopsItems x.1 y.1 := by
  let item : Key := ⟨.html, "li"⟩
  have hseen : (forestOf "<li><p><select><li>").map (fun f => (f.spots 1).map fun x => (x.1, key x, stop x))
      = .ok [(1, item, 5), (2, ⟨.html, "p"⟩, 4), (3, ⟨.html, "select"⟩, 4), (4, item, 5)] := by
    cbv
  cases hf : forestOf "<li><p><select><li>" with
  | error e =>
    rw [hf] at hseen
    cases hseen
  | ok f =>
    rw [hf] at hseen
    have hspots : (f.spots 1).map (fun x => (x.1, key x, stop x)) = _ := Except.ok.inj hseen
    obtain ⟨t, hp, hd⟩ := parse_of_forest hf
    have hitem : ∀ place bound, (place, item, bound) ∈ (f.spots 1).map (fun x => (x.1, key x, stop x)) →
        ∃ x ∈ f.spots 1, (key x).isHtml ["li"] = true ∧ x.1 = place ∧ stop x = bound := by
      intro place bound h
      obtain ⟨x, hx, heq⟩ := List.mem_map.1 h
      simp only [Prod.mk.injEq] at heq
      obtain ⟨hplace, hkey, hstop⟩ := heq
      exact ⟨x, hx, by rw [hkey]; rfl, hplace, hstop⟩
    obtain ⟨x, hx, hxname, hxplace, hxstop⟩ := hitem 1 5 (by rw [hspots]; decide)
    obtain ⟨y, hy, hyname, hyplace, hystop⟩ := hitem 4 5 (by rw [hspots]; decide)
    refine ⟨t, hp, _, (mem_htmlNamed hd).2 ⟨x, hx, hxname, rfl⟩, _, (mem_htmlNamed hd).2 ⟨y, hy, hyname, rfl⟩, ?_, ?_⟩
    · refine (descends_iff_encloses hd hx hy).2 ⟨?_, ?_⟩
      · rw [hxplace, hyplace]
        decide
      · rw [hxstop, hyplace]
        decide
    · rintro ⟨z, hz, -, hxz, hzy⟩
      rw [allElements_of_depicts hd] at hz
      obtain ⟨s, hs, rfl⟩ := List.mem_map.1 hz
      have houter := ((descends_iff_encloses hd hx hs).1 hxz).1
      obtain ⟨hbefore, hinner⟩ := (descends_iff_encloses hd hs hy).1 hzy
      rw [hxplace] at houter
      rw [hyplace] at hbefore hinner
      -- the elements between the two places end before the inner item
      have hends : ∀ x ∈ (f.spots 1).map (fun x => (x.1, key x, stop x)), x.1 ≤ 1 ∨ 4 ≤ x.1 ∨ x.2.2 ≤ 4 := by
        rw [hspots]
        decide
      have := hends _ (List.mem_map_of_mem hs)
      simp only at this
      omega

end LiveMarkup.Html
