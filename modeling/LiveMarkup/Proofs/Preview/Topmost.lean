/-
The topmost element at a point.

What a node shows is painted after the node, child by child, and a shadow tree is painted in place of the children. The
order is a relation (`Paints`), which tells one list of nodes for each tree without circles (`paints_unique`,
`exists_paints`). The search for the topmost element goes backwards through it, so it finds the last element
whose box has the point in it (`hitTestTo_eq`, at any depth). Main result: `hitTest_topmost`.
-/
import LiveMarkup.Preview.Layout
import LiveMarkup.Proofs.Preview.History
import LiveMarkup.Proofs.Preview.Seating

set_option autoImplicit false

namespace LiveMarkup.Preview

variable {t : Tree} {layout : Layout} {p : Point} {id : Nat} {ids order other : List Nat}

/-- A node shows another right under it. -/
def ShowsUnder (t : Tree) (a b : Nat) : Prop := b ∈ composedChildren t a

/-- No way down through what nodes show leads back to where it starts. -/
def ShownWithoutCircles (t : Tree) : Prop := ∀ id, ¬ Relation.TransGen (ShowsUnder t) id id

/-- The order in which some nodes are painted, each with all that it shows. -/
inductive Paints (t : Tree) : List NodeId → List NodeId → Prop
  | nil : Paints t [] []
  | cons {id : NodeId} {ids under after : List NodeId} : Paints t (composedChildren t id) under → Paints t ids after →
      Paints t (id :: ids) (id :: under ++ after)

/-- A node is an element with a box that has a point in it. -/
structure Catches (t : Tree) (layout : Layout) (p : Point) (id : NodeId) : Prop where
  element : ∃ e, t.element? id = some e
  box : ∃ r, layout t id = some r ∧ r.contains p = true

/-- A node is the last of a list that satisfies a property. -/
def LastOf (P : NodeId → Prop) (ids : List NodeId) (id : NodeId) : Prop :=
  ∃ before after, ids = before ++ id :: after ∧ P id ∧ ∀ i ∈ after, ¬ P i

theorem isHit_iff : isHit t layout p id = true ↔ Catches t layout p id := by
  rw [isHit, Bool.and_eq_true, Tree.isElement, Option.isSome_iff_exists, Option.any_eq_true]
  exact ⟨fun h => ⟨h.1, h.2⟩, fun h => ⟨h.element, h.box⟩⟩

/-! ## The order of painting -/

/-- **Nodes are painted in one order only.** -/
theorem paints_unique (h : Paints t ids order) (h' : Paints t ids other) : other = order := by
  induction h generalizing other with
  | nil =>
    cases h'
    rfl
  | cons _ _ ihunder ihafter =>
    cases h' with
    | cons hunder hafter => rw [ihunder hunder, ihafter hafter]

/-- A place without a node shows nothing. -/
theorem composedChildren_of_le (h : t.size ≤ id) : composedChildren t id = [] := by
  have hshadow : t.shadow? id = none := by rw [Tree.shadow?, Tree.element?, Tree.get?_of_le h, Option.bind_none]
  rw [composedChildren, hshadow, Option.getD_none, Tree.children_of_le h]

theorem paints_of_le (h : t.size ≤ id) : Paints t [id] [id] := by
  have hnone : Paints t (composedChildren t id) [] := by
    rw [composedChildren_of_le h]
    exact .nil
  exact .cons hnone .nil

theorem isHit_of_le (h : t.size ≤ id) : isHit t layout p id = false := by
  rw [isHit, Tree.isElement, Tree.element?, Tree.get?_of_le h]
  rfl

/-- What several nodes are painted as is what each is painted as, one after the other. -/
theorem exists_paints_all {paint : Nat → List Nat} {q : Nat → Bool}
    (h : ∀ i ∈ ids, ∃ order, Paints t [i] order ∧ (paint i).filter q = order.filter q) :
    ∃ order, Paints t ids order ∧ (ids.flatMap paint).filter q = order.filter q := by
  induction ids with
  | nil => exact ⟨[], .nil, rfl⟩
  | cons i ids ih =>
    obtain ⟨first, hfirst, hsame⟩ := h i List.mem_cons_self
    obtain ⟨after, hafter, hrest⟩ := ih fun j hj => h j (List.mem_cons_of_mem _ hj)
    cases hfirst with
    | @cons _ _ under _ hunder hnil =>
      cases hnil
      rw [List.append_nil] at hsame
      refine ⟨i :: under ++ after, .cons hunder hafter, ?_⟩
      rw [List.flatMap_cons, List.filter_append, List.filter_append, hsame, hrest]

/-- **In a tree without circles the nodes are listed in the order in which they are painted**, down to any depth that
reaches all of them. Only places without a node may be left out. -/
theorem exists_paints (h : ShownWithoutCircles t) {q : Nat → Bool} (hq : ∀ i, t.size ≤ i → q i = false) (depth : Nat)
    (hid : id < t.size) (hdepth : placesUnder (ShowsUnder t) t.size id < depth) :
    ∃ order, Paints t [id] order ∧ (paintOrderTo t depth id).filter q = order.filter q := by
  induction depth generalizing id with
  | zero => omega
  | succ depth ih =>
    have hunder : ∃ order, Paints t (composedChildren t id) order ∧
        ((composedChildren t id).flatMap (paintOrderTo t depth)).filter q = order.filter q := exists_paints_all fun c hc => by
      by_cases hlt : c < t.size
      · have hless := placesUnder_lt h (show ShowsUnder t id c from hc) hlt
        exact ih hlt (by omega)
      · -- there is no node at this place
        have hle := Nat.not_lt.1 hlt
        refine ⟨[c], paints_of_le hle, ?_⟩
        cases depth with
        | zero => rw [paintOrderTo, List.filter_cons_of_neg (by rw [hq c hle]; decide)]
        | succ depth => rw [paintOrderTo, composedChildren_of_le hle, List.flatMap_nil]
    obtain ⟨under, hunder, hsame⟩ := hunder
    refine ⟨id :: under ++ [], .cons hunder .nil, ?_⟩
    rw [List.append_nil, paintOrderTo, List.filter_cons, List.filter_cons, hsame]

/-! ## The search -/

/-- **The search goes backwards through the order of painting.** -/
theorem hitTestTo_eq (t : Tree) (layout : Layout) (p : Point) (depth id : Nat) :
    hitTestTo t layout p depth id = ((paintOrderTo t depth id).filter (isHit t layout p)).getLast? := by
  induction depth generalizing id with
  | zero => rfl
  | succ depth ih =>
    have hunder : (composedChildren t id).reverse.findSome? (hitTestTo t layout p depth) =
        (((composedChildren t id).flatMap (paintOrderTo t depth)).filter (isHit t layout p)).getLast? := by
      rw [List.filter_flatMap, List.getLast?_flatMap, show hitTestTo t layout p depth = _ from funext ih]
    rw [hitTestTo, paintOrderTo, hunder, List.filter_cons]
    generalize (((composedChildren t id).flatMap (paintOrderTo t depth)).filter (isHit t layout p)) = under
    -- the node itself comes before all that is found under it
    cases isHit t layout p id with
    | true =>
      simp only [if_true, List.getLast?_cons]
      cases under.getLast? <;> rfl
    | false =>
      simp only [Bool.false_eq_true, if_false]
      cases under.getLast? <;> rfl

/-- The search finds the last node that is hit, of those that are painted. -/
theorem hitTest_eq (h : ShownWithoutCircles t) (layout : Layout) (p : Point) (id : Nat) :
    ∃ order, Paints t [id] order ∧ hitTest t layout p id = (order.filter (isHit t layout p)).getLast? := by
  by_cases hid : id < t.size
  · obtain ⟨order, hpaints, hsame⟩ := exists_paints h (q := isHit t layout p) (fun i hi => isHit_of_le hi) t.size hid
      (placesUnder_lt_self h hid)
    exact ⟨order, hpaints, by rw [hitTest, hitTestTo_eq, hsame]⟩
  · have hle := Nat.not_lt.1 hid
    refine ⟨[id], paints_of_le hle, ?_⟩
    rw [List.filter_cons_of_neg (by rw [isHit_of_le hle]; decide), hitTest, hitTestTo_eq]
    cases t.size with
    | zero => rfl
    | succ depth =>
      rw [paintOrderTo, composedChildren_of_le hle, List.flatMap_nil,
        List.filter_cons_of_neg (by rw [isHit_of_le hle]; decide)]

/-- The last of the nodes that are hit is the last node that catches the point. -/
theorem lastOf_iff {hit : Nat} :
    (order.filter (isHit t layout p)).getLast? = some hit ↔ LastOf (Catches t layout p) order hit := by
  rw [List.getLast?_filter, List.find?_eq_some_iff_append]
  constructor
  · rintro ⟨hcatch, after, before, hsplit, hnone⟩
    refine ⟨before.reverse, after.reverse, ?_, isHit_iff.1 hcatch, fun i hi hcatch => ?_⟩
    · rw [← List.reverse_reverse order, hsplit, List.reverse_append, List.reverse_cons, List.append_assoc,
        List.singleton_append]
    · have hno := hnone i (List.mem_reverse.1 hi)
      rw [isHit_iff.2 hcatch] at hno
      exact absurd hno Bool.false_ne_true
  · rintro ⟨before, after, rfl, hcatch, hnone⟩
    refine ⟨isHit_iff.2 hcatch, after.reverse, before.reverse, ?_, fun i hi => ?_⟩
    · rw [List.reverse_append, List.reverse_cons, List.append_assoc, List.singleton_append]
    · rw [Bool.not_eq_true', ← Bool.not_eq_true, isHit_iff]
      exact hnone i (List.mem_reverse.1 hi)

/-- **The topmost element at a point is the last one in the order of painting whose box has the point in it**, and there
is none just if no box has. -/
theorem hitTest_topmost (h : ShownWithoutCircles t) (layout : Layout) (p : Point) (id : NodeId) :
    ∃ order, Paints t [id] order ∧ (∀ other, Paints t [id] other → other = order) ∧
      (∀ hit, hitTest t layout p id = some hit ↔ LastOf (Catches t layout p) order hit) ∧
      (hitTest t layout p id = none ↔ ∀ i ∈ order, ¬ Catches t layout p i) := by
  obtain ⟨order, hpaints, heq⟩ := hitTest_eq h layout p id
  refine ⟨order, hpaints, fun other => paints_unique hpaints, fun hit => ?_, ?_⟩
  · rw [heq, lastOf_iff]
  · rw [heq, List.getLast?_eq_none_iff, List.filter_eq_nil_iff]
    simp only [isHit_iff]

/-! ## Trees whose links lead to later nodes -/

/-- Where each node shows later nodes only, there are no circles. -/
theorem shownWithoutCircles_of_lt (h : ∀ a b, b ∈ composedChildren t a → a < b) : ShownWithoutCircles t := by
  have hway : ∀ a b : Nat, Relation.TransGen (ShowsUnder t) a b → a < b := by
    intro a b hab
    induction hab with
    | single hab => exact h _ _ hab
    | tail _ hbc ih => exact Nat.lt_trans ih (h _ _ hbc)
  exact fun id hid => Nat.lt_irrefl id (hway id id hid)

/-- A tree that grows has no circles, so pages have none. -/
theorem shownWithoutCircles_of_grown (h : t.Grown) : ShownWithoutCircles t := by
  refine shownWithoutCircles_of_lt fun a b hb => ?_
  rw [composedChildren] at hb
  cases hshadow : t.shadow? a with
  | none =>
    rw [hshadow, Option.getD_none] at hb
    exact (h.later a b (Tree.mem_held_of_children hb)).1
  | some root =>
    -- a shadow tree is later than its host, and so is all that is in it
    rw [hshadow, Option.getD_some] at hb
    exact Nat.lt_trans (h.later a root (Tree.mem_held_of_shadow hshadow)).1
      (h.later root b (Tree.mem_held_of_children hb)).1

/-- The topmost element of a page that shows a link inside of a paragraph, both in a shadow tree. -/
theorem hitTest_topmost_of_shadow_mode :
    let s : Setup := ⟨"page", "editor", "content", "style", "script"⟩
    let w : Surroundings := ⟨fun _ => none, none⟩
    let t := (Frame.after s [(w, .message ⟨"editor", .render "<p>a<a>b</a></p>" "" true true⟩)]).page.tree
    let layout : Layout := fun _ id => if id = 5 ∨ 8 ≤ id then some ⟨0, 0, 8, 8⟩ else none
    ShownWithoutCircles t ∧ composedChildren t 5 = [7, 8] ∧
      ∃ order, Paints t [0] order ∧ (∀ other, Paints t [0] other → other = order) ∧
        (∀ hit, hitTest t layout ⟨1, 1⟩ 0 = some hit ↔ LastOf (Catches t layout ⟨1, 1⟩) order hit) ∧
        (hitTest t layout ⟨1, 1⟩ 0 = none ↔ ∀ i ∈ order, ¬ Catches t layout ⟨1, 1⟩ i) := by
  intro s w t layout
  have hkeeps : ∀ x ∈ [((w, .message ⟨"editor", .render "<p>a<a>b</a></p>" "" true true⟩) : Surroundings × Event)],
      x.2.KeepsScript s.editorOrigin := by
    intro x hx
    rw [List.mem_singleton.1 hx]
    exact fun _ => rfl
  have hcircles : ShownWithoutCircles t := shownWithoutCircles_of_grown (Frame.drawn_after hkeeps).grown
  exact ⟨hcircles, by decide +kernel, hitTest_topmost hcircles layout ⟨1, 1⟩ 0⟩

end LiveMarkup.Preview
