/-
The elements around an element.

The elements that an element of a forest is inside of, the innermost first, are what was open when its start tag
was read. They are read off the places alone, since the places of what is inside an element follow its own
(`Forest.around`). In a tree that shows the forest they are the ancestors (`descends_iff_encloses`), and the
innermost of them is the parent (`parent_iff`).
-/
import LiveMarkup.Proofs.Html.Descent
import Mathlib.Data.List.Pairwise
import Mathlib.Tactic.ByContra

set_option autoImplicit false

namespace LiveMarkup

/-- A node is a child of the same parent as another, before it. -/
def Tree.Precedes (t : Tree) (first second : NodeId) : Prop :=
  ∃ parent, [first, second].Sublist (t.children parent)

namespace Html

/-! ## Places inside one another -/

/-- An element at its place, with what is inside it. -/
abbrev Spot := Nat × Element × Forest

/-- The key of an element at its place. -/
def Spot.key (x : Spot) : Key := keyOf x.2.1

/-- The place after an element and all that is inside it. -/
def Spot.stop (x : Spot) : Nat := boxOf x.1 x.2.1 + 1 + x.2.2.size

/-- The place of an element is one of those inside another. -/
def Spot.Encloses (x y : Spot) : Prop := x.1 < y.1 ∧ y.1 < Spot.stop x

instance (x y : Spot) : Decidable (Spot.Encloses x y) := inferInstanceAs (Decidable (_ ∧ _))

open Spot

namespace Forest

/-- The elements that an element of a forest is inside of, the innermost first. -/
def around (lo : Nat) (f : Forest) (y : Spot) : List Spot :=
  ((f.spots lo).filter fun x => Encloses x y).reverse

variable {lo : Nat} {f : Forest} {e : Element} {inside rest : Forest} {x y z : Spot}

theorem mem_around : x ∈ f.around lo y ↔ x ∈ f.spots lo ∧ Encloses x y := by
  rw [around, List.mem_reverse, List.mem_filter, decide_eq_true_iff]

/-- What is inside an element of a forest is in the forest. -/
theorem mem_spots_inside (hx : x ∈ f.spots lo) (hy : y ∈ x.2.2.spots (boxOf x.1 x.2.1 + 1)) : y ∈ f.spots lo := by
  induction f generalizing lo with
  | nil => exact absurd hx List.not_mem_nil
  | text s rest ih => exact ih hx
  | comment s rest ih => exact ih hx
  | element e inside rest ihi ihr =>
    rcases spots_element.1 hx with rfl | hx | hx
    · exact spots_element.2 (.inr (.inl hy))
    · exact spots_element.2 (.inr (.inl (ihi hx)))
    · exact spots_element.2 (.inr (.inr (ihr hx)))

/-! ## The elements around what a forest begins with -/

theorem stop_bounds (hx : x ∈ f.spots lo) : lo ≤ x.1 ∧ x.1 < stop x ∧ stop x ≤ lo + f.size := by
  obtain ⟨hlo, hhi⟩ := spot_bounds hx
  have hbox := boxOf_eq x.1 x.2.1
  unfold stop
  omega

theorem filter_spots_eq_nil (h : ∀ x ∈ f.spots lo, ¬ Encloses x y) :
    (f.spots lo).filter (fun x => Encloses x y) = [] := by
  rw [List.filter_eq_nil_iff]
  intro x hx
  rw [decide_eq_true_iff]
  exact h x hx

/-- Nothing is around the element that a forest begins with. -/
theorem around_self : (element e inside rest).around lo (lo, e, inside) = [] := by
  rw [around, filter_spots_eq_nil, List.reverse_nil]
  intro x hx henc
  exact absurd henc.1 (Nat.not_lt.2 (stop_bounds hx).1)

/-- Around what is inside the element that a forest begins with is that element, farthest out. -/
theorem around_inside (hy : y ∈ inside.spots (boxOf lo e + 1)) :
    (element e inside rest).around lo y = inside.around (boxOf lo e + 1) y ++ [(lo, e, inside)] := by
  have hbox := boxOf_eq lo e
  have hbounds := stop_bounds hy
  have hself : Encloses (lo, e, inside) y := by
    constructor
    · simp only
      omega
    · unfold stop
      simp only
      omega
  -- what comes after the element has larger places than all inside it
  have hafter : ∀ x ∈ rest.spots (boxOf lo e + 1 + inside.size), ¬ Encloses x y := by
    intro x hx henc
    have hlt := henc.1
    have := (stop_bounds hx).1
    omega
  rw [around, spots, List.filter_cons, if_pos (decide_eq_true hself), List.filter_append, filter_spots_eq_nil hafter,
    List.append_nil, List.reverse_cons]
  rfl

/-- What comes after an element is not inside it. -/
theorem around_rest (hy : y ∈ rest.spots (boxOf lo e + 1 + inside.size)) :
    (element e inside rest).around lo y = rest.around (boxOf lo e + 1 + inside.size) y := by
  have hbounds := stop_bounds hy
  have hself : ¬ Encloses (lo, e, inside) y := by
    intro henc
    have hlt := henc.2
    unfold stop at hlt
    simp only at hlt
    omega
  have hbefore : ∀ x ∈ inside.spots (boxOf lo e + 1), ¬ Encloses x y := by
    intro x hx henc
    have hlt := henc.2
    have := (stop_bounds hx).2.2
    omega
  rw [around, spots, List.filter_cons, if_neg (by rwa [decide_eq_true_iff]), List.filter_append,
    filter_spots_eq_nil hbefore, List.nil_append]
  rfl

/-- An element is one of the outermost nodes inside the innermost element around it, or of the forest. -/
theorem place_of_around (hy : y ∈ f.spots lo) :
    y.1 ∈ (f.around lo y).head?.elim (f.places lo) fun x => x.2.2.places (boxOf x.1 x.2.1 + 1) := by
  -- nodes that come before those of a forest are not left out
  have hmore : ∀ {i : Option Spot} {first second : List Nat} {g : Spot → List Nat}, (∀ id ∈ first, id ∈ second) →
      y.1 ∈ i.elim first g → y.1 ∈ i.elim second g := by
    intro i first second g hsub hmem
    cases i with
    | none => exact hsub _ hmem
    | some x => exact hmem
  induction f generalizing lo with
  | nil => exact absurd hy List.not_mem_nil
  | text s rest ih => exact hmore (fun _ => List.mem_cons_of_mem _) (ih hy)
  | comment s rest ih => exact hmore (fun _ => List.mem_cons_of_mem _) (ih hy)
  | element e inside rest ihi ihr =>
    rcases spots_element.1 hy with rfl | hy | hy
    · rw [around_self]
      exact List.mem_cons_self
    · rw [around_inside hy, List.head?_append]
      have hplace := ihi hy
      cases hhead : (inside.around (boxOf lo e + 1) y).head? with
      | none =>
        rw [hhead] at hplace
        exact hplace
      | some x =>
        rw [hhead] at hplace
        exact hplace
    · rw [around_rest hy]
      exact hmore (fun _ => List.mem_cons_of_mem _) (ihr hy)

/-! ## The order of the elements around an element -/

/-- Elements are listed in the order of their places. -/
theorem sorted_spots (lo : Nat) (f : Forest) : (f.spots lo).Pairwise fun x y => x.1 < y.1 := by
  induction f generalizing lo with
  | nil => exact .nil
  | text s rest ih => exact ih _
  | comment s rest ih => exact ih _
  | element e inside rest ihi ihr =>
    have hbox := boxOf_eq lo e
    -- the element comes before what is inside it, and that before the rest
    rw [spots, List.pairwise_cons, List.pairwise_append]
    refine ⟨?_, ihi _, ihr _, ?_⟩
    · intro y hy
      simp only
      rcases List.mem_append.1 hy with hy | hy
      · have := (stop_bounds hy).1
        omega
      · have := (stop_bounds hy).1
        omega
    · intro x hx y hy
      have := stop_bounds hx
      have := (stop_bounds hy).1
      omega

/-- The outermost nodes are listed in the order of their places. -/
theorem sorted_places (lo : Nat) (f : Forest) : (f.places lo).Pairwise (· < ·) := by
  induction f generalizing lo with
  | nil => exact .nil
  | text s rest ih => exact List.pairwise_cons.2 ⟨fun id hid => (mem_places hid).1, ih _⟩
  | comment s rest ih => exact List.pairwise_cons.2 ⟨fun id hid => (mem_places hid).1, ih _⟩
  | element e inside rest _ ih =>
    refine List.pairwise_cons.2 ⟨fun id hid => ?_, ih _⟩
    have hbox := boxOf_eq lo e
    have := (mem_places hid).1
    omega

/-- Different elements have different places. -/
theorem eq_of_place (hx : x ∈ f.spots lo) (hy : y ∈ f.spots lo) (h : x.1 = y.1) : x = y := by
  have hsymm : Std.Symm fun x y : Spot => x.1 ≠ y.1 := ⟨fun _ _ => Ne.symm⟩
  have hpairs : (f.spots lo).Pairwise fun x y => x.1 ≠ y.1 := (sorted_spots lo f).imp Nat.ne_of_lt
  by_contra hne
  exact hpairs.forall hx hy hne h

/-- Of the elements around an element, each is inside those farther out. -/
theorem around_nested (lo : Nat) (f : Forest) (y : Spot) : (f.around lo y).Pairwise fun a b => Encloses b a := by
  -- of two elements that have the same one inside, that with the larger place begins inside the other
  rw [around, List.pairwise_reverse]
  refine List.Pairwise.imp_of_mem ?_ ((sorted_spots lo f).filter _)
  intro a b ha hb hlt
  have hay := of_decide_eq_true (List.mem_filter.1 ha).2
  have hby := of_decide_eq_true (List.mem_filter.1 hb).2
  exact ⟨hlt, Nat.lt_trans hby.1 hay.2⟩

/-- The elements around an element, cut at one of them: those before it stand between the two. -/
theorem between_of_around {above below : List Spot} (h : f.around lo y = above ++ x :: below) (hz : z ∈ above) :
    z ∈ f.spots lo ∧ Encloses x z ∧ Encloses z y := by
  have hmem : z ∈ f.around lo y := h ▸ List.mem_append_left _ hz
  have hnested := around_nested lo f y
  rw [h, List.pairwise_append] at hnested
  exact ⟨(mem_around.1 hmem).1, hnested.2.2 z hz x List.mem_cons_self, (mem_around.1 hmem).2⟩

end Forest

/-! ## Ancestors and parents -/

section Tree

variable {t : Tree} {f : Forest} {x y : Spot}

/-- **The ancestors of an element are the elements around it.** -/
theorem descends_iff_encloses (hd : Depicts t f) (hx : x ∈ f.spots 1) (hy : y ∈ f.spots 1) :
    t.Descends x.1 y.1 ↔ Encloses x y := by
  constructor
  · exact bounds_of_descends hd.shows hx
  · rintro ⟨hlo, hhi⟩
    exact (descends_iff hd hx hy).2 (spot_of_bounds hx hy hlo hhi)

/-- The parent of an element is the innermost element around it, or what holds the contents of that one. -/
theorem parent_of_around {parent lo : Nat} (hf : Shows t parent lo f) (hy : y ∈ f.spots lo) :
    t.parent? y.1 = some ((f.around lo y).head?.elim parent fun x => boxOf x.1 x.2.1) := by
  induction f generalizing parent lo with
  | nil => exact absurd hy List.not_mem_nil
  | text s rest ih => exact ih hf.2 hy
  | comment s rest ih => exact ih hf.2 hy
  | element e inside rest ihi ihr =>
    have hself := parent_of_shows hf lo List.mem_cons_self
    obtain ⟨-, -, hi, hr⟩ := hf
    rcases Forest.spots_element.1 hy with rfl | hy | hy
    · rw [Forest.around_self]
      exact hself
    · rw [ihi hi hy, Forest.around_inside hy, List.head?_append]
      cases (inside.around (boxOf lo e + 1) y).head? <;> rfl
    · rw [ihr hr hy, Forest.around_rest hy]

/-- An element is the parent of another when it is the innermost one around it, unless it is a template. -/
theorem parent_iff (hd : Depicts t f) (hx : x ∈ f.spots 1) (hy : y ∈ f.spots 1) :
    t.parent? y.1 = some x.1 ↔ (f.around 1 y).head? = some x ∧ isTemplate x.2.1 = false := by
  rw [parent_of_around hd.shows hy, Option.some.injEq]
  cases hhead : (f.around 1 y).head? with
  | none =>
    refine iff_of_false ?_ (fun h => absurd h.1 nofun)
    exact fun h => absurd (Forest.stop_bounds hx).1 (by rw [← h]; exact Nat.not_succ_le_zero 0)
  | some a =>
    have ha := (Forest.mem_around.1 (List.mem_of_mem_head? hhead)).1
    simp only [Option.elim_some, Option.some.injEq]
    constructor
    · intro hplace
      cases ht : isTemplate a.2.1 with
      | false =>
        rw [boxOf, ht, if_neg Bool.false_ne_true] at hplace
        obtain rfl := Forest.eq_of_place ha hx hplace
        exact ⟨rfl, ht⟩
      | true =>
        -- no element has the place of what holds the contents of a template
        have hbox : boxOf a.1 a.2.1 = a.1 + 1 := by rw [boxOf, if_pos ht]
        have hinside := spot_of_bounds ha hx (by omega) (by omega)
        have := (Forest.stop_bounds hinside).1
        omega
    · rintro ⟨rfl, ht⟩
      rw [boxOf, ht, if_neg Bool.false_ne_true]

/-- The children of an element have it as their parent. -/
theorem parent_of_child (hd : Depicts t f) (hx : x ∈ f.spots 1) {id : NodeId} (h : id ∈ t.children x.1) :
    t.parent? id = some x.1 := by
  obtain ⟨-, ⟨parent, hh⟩, hi⟩ := holds_of_spot hd.shows hx
  by_cases ht : isTemplate x.2.1
  · -- a template has no children, since its contents are in a fragment
    rw [Holds, if_pos ht] at hh
    rw [Tree.children_of_core hh.1] at h
    exact absurd h List.not_mem_nil
  · have hbox : boxOf x.1 x.2.1 = x.1 := by rw [boxOf, if_neg ht]
    rw [← hbox, children_of_holds hh] at h
    rw [← hbox]
    exact parent_of_shows hi id h

/-- Of two members of a sorted list that can stand in one order only, the first one stands first. -/
theorem sublist_of_sorted {α : Type} {r : α → α → Prop} {l : List α} (h : l.Pairwise r) {a b : α} (ha : a ∈ l)
    (hb : b ∈ l) (hne : a ≠ b) (hnot : ¬ r b a) : [a, b].Sublist l := by
  obtain ⟨before, after, rfl⟩ := List.append_of_mem ha
  have hbehind : b ∈ after := by
    rcases List.mem_append.1 hb with hb | hb
    · exact absurd ((List.pairwise_append.1 h).2.2 b hb a List.mem_cons_self) hnot
    · exact (List.mem_cons.1 hb).resolve_left hne.symm
  exact List.sublist_append_of_sublist_right (List.Sublist.cons_cons a (List.singleton_sublist.2 hbehind))

/-- Of two elements with the same elements around them, the one at the smaller place precedes the other. -/
theorem precedes_of_around (hd : Depicts t f) (hx : x ∈ f.spots 1) (hy : y ∈ f.spots 1)
    (h : f.around 1 x = f.around 1 y) (hlt : x.1 < y.1) : t.Precedes x.1 y.1 := by
  have hxplace := Forest.place_of_around hx
  have hyplace := Forest.place_of_around hy
  rw [h] at hxplace
  -- both are children of the same node, the innermost around them or the document, and these are sorted
  cases hhead : (f.around 1 y).head? with
  | none =>
    rw [hhead] at hxplace hyplace
    refine ⟨Tree.root, ?_⟩
    rw [Tree.children_of_core hd.document]
    exact sublist_of_sorted (Forest.sorted_places 1 f) hxplace hyplace (Nat.ne_of_lt hlt) (Nat.lt_asymm hlt)
  | some a =>
    rw [hhead] at hxplace hyplace
    have ha := (Forest.mem_around.1 (List.mem_of_mem_head? hhead)).1
    obtain ⟨-, ⟨parent, hh⟩, -⟩ := holds_of_spot hd.shows ha
    refine ⟨boxOf a.1 a.2.1, ?_⟩
    rw [children_of_holds hh]
    exact sublist_of_sorted (Forest.sorted_places _ a.2.2) hxplace hyplace (Nat.ne_of_lt hlt) (Nat.lt_asymm hlt)

end Tree

end Html

end LiveMarkup
