/-
What is inside a node.

A node is inside another one when a path of children and template contents leads to it. In a tree that
shows a forest, the elements inside an element are those inside it in the forest (`descends_iff`).
-/
import LiveMarkup.Proofs.Html.Views

set_option autoImplicit false

namespace LiveMarkup

/-- A node is inside another: it is one of its children, the contents of a template, or inside those. -/
inductive Tree.Descends (t : Tree) (ancestor : NodeId) : NodeId → Prop
  | child {id : NodeId} : id ∈ t.children ancestor → Descends t ancestor id
  | contents {id : NodeId} : t.contents? ancestor = some id → Descends t ancestor id
  | childOf {mid id : NodeId} : Descends t ancestor mid → id ∈ t.children mid → Descends t ancestor id
  | contentsOf {mid id : NodeId} : Descends t ancestor mid → t.contents? mid = some id → Descends t ancestor id

namespace Html

/-! ## From the forest to the tree -/

theorem contents?_of_holds {t : Tree} {parent id : Nat} {e : Element} {kids : List Nat}
    (hc : e.contents = none) (hh : Holds t parent id e kids) :
    t.contents? id = if isTemplate e then some (id + 1) else none := by
  rw [Tree.contents?, element?_of_holds hh, Option.bind_some, placed]
  split
  · rfl
  · exact hc

theorem children_of_holds {t : Tree} {parent id : Nat} {e : Element} {kids : List Nat}
    (hh : Holds t parent id e kids) : t.children (boxOf id e) = kids := by
  unfold Holds at hh
  unfold boxOf
  split
  · rename_i ht
    rw [if_pos ht] at hh
    exact Tree.children_of_core hh.2
  · rename_i ht
    rw [if_neg ht] at hh
    exact Tree.children_of_core hh

/-- The children of an element, or of its contents, are inside it. -/
theorem descends_of_holds {t : Tree} {parent id : Nat} {e : Element} {kids : List Nat} (hc : e.contents = none)
    (hh : Holds t parent id e kids) : ∀ kid ∈ kids, t.Descends id kid := by
  intro kid hkid
  rw [← children_of_holds hh] at hkid
  by_cases ht : isTemplate e
  · have hbox : boxOf id e = id + 1 := if_pos ht
    have hcontents : t.contents? id = some (id + 1) := by rw [contents?_of_holds hc hh, if_pos ht]
    rw [hbox] at hkid
    exact .childOf (.contents hcontents) hkid
  · have hbox : boxOf id e = id := if_neg ht
    rw [hbox] at hkid
    exact .child hkid

theorem descends_trans {t : Tree} {a b c : NodeId} (hab : t.Descends a b) (hbc : t.Descends b c) :
    t.Descends a c := by
  induction hbc with
  | child hc => exact .childOf hab hc
  | contents hc => exact .contentsOf hab hc
  | childOf _ hc ih => exact .childOf ih hc
  | contentsOf _ hc ih => exact .contentsOf ih hc

theorem descends_of_spot {t : Tree} {ancestor parent lo : Nat} {f : Forest} (hf : Shows t parent lo f)
    (ha : ∀ kid ∈ f.places lo, t.Descends ancestor kid) {x : Nat × Element × Forest} (hx : x ∈ f.spots lo) :
    t.Descends ancestor x.1 := by
  induction f generalizing parent lo with
  | nil => exact absurd hx List.not_mem_nil
  | text s rest ih => exact ih hf.2 (fun kid hkid => ha kid (List.mem_cons_of_mem _ hkid)) hx
  | comment s rest ih => exact ih hf.2 (fun kid hkid => ha kid (List.mem_cons_of_mem _ hkid)) hx
  | element e inside rest ihi ihr =>
    obtain ⟨hc, hh, hi, hr⟩ := hf
    have hself : t.Descends ancestor lo := ha lo List.mem_cons_self
    rcases Forest.spots_element.1 hx with rfl | hx | hx
    · exact hself
    · exact ihi hi (fun kid hkid => descends_trans hself (descends_of_holds hc hh kid hkid)) hx
    · exact ihr hr (fun kid hkid => ha kid (List.mem_cons_of_mem _ hkid)) hx

/-! ## From the tree to the forest -/

theorem mem_places {f : Forest} {lo id : Nat} (h : id ∈ f.places lo) : lo ≤ id ∧ id < lo + f.size := by
  induction f generalizing lo with
  | nil => exact absurd h List.not_mem_nil
  | text s rest ih =>
    rcases List.mem_cons.1 h with rfl | h
    · exact ⟨Nat.le_refl _, by simp only [Forest.size]; omega⟩
    · have := ih h
      exact ⟨by omega, by simp only [Forest.size]; omega⟩
  | comment s rest ih =>
    rcases List.mem_cons.1 h with rfl | h
    · exact ⟨Nat.le_refl _, by simp only [Forest.size]; omega⟩
    · have := ih h
      exact ⟨by omega, by simp only [Forest.size]; omega⟩
  | element e inside rest _ ih =>
    have hbox := Forest.boxOf_eq lo e
    rcases List.mem_cons.1 h with rfl | h
    · exact ⟨Nat.le_refl _, by simp only [Forest.size]; omega⟩
    · have := ih h
      exact ⟨by omega, by simp only [Forest.size]; omega⟩

/-- The nodes right below one of the nodes of a forest are later nodes of the forest. -/
theorem below_of_shows {t : Tree} {parent lo id kid : Nat} {f : Forest} (hf : Shows t parent lo f)
    (hlo : lo ≤ id) (hhi : id < lo + f.size) (hkid : kid ∈ t.children id ∨ t.contents? id = some kid) :
    id < kid ∧ kid < lo + f.size := by
  -- a text and a comment have nothing below them
  have hleaf : ∀ {kind : Kind} {p : Option Nat} {i : Nat}, t.core? i = some ⟨kind, p, []⟩ →
      (∀ e, kind ≠ .element e) → ¬ (kid ∈ t.children i ∨ t.contents? i = some kid) := by
    rintro kind p i hcore hkind (hmem | hsome)
    · rw [Tree.children_of_core hcore] at hmem
      exact absurd hmem List.not_mem_nil
    · rw [contents?_of_core hcore] at hsome
      cases kind with
      | element e => exact hkind e rfl
      | _ => cases hsome
  induction f generalizing parent lo with
  | nil => exact absurd hhi (Nat.not_lt.2 hlo)
  | text s rest ih =>
    simp only [Forest.size] at hhi ⊢
    by_cases hid : id = lo
    · subst hid
      refine absurd hkid (hleaf hf.1 ?_)
      rintro e ⟨⟩
    · have := ih hf.2 (by omega) (by omega)
      omega
  | comment s rest ih =>
    simp only [Forest.size] at hhi ⊢
    by_cases hid : id = lo
    · subst hid
      refine absurd hkid (hleaf hf.1 ?_)
      rintro e ⟨⟩
    · have := ih hf.2 (by omega) (by omega)
      omega
  | element e inside rest ihi ihr =>
    obtain ⟨hc, hh, hi, hr⟩ := hf
    have hbox := Forest.boxOf_eq lo e
    simp only [Forest.size] at hhi ⊢
    by_cases hself : id ≤ boxOf lo e
    · -- the element itself, or the contents of a template
      have hkids : ∀ i ∈ inside.places (boxOf lo e + 1), id < i ∧
          i < lo + (boxOf 0 e + 1 + inside.size + rest.size) := by
        intro i hi
        have := mem_places hi
        omega
      unfold Holds at hh
      by_cases ht : isTemplate e
      · have hboxOf : boxOf lo e = lo + 1 := if_pos ht
        rw [if_pos ht] at hh
        by_cases hid : id = lo
        · subst hid
          rw [Tree.children_of_core hh.1, contents?_of_core hh.1] at hkid
          simp only [placed, ht, if_true] at hkid
          rcases hkid with hkid | hkid
          · exact absurd hkid List.not_mem_nil
          · obtain rfl := Option.some.inj hkid
            omega
        · have hid : id = lo + 1 := by omega
          subst hid
          rw [Tree.children_of_core hh.2, contents?_of_core hh.2] at hkid
          rcases hkid with hkid | hkid
          · exact hkids kid hkid
          · cases hkid
      · have hboxOf : boxOf lo e = lo := if_neg ht
        have hid : id = lo := by omega
        subst hid
        rw [if_neg ht] at hh
        rw [Tree.children_of_core hh, contents?_of_core hh] at hkid
        simp only [placed, ht, hc, Bool.false_eq_true, if_false] at hkid
        rcases hkid with hkid | hkid
        · exact hkids kid hkid
        · cases hkid
    · by_cases hin : id < boxOf lo e + 1 + inside.size
      · have := ihi hi (by omega) hin
        omega
      · have := ihr hr (by omega) (by omega)
        omega

/-- What is inside an element of a forest takes the places after it. -/
theorem bounds_of_descends {t : Tree} {parent lo : Nat} {f : Forest} {x : Nat × Element × Forest}
    (hf : Shows t parent lo f) (hx : x ∈ f.spots lo) {id : Nat} (h : t.Descends x.1 id) :
    x.1 < id ∧ id < boxOf x.1 x.2.1 + 1 + x.2.2.size := by
  obtain ⟨hc, ⟨p, hh⟩, hi⟩ := holds_of_spot hf hx
  -- the element with what is inside it is a forest of its own
  have hself : Shows t p x.1 (.element x.2.1 x.2.2 .nil) := ⟨hc, hh, hi, trivial⟩
  have hbox := Forest.boxOf_eq x.1 x.2.1
  have hsize : (Forest.element x.2.1 x.2.2 .nil).size = boxOf 0 x.2.1 + 1 + x.2.2.size := rfl
  have hbelow : ∀ {i kid : Nat}, x.1 ≤ i → i < boxOf x.1 x.2.1 + 1 + x.2.2.size →
      (kid ∈ t.children i ∨ t.contents? i = some kid) → x.1 < kid ∧ kid < boxOf x.1 x.2.1 + 1 + x.2.2.size := by
    intro i kid hlo hhi hkid
    have := below_of_shows hself hlo (by omega) hkid
    omega
  induction h with
  | child hkid => exact hbelow (Nat.le_refl _) (by omega) (.inl hkid)
  | contents hkid => exact hbelow (Nat.le_refl _) (by omega) (.inr hkid)
  | childOf _ hkid ih => exact hbelow (Nat.le_of_lt ih.1) ih.2 (.inl hkid)
  | contentsOf _ hkid ih => exact hbelow (Nat.le_of_lt ih.1) ih.2 (.inr hkid)

/-- An element whose place is one of those after an element is inside it. -/
theorem spot_of_bounds {lo : Nat} {f : Forest} {x y : Nat × Element × Forest} (hx : x ∈ f.spots lo)
    (hy : y ∈ f.spots lo) (hlo : x.1 < y.1) (hhi : y.1 < boxOf x.1 x.2.1 + 1 + x.2.2.size) :
    y ∈ x.2.2.spots (boxOf x.1 x.2.1 + 1) := by
  -- the bounds leave only the part of the forest that the first element is in
  induction f generalizing lo with
  | nil => exact absurd hx List.not_mem_nil
  | text s rest ih => exact ih hx hy
  | comment s rest ih => exact ih hx hy
  | element e inside rest ihi ihr =>
    have hbox := Forest.boxOf_eq lo e
    rcases Forest.spots_element.1 hx with rfl | hx | hx
    · rcases Forest.spots_element.1 hy with rfl | hy | hy
      · exact absurd hlo (Nat.lt_irrefl _)
      · exact hy
      · have := (Forest.spot_bounds hy).1
        exact absurd hhi (by simp only; omega)
    · have hbounds := Forest.spot_bounds hx
      rcases Forest.spots_element.1 hy with rfl | hy | hy
      · exact absurd hlo (by simp only; omega)
      · exact ihi hx hy
      · have := (Forest.spot_bounds hy).1
        omega
    · have hbounds := Forest.spot_bounds hx
      rcases Forest.spots_element.1 hy with rfl | hy | hy
      · exact absurd hlo (by simp only; omega)
      · have := Forest.spot_bounds hy
        have := Forest.boxOf_eq y.1 y.2.1
        omega
      · exact ihr hx hy

/-- **The elements inside an element are those inside it in the forest.** -/
theorem descends_iff {t : Tree} {f : Forest} (hd : Depicts t f) {x y : Nat × Element × Forest}
    (hx : x ∈ f.spots 1) (hy : y ∈ f.spots 1) :
    t.Descends x.1 y.1 ↔ y ∈ x.2.2.spots (boxOf x.1 x.2.1 + 1) := by
  constructor
  · intro h
    obtain ⟨hlo, hhi⟩ := bounds_of_descends hd.shows hx h
    exact spot_of_bounds hx hy hlo hhi
  · intro h
    obtain ⟨hc, ⟨p, hh⟩, hi⟩ := holds_of_spot hd.shows hx
    exact descends_of_spot hi (descends_of_holds hc hh) h

end Html

end LiveMarkup
