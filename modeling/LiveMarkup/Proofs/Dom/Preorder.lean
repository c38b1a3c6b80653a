/-
Document order.

The order of the nodes below a node is told by recursion: each child, followed by what is below it (`Preorder`). The
walk down keeps a list of the nodes that are still to be visited, and what it gives from there on is the document order
of that list (`visit_of_preorder`). So a walk that ends gives nothing else (`preorder_of_visit`), and where no node is
its own ancestor every walk ends (`descendants_preorder`).
-/
import LiveMarkup.Proofs.Dom.Growth

set_option autoImplicit false

namespace LiveMarkup.Tree

/-- Document order by recursion: the nodes of a list one after the other, each followed by the nodes below it. -/
inductive Preorder (t : Tree) : List NodeId → List NodeId → Prop
  | nil : Preorder t [] []
  | cons {id : NodeId} {rest below after : List NodeId} : Preorder t (t.children id) below → Preorder t rest after →
      Preorder t (id :: rest) (id :: (below ++ after))

variable {t : Tree} {ids ids' order order' : List NodeId} {a b : NodeId}

/-! ## Orders of lists -/

theorem Preorder.append (h : t.Preorder ids order) (h' : t.Preorder ids' order') :
    t.Preorder (ids ++ ids') (order ++ order') := by
  induction h with
  | nil => exact h'
  | cons hbelow _ _ ih =>
    rw [List.cons_append, List.cons_append, List.append_assoc]
    exact .cons hbelow ih

/-- The order of two lists is that of the first, then that of the second. -/
theorem Preorder.exists_of_append (h : t.Preorder (ids ++ ids') order) :
    ∃ first second, order = first ++ second ∧ t.Preorder ids first ∧ t.Preorder ids' second := by
  induction ids generalizing order with
  | nil => exact ⟨[], order, rfl, .nil, h⟩
  | cons id ids ih =>
    cases h with
    | @cons _ _ below after hbelow hafter =>
      obtain ⟨first, second, rfl, hfirst, hsecond⟩ := ih hafter
      exact ⟨id :: (below ++ first), second, by simp, .cons hbelow hfirst, hsecond⟩

theorem Preorder.mem_of_mem (h : t.Preorder ids order) (ha : a ∈ ids) : a ∈ order := by
  induction h with
  | nil => exact ha
  | cons _ _ _ ih =>
    rcases List.mem_cons.1 ha with rfl | ha
    · exact List.mem_cons_self
    · exact List.mem_cons_of_mem _ (List.mem_append_right _ (ih ha))

/-- The children of a node in the order are in it. -/
theorem Preorder.mem_of_children (h : t.Preorder ids order) (ha : a ∈ order) (hb : b ∈ t.children a) : b ∈ order := by
  induction h with
  | nil => exact absurd ha List.not_mem_nil
  | cons hbelow _ ihbelow ihafter =>
    refine List.mem_cons_of_mem _ (List.mem_append.2 ?_)
    rcases List.mem_cons.1 ha with rfl | ha
    · exact .inl (hbelow.mem_of_mem hb)
    · rcases List.mem_append.1 ha with ha | ha
      · exact .inl (ihbelow ha)
      · exact .inr (ihafter ha)

theorem Preorder.mem_of_below (h : t.Preorder (t.children a) order) (hbelow : t.Below a b) : b ∈ order := by
  induction hbelow with
  | single hb => exact h.mem_of_mem hb
  | tail _ hbc ih => exact h.mem_of_children ih hbc

/-! ## The walk down -/

/-- **The walk down follows document order.** What is given from some pending nodes on is the order of these nodes, as
far as the walk may go. -/
theorem visit_of_preorder (h : t.Preorder ids order) (limit : Nat) : t.visit limit ids = order.take limit := by
  induction limit generalizing ids order with
  | zero => rfl
  | succ limit ih =>
    cases h with
    | nil => rfl
    | cons hbelow hafter => rw [visit, List.take_succ_cons, ih (hbelow.append hafter)]

/-- **A walk that ends has gone through all of the order.** -/
theorem preorder_of_visit {limit : Nat} (h : (t.visit limit ids).length < limit) :
    t.Preorder ids (t.visit limit ids) := by
  induction limit generalizing ids with
  | zero => exact absurd h (Nat.not_lt_zero _)
  | succ limit ih =>
    cases ids with
    | nil => exact .nil
    | cons id ids =>
      rw [visit, List.length_cons] at h
      obtain ⟨below, after, horder, hbelow, hafter⟩ := (ih (Nat.lt_of_succ_lt_succ h)).exists_of_append
      rw [visit, horder]
      exact .cons hbelow hafter

/-- The descendants of a node are its children in document order, where no node is its own ancestor. -/
theorem preorder_descendants (h : t.Linked) (hacyclic : Acyclic t.parent?) (n : NodeId) :
    t.Preorder (t.children n) (t.descendants n) := by
  have hle := length_visit_le h hacyclic
  have horder := preorder_of_visit (Nat.lt_succ_of_le (hle (t.size + 1) n))
  have hall := visit_of_preorder horder t.size
  rw [List.take_of_length_le (hle _ n)] at hall
  rw [descendants, descendantsUpTo, hall]
  exact horder

/-- **The descendants of a node are the nodes below it in document order**, each of them once. The walk gives them and
comes to its end, the texts among them make the text of the node, and an element is looked up as the first of them that
has the `id`. -/
theorem descendants_preorder (h : t.Linked) (hacyclic : Acyclic t.parent?) (n : NodeId) :
    ∃ order, t.Preorder (t.children n) order ∧ (∀ limit, t.descendantsUpTo limit n = order.take limit) ∧
      t.descendants n = order ∧ order.Nodup ∧ (∀ d, d ∈ order ↔ t.Below n d) ∧
      t.textContent n = String.join (order.filterMap t.text?) ∧
      ∀ name d, t.elementById? n name = some d ↔
        ∃ before after, order = before ++ d :: after ∧ (t.element? d).bind Element.id? = some name ∧
          ∀ b ∈ before, (t.element? b).bind Element.id? ≠ some name := by
  have horder := preorder_descendants h hacyclic n
  refine ⟨t.descendants n, horder, visit_of_preorder horder, rfl, ?_, fun d => ?_, rfl, fun name d => ?_⟩
  · exact nodup_visit h hacyclic t.size (apart_siblings h hacyclic n)
  · exact ⟨below_of_mem_descendants h, horder.mem_of_below⟩
  · rw [elementById?, List.find?_eq_some_iff_append]
    simp only [beq_iff_eq, Bool.not_eq_true', beq_eq_false_iff_ne]
    constructor
    · rintro ⟨hd, before, after, hsplit, hbefore⟩
      exact ⟨before, after, hsplit, hd, hbefore⟩
    · rintro ⟨before, after, hsplit, hd, hbefore⟩
      exact ⟨hd, before, after, hsplit, hbefore⟩

/-- An element with texts and two elements of one `id`, of which the first stands around a text. -/
def twoOfOneId : Tree :=
  let named (name : String) : Kind := .element { Element.ofName name with attributes := [⟨"id", "x"⟩] }
  Tree.empty.after [.create (.text "b"), .create (named "b"), .create (.text "a"), .create (named "i"),
    .create (.text "c"), .create (.element (.ofName "p")), .append 2 1, .append 6 3, .append 6 2, .append 6 5,
    .append 6 4]

/-- The text in the first of the two stands between the texts around it. -/
theorem descendants_of_twoOfOneId :
    (twoOfOneId.Linked ∧ Acyclic twoOfOneId.parent?) ∧ twoOfOneId.descendants 6 = [3, 2, 1, 5, 4] ∧
      twoOfOneId.textContent 6 = "abc" ∧ twoOfOneId.elementById? 6 "x" = some 2 := by
  have hlinked : twoOfOneId.Linked := linked_run _
  have hacyclic : Acyclic twoOfOneId.parent? := acyclic_of_withoutCircles hlinked (withoutCircles_of_lt (by decide))
  obtain ⟨order, -, -, horder, -, -, htext, hfirst⟩ := descendants_preorder hlinked hacyclic 6
  obtain rfl : [3, 2, 1, 5, 4] = order := by
    rw [← horder]
    decide
  refine ⟨⟨hlinked, hacyclic⟩, horder, ?_, ?_⟩
  · rw [htext]
    decide
  · exact (hfirst "x" 2).2 ⟨[3], [1, 5, 4], rfl, by decide +kernel, by decide +kernel⟩

end LiveMarkup.Tree
