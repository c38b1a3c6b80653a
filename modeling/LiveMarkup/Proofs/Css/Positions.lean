/-
What the structural pseudo-classes mean.

A position among siblings is a place in a list: that of the element children of the parent, of those that a selector
list selects, or of those of the element's type, counted from one and from either end (`position`). The pseudo-classes
walk from the element along the links between siblings and count what they pass; what they count is what stands between
the element and the end of that list (`length_siblings`).
-/
import LiveMarkup.Proofs.Css.Chains

set_option autoImplicit false

namespace LiveMarkup

namespace Tree

variable {t : Tree} {p n : Nat}

/-- The walk to the siblings after a child lists those that stand after it, the nearest first. -/
theorem follow_next (h : t.Linked) {before after : List Nat} (hchildren : t.children p = before ++ n :: after)
    (k : Nat) : follow t.next? k (t.next? n) = after.take k := by
  induction after generalizing n before k with
  | nil =>
    have hlast : t.next? n = none := (Prod.mk.inj (h.inOrder p before n [] hchildren)).2
    simp [hlast]
  | cons m after ih =>
    have hnext : t.next? n = some m := (Prod.mk.inj (h.inOrder p before n _ hchildren)).2
    have hrest : t.children p = (before ++ [n]) ++ m :: after := by rw [hchildren, List.append_assoc]; rfl
    cases k with
    | zero => simp [follow]
    | succ k => rw [hnext, follow, ih hrest k, List.take_succ_cons]

/-- **The siblings after a child are those that stand after it in the list of its parent.** -/
theorem followingSiblings_eq (h : t.Linked) {before after : List Nat}
    (hchildren : t.children p = before ++ n :: after) : t.followingSiblings n = after := by
  have hlength : after.length ≤ t.size := by
    have hsub : after.Sublist (t.children p) := by
      rw [hchildren]
      exact (List.sublist_cons_self n after).trans (List.sublist_append_right before _)
    refine length_le_of_nodup ((h.nodup p).sublist hsub) fun i hi => ?_
    exact lt_size_of_parent ((h.parent_iff p i).2 (hsub.subset hi))
  rw [followingSiblings, follow_next h hchildren, List.take_of_length_le hlength]

end Tree

namespace Css

open Tree

variable {t : Tree} {p n : Nat} {e : Element} {q : Nat → Bool}

/-! ## Positions -/

/-- The position of a node in a list, counted from one: from the start, or from the end. -/
def position (fromEnd : Bool) (ids : List NodeId) (n : NodeId) : Nat :=
  (if fromEnd then ids.reverse else ids).idxOf n + 1

theorem idxOf_filter {before : List Nat} (hn : n ∉ before) (hq : q n = true) (after : List Nat) :
    ((before ++ n :: after).filter q).idxOf n = (before.filter q).length := by
  have hnot : n ∉ before.filter q := fun hmem => hn (List.mem_filter.1 hmem).1
  rw [List.filter_append, List.filter_cons_of_pos hq, List.idxOf_append_of_notMem hnot, List.idxOf_cons_self,
    Nat.add_zero]

/-- A node stands one further than there are such nodes between it and the end from which it is counted. -/
theorem position_filter {before after : List Nat} (hnodup : (before ++ n :: after).Nodup) (hq : q n = true)
    (fromEnd : Bool) :
    position fromEnd ((before ++ n :: after).filter q) n =
      ((if fromEnd then after else before.reverse).filter q).length + 1 := by
  obtain ⟨-, hafter, hbefore⟩ := List.nodup_append.1 hnodup
  have hn : n ∉ before := fun hmem => hbefore n hmem n List.mem_cons_self rfl
  have hn' : n ∉ after.reverse := fun hmem => (List.nodup_cons.1 hafter).1 (List.mem_reverse.1 hmem)
  cases fromEnd with
  | false =>
    rw [position, if_neg Bool.false_ne_true, if_neg Bool.false_ne_true, idxOf_filter hn hq, List.filter_reverse,
      List.length_reverse]
  | true =>
    have hreverse : (before ++ n :: after).reverse = after.reverse ++ n :: before.reverse := by simp
    rw [position, if_pos rfl, if_pos rfl, ← List.filter_reverse, hreverse, idxOf_filter hn' hq, List.filter_reverse,
      List.length_reverse]

/-- The element siblings of a child, on either side of it. -/
theorem elementSiblings_of_children (h : t.Linked) {before after : List Nat}
    (hchildren : t.children p = before ++ n :: after) (fromEnd : Bool) :
    elementSiblings t fromEnd n = (if fromEnd then after else before.reverse).filter t.isElement := by
  cases fromEnd with
  | false => exact elementSiblings_eq h hchildren
  | true => rw [elementSiblings, if_pos rfl, if_pos rfl, followingSiblings_eq h hchildren]

/-- **What the walk along the siblings counts is the position in the list of the parent's children.** -/
theorem length_siblings (h : t.Linked) (hn : t.isElement n = true) (hp : t.parent? n = some p) (hq : q n = true)
    (fromEnd : Bool) :
    ((elementSiblings t fromEnd n).filter q).length + 1 = position fromEnd ((t.elementChildren p).filter q) n := by
  obtain ⟨before, after, hchildren⟩ := List.append_of_mem ((h.parent_iff p n).1 hp)
  have hnodup := hchildren ▸ h.nodup p
  rw [elementSiblings_of_children h hchildren, elementChildren, hchildren, List.filter_filter, List.filter_filter,
    position_filter hnodup (by rw [hn, hq]; rfl)]

/-! ## The first and the last -/

/-- No such sibling stands before a node when its position is one. -/
theorem isEmpty_eq_covers (ids : List Nat) : ids.isEmpty = Nth.covers ⟨0, 1⟩ (ids.length + 1) := by
  rw [Bool.eq_iff_iff, Nth.covers_iff, List.isEmpty_iff, ← List.length_eq_zero_iff]
  simp only [Int.zero_mul, exists_const]
  omega

/-! ## The pseudo-classes -/

/-- **Structural pseudo-classes are positions in the list of siblings.** In a tree with consistent links, let an element
be a child of a node. It satisfies `:nth-child` or `:nth-last-child` when its position among the element children, from
the start or from the end, is `a k + b` for a natural number `k`; with a list, when the list selects it and so is its
position among those that the list selects; `:nth-of-type` and `:nth-last-of-type`, when so is its position among those
of its language and, up to the case of ASCII letters, its name. The first, the last and the only ones are those at
position one, from the start, from the end, or from both. -/
theorem holds_iff_position (h : t.Linked) (he : t.element? n = some e) (hp : t.parent? n = some p) :
    let siblings := t.elementChildren p
    let ofType := siblings.filter fun m =>
      (t.element? m).any fun other => other.space == e.space && other.name.toLower == e.name.toLower
    (∀ (fromEnd : Bool) (nth : Nth), (Simple.nthChild fromEnd nth).holds t n e = true ↔
      ∃ k : Nat, nth.a * k + nth.b = position fromEnd siblings n) ∧
    (∀ (fromEnd : Bool) (nth : Nth) (list : SelectorList), (Simple.nthChildOf fromEnd nth list).holds t n e = true ↔
      selectsAny t list n = true ∧
        ∃ k : Nat, nth.a * k + nth.b = position fromEnd (siblings.filter (selectsAny t list)) n) ∧
    (∀ (fromEnd : Bool) (nth : Nth), (Simple.nthOfType fromEnd nth).holds t n e = true ↔
      ∃ k : Nat, nth.a * k + nth.b = position fromEnd ofType n) ∧
    (let first : Simple := .nthChild false ⟨0, 1⟩
     let last : Simple := .nthChild true ⟨0, 1⟩
     (Simple.pseudo .firstChild).holds t n e = first.holds t n e ∧
     (Simple.pseudo .lastChild).holds t n e = last.holds t n e ∧
     (Simple.pseudo .onlyChild).holds t n e = (first.holds t n e && last.holds t n e)) ∧
    (let first : Simple := .nthOfType false ⟨0, 1⟩
     let last : Simple := .nthOfType true ⟨0, 1⟩
     (Simple.pseudo .firstOfType).holds t n e = first.holds t n e ∧
     (Simple.pseudo .lastOfType).holds t n e = last.holds t n e ∧
     (Simple.pseudo .onlyOfType).holds t n e = (first.holds t n e && last.holds t n e)) := by
  intro siblings ofType
  have hn : t.isElement n = true := by rw [isElement, he]; rfl
  have hchild (fromEnd : Bool) : (elementSiblings t fromEnd n).length + 1 = position fromEnd siblings n := by
    have hall := length_siblings (q := fun _ => true) h hn hp rfl fromEnd
    rwa [List.filter_true, List.filter_true] at hall
  have hsame : isOfType t e n = true := by
    rw [isOfType, he, Option.any_some, Text.eqIgnoreCase, beq_self_eq_true, beq_self_eq_true]
    rfl
  have htype (fromEnd : Bool) : (typeSiblings t e fromEnd n).length + 1 = position fromEnd ofType n :=
    length_siblings h hn hp hsame fromEnd
  refine ⟨fun fromEnd nth => ?_, fun fromEnd nth list => ?_, fun fromEnd nth => ?_, ?_, ?_⟩
  · rw [Simple.holds, Nth.covers_iff, hchild]
  · rw [Simple.holds, Bool.and_eq_true]
    refine and_congr_right fun hlist => ?_
    rw [Nth.covers_iff, length_siblings h hn hp hlist]
  · rw [Simple.holds, Nth.covers_iff, htype]
  · simp only [Simple.holds, PseudoClass.holds, isEmpty_eq_covers, and_self]
  · simp only [Simple.holds, PseudoClass.holds, isEmpty_eq_covers, and_self]

/-- A list with a text, a comment and four elements, of which one belongs to another language and one is written in
capitals. -/
def mixedList : Tree :=
  Tree.empty.after [.create (.element (.ofName "ul")), .create (.text "a"), .create (.element (.ofName "li")),
    .create (.element (.ofName "p")), .create (.comment "b"), .create (.element { Element.ofName "li" with space := .svg }),
    .create (.element (.ofName "LI")), .append 1 2, .append 1 3, .append 1 4, .append 1 5, .append 1 6, .append 1 7]

/-- The last element of the list is the fourth child, which `-n+4` covers for `n = 0`, the second of its type and the
first of that type from the end. -/
theorem holds_of_mixedList :
    mixedList.elementChildren 1 = [3, 4, 6, 7] ∧
      (Simple.nthChild false ⟨-1, 4⟩).holds mixedList 7 (.ofName "LI") = true ∧
      (Simple.nthOfType false ⟨2, 0⟩).holds mixedList 7 (.ofName "LI") = true ∧
      (Simple.pseudo .lastOfType).holds mixedList 7 (.ofName "LI") = true := by
  have hchildren : mixedList.elementChildren 1 = [3, 4, 6, 7] := by decide
  obtain ⟨hchild, -, htype, -, -, hlast, -⟩ :=
    holds_iff_position (t := mixedList) (n := 7) (p := 1) (e := .ofName "LI") (linked_run _) (by decide) (by decide)
  have htypes : (mixedList.elementChildren 1).filter (fun m => (mixedList.element? m).any fun other =>
      other.space == (Element.ofName "LI").space && other.name.toLower == (Element.ofName "LI").name.toLower) =
      [3, 7] := by
    decide +kernel
  rw [hchildren] at hchild
  rw [htypes] at htype
  refine ⟨hchildren, (hchild false ⟨-1, 4⟩).2 ⟨0, by decide⟩, (htype false ⟨2, 0⟩).2 ⟨1, by decide⟩, ?_⟩
  rw [hlast, htype]
  exact ⟨0, by decide⟩

end Css

end LiveMarkup
