/-
What a complex selector means.

A complex selector selects an element when there is a chain of elements that ends with it: one element for each
compound, which satisfies the compound, and each standing to the next as the combinator between them says. Matching
goes from right to left and follows the links of the tree; the meaning of the combinators is said by parents and lists
of children alone. First the walks are read as positions (`precedingSiblings_eq`, `mem_elementAncestors_iff`), then
each combinator reaches exactly the elements that stand so (`selects_joined_iff`), and a chain grows by one element
with each combinator. Every element that a combinator reaches is tried, so a chain is found whenever there is one.
-/
import LiveMarkup.Css.Selector.Select
import LiveMarkup.Proofs.Dom.Operations
import LiveMarkup.Proofs.Dom.Parts

set_option autoImplicit false

namespace LiveMarkup

namespace Tree

variable {t : Tree} {p n a : Nat}

/-! ## Siblings as positions -/

/-- The walk to the siblings before a child lists those that stand before it, the nearest first. -/
theorem follow_previous (h : t.Linked) {before after : List Nat} (hchildren : t.children p = before ++ n :: after)
    (k : Nat) : follow t.previous? k (t.previous? n) = before.reverse.take k := by
  induction before using List.reverseRecOn generalizing n after k with
  | nil =>
    have hfirst : t.previous? n = none := (Prod.mk.inj (h.inOrder p [] n after hchildren)).1
    simp [hfirst]
  | append_singleton before m ih =>
    have hlast : t.previous? n = some m := by
      rw [(Prod.mk.inj (h.inOrder p _ n after hchildren)).1, List.getLast?_concat]
    have hrest : t.children p = before ++ m :: (n :: after) := by rw [hchildren, List.append_assoc]; rfl
    cases k with
    | zero => simp [follow]
    | succ k =>
      rw [hlast, follow, ih hrest k, List.reverse_append, List.reverse_singleton, List.singleton_append,
        List.take_succ_cons]

/-- **The siblings before a child are those that stand before it in the list of its parent.** -/
theorem precedingSiblings_eq (h : t.Linked) {before after : List Nat}
    (hchildren : t.children p = before ++ n :: after) : t.precedingSiblings n = before.reverse := by
  have hlength : before.length ≤ t.size := by
    have hsub : before.Sublist (t.children p) := by
      rw [hchildren]
      exact List.sublist_append_left before _
    refine length_le_of_nodup ((h.nodup p).sublist hsub) fun i hi => ?_
    exact lt_size_of_parent ((h.parent_iff p i).2 (hsub.subset hi))
  rw [precedingSiblings, follow_previous h hchildren, List.take_of_length_le (by rwa [List.length_reverse])]

theorem precedingSiblings_of_none (h : t.Linked) (hnone : t.parent? n = none) : t.precedingSiblings n = [] := by
  have halone : t.previous? n = none := (Prod.mk.inj (h.alone n hnone)).1
  rw [precedingSiblings, halone, follow_none]

/-! ## Ancestors as steps -/

/-- A step up to a parent that is an element. -/
def StepsUp (t : Tree) (n a : Nat) : Prop := t.parent? n = some a ∧ t.isElement a = true

/-- What stands in a walk up before its first node that is no element is reached by steps up to elements. -/
theorem stepsUp_of_mem_takeWhile {k : Nat} (ha : a ∈ (follow t.parent? k (t.parent? n)).takeWhile t.isElement) :
    Relation.TransGen t.StepsUp n a := by
  induction k generalizing n with
  | zero => simp [follow] at ha
  | succ k ih =>
    cases hp : t.parent? n with
    | none => simp [hp] at ha
    | some p =>
      rw [hp, follow, List.takeWhile_cons] at ha
      by_cases helement : t.isElement p = true
      · rw [if_pos helement, List.mem_cons] at ha
        rcases ha with rfl | ha
        · exact .single ⟨hp, helement⟩
        · exact .head ⟨hp, helement⟩ (ih ha)
      · rw [if_neg helement] at ha
        simp at ha

/-- What is reached by steps up to elements stands in a walk up that is long enough. -/
theorem mem_takeWhile_of_stepsUp (h : Relation.TransGen t.StepsUp n a) :
    ∃ m, ∀ k, m ≤ k → a ∈ (follow t.parent? k (t.parent? n)).takeWhile t.isElement := by
  induction h using Relation.TransGen.head_induction_on with
  | single hstep =>
    refine ⟨1, fun k hk => ?_⟩
    obtain ⟨k, rfl⟩ : ∃ k', k = k' + 1 := ⟨k - 1, by omega⟩
    rw [hstep.1, follow, List.takeWhile_cons, if_pos hstep.2]
    exact List.mem_cons_self
  | head hstep _ ih =>
    obtain ⟨m, hm⟩ := ih
    refine ⟨m + 1, fun k hk => ?_⟩
    obtain ⟨k, rfl⟩ : ∃ k', k = k' + 1 := ⟨k - 1, by omega⟩
    rw [hstep.1, follow, List.takeWhile_cons, if_pos hstep.2]
    exact List.mem_cons_of_mem _ (hm k (by omega))

/-- The ancestors of a node are all listed, however long the walk may be. -/
theorem ancestorsUpTo_eq (h : t.Linked) (hacyclic : Acyclic t.parent?) (k : Nat) :
    follow t.parent? (t.size + k) (t.parent? n) = t.ancestors n := by
  have hlength : (follow t.parent? (t.size + k) (t.parent? n)).length ≤ t.size := by
    refine length_le_of_nodup (nodup_follow hacyclic _ _) fun i hi => ?_
    -- a node of the walk is the parent of another
    cases hp : t.parent? n with
    | none => simp [hp] at hi
    | some p =>
      rw [hp] at hi
      rcases Relation.ReflTransGen.cases_tail (leads_of_mem_follow hi) with rfl | ⟨c, -, hc⟩
      · exact lt_size_of_mem ((h.parent_iff _ n).1 hp)
      · exact lt_size_of_mem ((h.parent_iff i c).1 hc)
  rw [ancestors, ancestorsUpTo, ← follow_take t.parent? t.size k, List.take_of_length_le hlength]

end Tree

namespace Css

open Tree

variable {t : Tree} {n a : Nat}

/-- **The element ancestors of a node are those that steps up to elements reach.** -/
theorem mem_elementAncestors_iff (h : t.Linked) (hacyclic : Acyclic t.parent?) :
    a ∈ elementAncestors t n ↔ Relation.TransGen t.StepsUp n a := by
  constructor
  · exact stepsUp_of_mem_takeWhile
  · intro hup
    obtain ⟨m, hm⟩ := mem_takeWhile_of_stepsUp hup
    have hmem := hm (t.size + m) (by omega)
    rwa [ancestorsUpTo_eq h hacyclic] at hmem

/-! ## What combinators mean -/

/-- An element stands in a list of children before another. -/
def StandsBefore (t : Tree) (a n : Nat) (between : List Nat) : Prop :=
  t.isElement a = true ∧ ∃ p before after, t.children p = before ++ a :: (between ++ n :: after)

/-- An element stands to another, on its right in a selector, as the combinator between them says. -/
def Combinator.Relates (t : Tree) : Combinator → Nat → Nat → Prop
  | .descendant, a, n => Relation.TransGen t.StepsUp n a
  | .child, a, n => t.StepsUp n a
  | .nextSibling, a, n => ∃ between, StandsBefore t a n between ∧ ∀ i ∈ between, t.isElement i = false
  | .subsequentSibling, a, n => ∃ between, StandsBefore t a n between

theorem elementSiblings_eq (h : t.Linked) {p : Nat} {before after : List Nat}
    (hchildren : t.children p = before ++ n :: after) :
    elementSiblings t false n = before.reverse.filter t.isElement := by
  rw [elementSiblings, if_neg Bool.false_ne_true, precedingSiblings_eq h hchildren]

/-- A node has element siblings only in the list of its parent. -/
theorem exists_children_of_elementSiblings (h : t.Linked) (hne : elementSiblings t false n ≠ []) :
    ∃ p before after, t.children p = before ++ n :: after := by
  cases hp : t.parent? n with
  | none =>
    rw [elementSiblings, if_neg Bool.false_ne_true, precedingSiblings_of_none h hp] at hne
    simp at hne
  | some p =>
    obtain ⟨before, after, heq⟩ := List.append_of_mem ((h.parent_iff p n).1 hp)
    exact ⟨p, before, after, heq⟩

theorem mem_elementSiblings_iff (h : t.Linked) :
    a ∈ elementSiblings t false n ↔ Combinator.subsequentSibling.Relates t a n := by
  constructor
  · intro ha
    obtain ⟨p, before, after, heq⟩ := exists_children_of_elementSiblings h (List.ne_nil_of_mem ha)
    rw [elementSiblings_eq h heq, List.mem_filter, List.mem_reverse] at ha
    obtain ⟨left, between, rfl⟩ := List.append_of_mem ha.1
    exact ⟨between, ha.2, p, left, after, by rw [heq, List.append_assoc]; rfl⟩
  · rintro ⟨between, helement, p, before, after, heq⟩
    have hchildren : t.children p = (before ++ a :: between) ++ n :: after := by rw [heq, List.append_assoc]; rfl
    rw [elementSiblings_eq h hchildren, List.mem_filter, List.mem_reverse]
    exact ⟨by simp, helement⟩

theorem head?_elementSiblings_iff (h : t.Linked) :
    (elementSiblings t false n).head? = some a ↔ Combinator.nextSibling.Relates t a n := by
  constructor
  · intro ha
    have hne : elementSiblings t false n ≠ [] := by
      intro hnil
      rw [hnil] at ha
      cases ha
    obtain ⟨p, before, after, heq⟩ := exists_children_of_elementSiblings h hne
    rw [elementSiblings_eq h heq, List.head?_filter, List.find?_eq_some_iff_append] at ha
    obtain ⟨helement, left, right, hsplit, hleft⟩ := ha
    have hbefore : before = right.reverse ++ a :: left.reverse := by
      rw [← List.reverse_reverse before, hsplit, List.reverse_append, List.reverse_cons, List.append_assoc,
        List.singleton_append]
    refine ⟨left.reverse, ⟨helement, p, right.reverse, after, ?_⟩, ?_⟩
    · rw [heq, hbefore, List.append_assoc]
      rfl
    · intro i hi
      have hno := hleft i (List.mem_reverse.1 hi)
      simpa using hno
  · rintro ⟨between, ⟨helement, p, before, after, heq⟩, hbetween⟩
    have hchildren : t.children p = (before ++ a :: between) ++ n :: after := by rw [heq, List.append_assoc]; rfl
    rw [elementSiblings_eq h hchildren, List.head?_filter, List.find?_eq_some_iff_append]
    refine ⟨helement, between.reverse, before.reverse, by simp, ?_⟩
    intro i hi
    simp [hbetween i (List.mem_reverse.1 hi)]

/-- A node is an element that satisfies all of the simple selectors of a compound. -/
def Satisfies (t : Tree) (n : Nat) (compound : List Simple) : Prop :=
  ∃ e, t.element? n = some e ∧ ∀ s ∈ compound, s.holds t n e = true

theorem holdAll_iff (e : Element) (compound : List Simple) :
    holdAll t n e compound = true ↔ ∀ s ∈ compound, s.holds t n e = true := by
  induction compound with
  | nil => simp [holdAll]
  | cons s rest ih => simp [holdAll, ih]

theorem satisfies_iff (compound : List Simple) :
    ((t.element? n).any fun e => holdAll t n e compound) = true ↔ Satisfies t n compound := by
  rw [Option.any_eq_true]
  exact exists_congr fun e => and_congr_right fun _ => holdAll_iff e compound

/-- **A combinator reaches the elements that stand as it says.** A joined selector selects what satisfies its subject
and has an element on the left that the rest selects. -/
theorem selects_joined_iff (h : t.Linked) (hacyclic : Acyclic t.parent?) (left : Complex) (combinator : Combinator)
    (subject : List Simple) : (Complex.joined left combinator subject).selects t n = true ↔
      Satisfies t n subject ∧ ∃ a, combinator.Relates t a n ∧ left.selects t a = true := by
  have hsubject := satisfies_iff (t := t) (n := n) subject
  cases combinator with
  | descendant =>
    rw [Complex.selects, Bool.and_eq_true, hsubject, List.any_eq_true]
    exact and_congr_right fun _ => exists_congr fun a => and_congr_left fun _ => mem_elementAncestors_iff h hacyclic
  | child =>
    rw [Complex.selects, Bool.and_eq_true, hsubject, Option.any_eq_true]
    simp only [Bool.and_eq_true]
    exact and_congr_right fun _ => exists_congr fun a => and_assoc.symm
  | nextSibling =>
    rw [Complex.selects, Bool.and_eq_true, hsubject, Option.any_eq_true]
    exact and_congr_right fun _ => exists_congr fun a => and_congr_left fun _ => head?_elementSiblings_iff h
  | subsequentSibling =>
    rw [Complex.selects, Bool.and_eq_true, hsubject, List.any_eq_true]
    exact and_congr_right fun _ => exists_congr fun a => and_congr_left fun _ => mem_elementSiblings_iff h

/-! ## Chains -/

/-- Elements, one for each compound of a selector from left to right, which satisfy the compounds and stand to one
another as the combinators say. -/
structure Complex.Chain (t : Tree) (c : Complex) (es : List Nat) : Prop where
  length : es.length = c.compounds.length
  satisfies : ∀ (i n : Nat) (compound : List Simple), es[i]? = some n → c.compounds[i]? = some compound →
    Satisfies t n compound
  related : ∀ (i a n : Nat) (combinator : Combinator), es[i]? = some a → es[i + 1]? = some n →
    c.combinators[i]? = some combinator → combinator.Relates t a n

theorem chain_compound_iff (subject : List Simple) (es : List Nat) :
    (Complex.compound subject).Chain t es ↔ ∃ n, es = [n] ∧ Satisfies t n subject := by
  constructor
  · intro h
    obtain ⟨n, rfl⟩ := List.length_eq_one_iff.1 h.length
    exact ⟨n, rfl, h.satisfies 0 n subject rfl rfl⟩
  · rintro ⟨n, rfl, hn⟩
    refine ⟨rfl, ?_, ?_⟩
    · intro i m compound hm hcompound
      obtain rfl : i = 0 := by
        have hlt := (List.getElem?_eq_some_iff.1 hm).1
        simpa using hlt
      simp_all [Complex.compounds]
    · intro i a m combinator _ _ hcombinator
      simp [Complex.combinators] at hcombinator

/-- A chain of a joined selector is one of the selector on its left with one element more. -/
theorem chain_joined_iff (left : Complex) (combinator : Combinator) (subject : List Simple) (es : List Nat) :
    (Complex.joined left combinator subject).Chain t es ↔ ∃ es' a n, es = es' ++ [a, n] ∧
      left.Chain t (es' ++ [a]) ∧ combinator.Relates t a n ∧ Satisfies t n subject := by
  have hcount := left.length_compounds
  constructor
  · intro h
    have hlength : es.length = left.combinators.length + 2 := by
      rw [h.length, Complex.compounds, List.length_append, hcount]
      rfl
    obtain ⟨front, n, rfl⟩ : ∃ front n, es = front ++ [n] :=
      ⟨es.dropLast, es.getLast (by rintro rfl; simp at hlength), (List.dropLast_append_getLast _).symm⟩
    rw [List.length_append, List.length_singleton] at hlength
    obtain ⟨es', a, rfl⟩ : ∃ es' a, front = es' ++ [a] :=
      ⟨front.dropLast, front.getLast (by rintro rfl; simp at hlength), (List.dropLast_append_getLast _).symm⟩
    rw [List.length_append, List.length_singleton] at hlength
    refine ⟨es', a, n, by simp, ⟨?_, ?_, ?_⟩, ?_, ?_⟩
    · rw [List.length_append, List.length_singleton]
      omega
    · intro i m compound hm hcompound
      refine h.satisfies i m compound ?_ ?_
      · rw [List.getElem?_append_left (List.getElem?_eq_some_iff.1 hm).1, hm]
      · rw [Complex.compounds, List.getElem?_append_left (List.getElem?_eq_some_iff.1 hcompound).1, hcompound]
    · intro i b m comb hb hm hcomb
      refine h.related i b m comb ?_ ?_ ?_
      · rw [List.getElem?_append_left (List.getElem?_eq_some_iff.1 hb).1, hb]
      · rw [List.getElem?_append_left (List.getElem?_eq_some_iff.1 hm).1, hm]
      · rw [Complex.combinators, List.getElem?_append_left (List.getElem?_eq_some_iff.1 hcomb).1, hcomb]
    · -- the last two elements stand as the last combinator says
      refine h.related es'.length a n combinator ?_ ?_ ?_
      · simp
      · simp
      · rw [Complex.combinators, List.getElem?_append_right (by omega)]
        simp [show es'.length - left.combinators.length = 0 by omega]
    · refine h.satisfies (es'.length + 1) n subject ?_ ?_
      · simp
      · rw [Complex.compounds, List.getElem?_append_right (by omega)]
        simp [show es'.length + 1 - left.compounds.length = 0 by omega]
  · rintro ⟨es', a, n, rfl, h, hrelates, hsubject⟩
    have hlength := h.length
    rw [List.length_append, List.length_singleton] at hlength
    have hfront (i m : Nat) (hm : (es' ++ [a, n])[i]? = some m) (hlt : i < es'.length + 1) :
        (es' ++ [a])[i]? = some m := by
      rw [List.append_cons, List.getElem?_append_left (by simpa using hlt)] at hm
      exact hm
    refine ⟨?_, ?_, ?_⟩
    · simp [Complex.compounds, ← hlength]
    · intro i m compound hm hcompound
      by_cases hlt : i < es'.length + 1
      · rw [Complex.compounds, List.getElem?_append_left (by omega)] at hcompound
        exact h.satisfies i m compound (hfront i m hm hlt) hcompound
      · have hbound := (List.getElem?_eq_some_iff.1 hm).1
        obtain rfl : i = es'.length + 1 := by
          simp at hbound
          omega
        rw [Complex.compounds, List.getElem?_append_right (by omega)] at hcompound
        simp_all
    · intro i b m comb hb hm hcomb
      by_cases hlt : i < es'.length
      · rw [Complex.combinators, List.getElem?_append_left (by omega)] at hcomb
        exact h.related i b m comb (hfront i b hb (by omega)) (hfront (i + 1) m hm (by omega)) hcomb
      · have hbound := (List.getElem?_eq_some_iff.1 hm).1
        obtain rfl : i = es'.length := by
          simp at hbound
          omega
        rw [Complex.combinators, List.getElem?_append_right (by omega)] at hcomb
        simp_all

/-- **A complex selector selects the last elements of its chains.** -/
theorem selects_iff_chain (h : t.Linked) (hacyclic : Acyclic t.parent?) (c : Complex) (n : Nat) :
    c.selects t n = true ↔ ∃ es, c.Chain t es ∧ es.getLast? = some n := by
  induction c using Complex.rec (motive_1 := fun _ => True) (motive_3 := fun _ => True) (motive_4 := fun _ => True)
    generalizing n with
  | compound subject _ =>
    rw [Complex.selects, satisfies_iff]
    simp only [chain_compound_iff]
    constructor
    · exact fun hn => ⟨[n], ⟨n, rfl, hn⟩, rfl⟩
    · rintro ⟨_, ⟨m, rfl, hm⟩, hlast⟩
      obtain rfl : m = n := by simpa using hlast
      exact hm
  | joined left combinator subject ihleft _ =>
    rw [selects_joined_iff h hacyclic]
    simp only [chain_joined_iff]
    constructor
    · rintro ⟨hsubject, a, hrelates, ha⟩
      obtain ⟨es, hchain, hlast⟩ := (ihleft a).1 ha
      obtain ⟨es', rfl⟩ : ∃ es', es = es' ++ [a] := List.getLast?_eq_some_iff.1 hlast
      exact ⟨_, ⟨es', a, n, rfl, hchain, hrelates, hsubject⟩, by simp⟩
    · rintro ⟨_, ⟨es', a, m, rfl, hchain, hrelates, hsubject⟩, hlast⟩
      obtain rfl : m = n := by simpa using hlast
      exact ⟨hsubject, a, hrelates, (ihleft a).2 ⟨_, hchain, List.getLast?_concat⟩⟩
  | _ => trivial

/-- **A selector list selects what a chain of one of its selectors ends with.** In a tree with consistent links and
without circles, a list selects a node exactly when for one of its complex selectors there are elements, one for each
compound, the last of which is the node; each satisfies its compound, and each stands to the next as the combinator
says: as an ancestor reached through element parents only, as its parent, as the nearest element before it among the
children of its parent, or as any element before it there. -/
theorem selectsAny_iff_chain (h : t.Linked) (hacyclic : Acyclic t.parent?) (list : SelectorList) (n : Nat) :
    selectsAny t list n = true ↔ ∃ c ∈ list, ∃ es, c.Chain t es ∧ es.getLast? = some n := by
  induction list with
  | nil => simp [selectsAny]
  | cons c rest ih =>
    rw [selectsAny, Bool.or_eq_true, selects_iff_chain h hacyclic, ih, List.exists_mem_cons_iff]

/-- An element in two nested elements of the same name, of which only the outer one is a child of an `a`. -/
def nestedTwice : Tree :=
  Tree.empty.after [.create (.element (.ofName "i")), .create (.element (.ofName "b")),
    .create (.element (.ofName "b")), .create (.element (.ofName "a")), .append 2 1, .append 3 2, .append 4 3]

/-- The selector `a > b i`. -/
def childThenDescendant : Complex :=
  .joined (.joined (.compound [.type "a"]) .child [.type "b"]) .descendant [.type "i"]

/-- The nearest `b` has no `a` as its parent; the chain goes through the one above it. -/
theorem selectsAny_of_nestedTwice :
    (nestedTwice.Linked ∧ Acyclic nestedTwice.parent?) ∧ childThenDescendant.Chain nestedTwice [4, 3, 1] ∧
      selectsAny nestedTwice [childThenDescendant] 1 = true := by
  have hlinked : nestedTwice.Linked := linked_run _
  have hacyclic : Acyclic nestedTwice.parent? :=
    acyclic_of_withoutCircles hlinked (withoutCircles_of_lt (by decide))
  have hchain : childThenDescendant.Chain nestedTwice [4, 3, 1] := by
    have hparents : nestedTwice.parent? 1 = some 2 ∧ nestedTwice.parent? 2 = some 3 ∧
        nestedTwice.parent? 3 = some 4 := by
      decide
    have helements : nestedTwice.isElement 2 = true ∧ nestedTwice.isElement 3 = true ∧
        nestedTwice.isElement 4 = true := by
      decide
    refine (chain_joined_iff _ _ _ _).2 ⟨[4], 3, 1, rfl,
      (chain_joined_iff _ _ _ _).2 ⟨[], 4, 3, rfl, ?_, ?_, ?_⟩, ?_, ?_⟩
    · exact (chain_compound_iff _ _).2 ⟨4, rfl, .ofName "a", by decide,
        by simp [Simple.holds, Element.ofName, Text.eqIgnoreCase]⟩
    · exact ⟨hparents.2.2, helements.2.2⟩
    · exact ⟨.ofName "b", by decide, by simp [Simple.holds, Element.ofName, Text.eqIgnoreCase]⟩
    · exact .head ⟨hparents.1, helements.1⟩ (.single ⟨hparents.2.1, helements.2.1⟩)
    · exact ⟨.ofName "i", by decide, by simp [Simple.holds, Element.ofName, Text.eqIgnoreCase]⟩
  exact ⟨⟨hlinked, hacyclic⟩, hchain,
    (selectsAny_iff_chain hlinked hacyclic _ 1).2 ⟨_, List.mem_singleton_self _, _, hchain, rfl⟩⟩

end Css

end LiveMarkup
