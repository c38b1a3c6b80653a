/-
Trees that are made by operations.

A tree starts with its document and changes by operations with any places. One operation keeps the links consistent, so
a run of them does. Main result: `links_consistent`, with the exact lists of children after an insertion.
-/
import LiveMarkup.Proofs.Dom.Links

set_option autoImplicit false

namespace LiveMarkup

/-- A property of runs that the empty run has: it holds all along a run exactly when no step of it breaks it. -/
theorem forall_prefix_iff {α : Type} {P : List α → Prop} {Keeps : List α → α → Prop} (hnil : P [])
    (hstep : ∀ done x, P done → (P (done ++ [x]) ↔ Keeps done x)) (run : List α) :
    (∀ done, done <+: run → P done) ↔ ∀ done x, done ++ [x] <+: run → Keeps done x := by
  constructor
  · intro h done x hbegins
    rw [← hstep done x (h done ((List.prefix_append done [x]).trans hbegins))]
    exact h _ hbegins
  · intro h done hbegins
    induction done using List.reverseRecOn with
    | nil => exact hnil
    | append_singleton done x ih =>
      rw [hstep done x (ih ((List.prefix_append done [x]).trans hbegins))]
      exact h done x hbegins

namespace Tree

variable {t : Tree}

/-! ## Operations -/

/-- What can be done to a tree. -/
inductive Operation where
  /-- Adds a node of a kind. -/
  | create (kind : Kind)
  | append (parent child : Nat)
  | insert (parent child : Nat) (reference : Option Nat)
  | remove (parent child : Nat)
  | detach (id : Nat)
  | clear (parent : Nat)
  | attachShadow (host : Nat)
  /-- Copies what is under a node of another tree. -/
  | importFrom (source : Tree) (id : Nat)

/-- A tree after an operation. -/
def apply (t : Tree) : Operation → Tree
  | .create kind => (t.alloc kind).1
  | .append parent child => t.appendChild parent child
  | .insert parent child reference => t.insertBefore parent child reference
  | .remove parent child => t.removeChild parent child
  | .detach id => t.detach id
  | .clear parent => t.clearChildren parent
  | .attachShadow host => (t.attachShadow host).1
  | .importFrom source id => (t.importSubtree source id).1

/-- A tree after operations. -/
def after (t : Tree) (ops : List Operation) : Tree := ops.foldl apply t

theorem after_append (t : Tree) (ops : List Operation) (op : Operation) :
    t.after (ops ++ [op]) = (t.after ops).apply op :=
  List.foldl_concat ..

theorem linked_empty : Tree.empty.Linked := by
  have hget : ∀ i, Tree.empty.get? i = none ∨ Tree.empty.get? i = some (.detached .document) := by
    intro i
    cases i with
    | zero => exact .inr rfl
    | succ i => exact .inl rfl
  refine ⟨?_, ?_, ?_, ?_⟩
  · intro p c
    rw [parent?, children]
    rcases hget c with hc | hc <;> rcases hget p with hp | hp <;> simp [hc, hp, Node.detached]
  · intro p
    rw [children]
    rcases hget p with hp | hp <;> simp [hp, Node.detached]
  · intro p before c after heq
    rw [children] at heq
    rcases hget p with hp | hp <;> simp [hp, Node.detached] at heq
  · intro c _
    rw [siblings, previous?, next?]
    rcases hget c with hc | hc <;> simp [hc, Node.detached]

/-- **Every operation keeps the links.** -/
theorem linked_apply (h : t.Linked) (op : Operation) : (t.apply op).Linked := by
  cases op with
  | create kind => exact linked_alloc h kind
  | append parent child => exact linked_insertBefore h parent child none
  | insert parent child reference => exact linked_insertBefore h parent child reference
  | remove parent child =>
    rw [apply, removeChild]
    split
    · exact linked_detach h child
    · exact h
  | detach id => exact linked_detach h id
  | clear parent => exact linked_clearChildren h parent
  | attachShadow host => exact linked_attachShadow h host
  | importFrom source id => exact linked_importTo source _ t id h

theorem linked_run (ops : List Operation) : (Tree.empty.after ops).Linked := by
  induction ops using List.reverseRecOn with
  | nil => exact linked_empty
  | append_singleton ops op ih =>
    rw [after_append]
    exact linked_apply ih op

/-- **The links of a tree are always consistent.** After any operations with any places, a node has a parent exactly
when it is one of its children, no node occurs twice in the lists of children, the siblings of a child are its
neighbours in the list of its parent, and a node without a parent has none. A node that is put somewhere is taken out of
the list that it was in and stands before the reference, or last when the reference is not in the list; no other list
changes. -/
theorem links_consistent (ops : List Operation) :
    let t := Tree.empty.after ops
    (∀ p c, t.parent? c = some p ↔ c ∈ t.children p) ∧
      ((List.range t.size).flatMap t.children).Nodup ∧
      (∀ p before c after, t.children p = before ++ c :: after →
        t.previous? c = before.getLast? ∧ t.next? c = after.head?) ∧
      (∀ c, t.parent? c = none → t.previous? c = none ∧ t.next? c = none) ∧
      ∀ p c reference, p < t.size → c < t.size → p ≠ c →
        (∃ before after, (t.children p).filter (· != c) = before ++ after ∧
          (t.insertBefore p c reference).children p = before ++ c :: after ∧
          after.head? = reference.filter (· ∈ (t.children p).filter (· != c))) ∧
        ∀ q, q ≠ p → (t.insertBefore p c reference).children q = (t.children q).filter (· != c) := by
  intro t
  have h : t.Linked := linked_run ops
  refine ⟨h.parent_iff, h.nodup_children, ?_, ?_, ?_⟩
  · intro p before c after heq
    exact Prod.mk.inj (h.inOrder p before c after heq)
  · intro c hc
    exact Prod.mk.inj (h.alone c hc)
  · intro p c reference hp hc hne
    have hchildren := children_insertBefore h hp hc hne reference
    refine ⟨?_, fun q hq => by rw [hchildren, if_neg hq]⟩
    rw [hchildren, if_pos rfl]
    exact insertInto_spec c reference _

/-- A document with two texts. -/
def twoTexts : List Operation := [.create (.text "a"), .create (.text "b"), .append 0 1, .append 0 2]

/-- The second of two texts is put before the first. -/
theorem links_consistent_of_swap :
    (Tree.empty.after twoTexts).children 0 = [1, 2] ∧
      (0 < (Tree.empty.after twoTexts).size ∧ 2 < (Tree.empty.after twoTexts).size ∧ 0 ≠ 2) ∧
      ∃ before after, [1] = before ++ after ∧
        ((Tree.empty.after twoTexts).insertBefore 0 2 (some 1)).children 0 = before ++ 2 :: after ∧
        after.head? = some 1 := by
  have hsize : (Tree.empty.after twoTexts).size = 3 := by decide
  have hvalid : 0 < (Tree.empty.after twoTexts).size ∧ 2 < (Tree.empty.after twoTexts).size ∧ 0 ≠ 2 := by omega
  obtain ⟨-, -, -, -, hinsert⟩ := links_consistent twoTexts
  exact ⟨by decide, hvalid, (hinsert 0 2 (some 1) hvalid.1 hvalid.2.1 hvalid.2.2).1⟩

end Tree

end LiveMarkup
