/-
What a tree says about its nodes.

Reading a tree from the top down needs the kind of a node, its parent and its children, and nothing of
the links between siblings. This file reads those three together, as the core of a node, and says what
each change of a tree does to the cores. Main fact: `core_appendChild` (a new node becomes the last
child of its parent and no other node changes).
-/
import LiveMarkup.Dom.Tree

set_option autoImplicit false

namespace LiveMarkup

/-- What a node says apart from the links to its siblings. -/
structure Core where
  /-- What the node is. -/
  kind : Kind
  /-- The node whose child it is. -/
  parent : Option Nat
  /-- Its children, in order. -/
  children : List Nat
deriving DecidableEq, Repr

/-- The core of a node. -/
def Node.core (n : Node) : Core := ⟨n.kind, n.parent, n.children⟩

namespace Tree

/-- The core of the node at a place. -/
def core? (t : Tree) (id : Nat) : Option Core := (t.get? id).map Node.core

/-! ## Reading through the core -/

theorem children_of_core {t : Tree} {id : Nat} {c : Core} (h : t.core? id = some c) :
    t.children id = c.children := by
  obtain ⟨n, hn, rfl⟩ := Option.map_eq_some_iff.1 h
  rw [children, hn]
  rfl

theorem parent?_of_core {t : Tree} {id : Nat} {c : Core} (h : t.core? id = some c) :
    t.parent? id = c.parent := by
  obtain ⟨n, hn, rfl⟩ := Option.map_eq_some_iff.1 h
  rw [parent?, hn]
  rfl

theorem element?_eq (t : Tree) (id : Nat) :
    t.element? id = match (t.core? id).map (·.kind) with | some (.element e) => some e | _ => none := by
  unfold element? core?
  cases h : t.get? id with
  | none => rfl
  | some n =>
    obtain ⟨kind, _, _, _, _⟩ := n
    cases kind <;> rfl

theorem text?_eq (t : Tree) (id : Nat) :
    t.text? id = match (t.core? id).map (·.kind) with | some (.text s) => some s | _ => none := by
  unfold text? core?
  cases h : t.get? id with
  | none => rfl
  | some n =>
    obtain ⟨kind, _, _, _, _⟩ := n
    cases kind <;> rfl

/-- A node that has a core has a place below the size. -/
theorem lt_size_of_core {t : Tree} {id : Nat} {c : Core} (h : t.core? id = some c) : id < t.size := by
  obtain ⟨n, hn, -⟩ := Option.map_eq_some_iff.1 h
  exact (Array.getElem?_eq_some_iff.1 hn).1

/-! ## Changing one node -/

theorem core?_modify (t : Tree) (id i : Nat) (f : Node → Node) :
    (t.modify id f).core? i = if id = i then (t.get? i).map fun n => (f n).core else t.core? i := by
  unfold core? get? modify
  rw [Array.getElem?_modify]
  split
  · rw [Option.map_map]
    rfl
  · rfl

@[simp] theorem size_modify (t : Tree) (id : Nat) (f : Node → Node) : (t.modify id f).size = t.size :=
  Array.size_modify

@[simp] theorem size_modifyElement (t : Tree) (id : Nat) (f : Element → Element) :
    (t.modifyElement id f).size = t.size := size_modify t id _

@[simp] theorem size_modifyText (t : Tree) (id : Nat) (f : String → String) :
    (t.modifyText id f).size = t.size := size_modify t id _

theorem core?_modifyElement_ne {t : Tree} {id i : Nat} (f : Element → Element) (h : i ≠ id) :
    (t.modifyElement id f).core? i = t.core? i := by
  rw [modifyElement, core?_modify, if_neg (Ne.symm h)]

theorem core?_modifyElement_self {t : Tree} {id : Nat} {f : Element → Element} {e : Element}
    {p : Option Nat} {cs : List Nat} (h : t.core? id = some ⟨.element e, p, cs⟩) :
    (t.modifyElement id f).core? id = some ⟨.element (f e), p, cs⟩ := by
  obtain ⟨n, hn, hc⟩ := Option.map_eq_some_iff.1 h
  obtain ⟨kind, parent, children, _, _⟩ := n
  obtain ⟨rfl, rfl, rfl⟩ := Core.mk.inj hc
  rw [modifyElement, core?_modify, if_pos rfl, hn]
  rfl

theorem core?_modifyText_ne {t : Tree} {id i : Nat} (f : String → String) (h : i ≠ id) :
    (t.modifyText id f).core? i = t.core? i := by
  rw [modifyText, core?_modify, if_neg (Ne.symm h)]

theorem core?_modifyText_self {t : Tree} {id : Nat} {f : String → String} {s : String}
    {p : Option Nat} {cs : List Nat} (h : t.core? id = some ⟨.text s, p, cs⟩) :
    (t.modifyText id f).core? id = some ⟨.text (f s), p, cs⟩ := by
  obtain ⟨n, hn, hc⟩ := Option.map_eq_some_iff.1 h
  obtain ⟨kind, parent, children, _, _⟩ := n
  obtain ⟨rfl, rfl, rfl⟩ := Core.mk.inj hc
  rw [modifyText, core?_modify, if_pos rfl, hn]
  rfl

/-! ## New nodes -/

@[simp] theorem size_alloc (t : Tree) (kind : Kind) : (t.alloc kind).1.size = t.size + 1 :=
  Array.size_push _

theorem core?_alloc_self (t : Tree) (kind : Kind) :
    (t.alloc kind).1.core? t.size = some ⟨kind, none, []⟩ := by
  unfold core? get? alloc size
  rw [Array.getElem?_push_size]
  rfl

theorem core?_alloc_ne {t : Tree} {i : Nat} (kind : Kind) (h : i ≠ t.size) :
    (t.alloc kind).1.core? i = t.core? i := by
  unfold core? get? alloc
  rw [Array.getElem?_push, if_neg (show ¬ i = t.nodes.size from h)]

/-! ## New children -/

@[simp] theorem size_linkSiblings (t : Tree) (before : Option Nat) (ids : List Nat) :
    (t.linkSiblings before ids).size = t.size := by
  induction ids generalizing t before with
  | nil => rfl
  | cons id rest ih => rw [linkSiblings, ih, size_modify]

theorem core?_linkSiblings (t : Tree) (before : Option Nat) (ids : List Nat) (i : Nat) :
    (t.linkSiblings before ids).core? i = t.core? i := by
  induction ids generalizing t before with
  | nil => rfl
  | cons id rest ih =>
    rw [linkSiblings, ih, core?_modify]
    split
    · rfl
    · rfl

theorem insertInto_none (id : Nat) (ids : List Nat) : insertInto id none ids = ids ++ [id] := by
  induction ids with
  | nil => rfl
  | cons c rest ih => rw [insertInto, if_neg nofun, ih, List.cons_append]

/-- **A node without a parent becomes the last child.** Its parent gets one more child, it gets a
parent, and no other node changes. -/
theorem core?_appendChild {t : Tree} {parent child : Nat} {c d : Core}
    (hp : t.core? parent = some c) (hc : t.core? child = some d) (hd : d.parent = none)
    (hne : parent ≠ child) (i : Nat) :
    (t.appendChild parent child).core? i =
      if i = parent then some { c with children := c.children ++ [child] }
      else if i = child then some { d with parent := some parent }
      else t.core? i := by
  have hpsize := lt_size_of_core hp
  have hcsize := lt_size_of_core hc
  obtain ⟨n, hn, rfl⟩ := Option.map_eq_some_iff.1 hp
  obtain ⟨m, hm, rfl⟩ := Option.map_eq_some_iff.1 hc
  have hdetach : t.detach child = t := by
    rw [detach, parent?_of_core hc, hd]
  have hguard : ¬ (t.size ≤ child ∨ t.size ≤ parent ∨ parent = child) := by
    rintro (h | h | h)
    · exact absurd hcsize (Nat.not_lt.2 h)
    · exact absurd hpsize (Nat.not_lt.2 h)
    · exact hne h
  -- two nodes change: the child gets a parent, and the parent a child
  rw [appendChild, insertBefore, if_neg hguard, hdetach, relink, core?_linkSiblings, core?_modify]
  by_cases hic : child = i
  · subst hic
    have hget : ∀ f, (t.modify parent f).get? child = t.get? child := by
      intro f
      unfold get? modify
      rw [Array.getElem?_modify, if_neg hne]
    rw [if_pos rfl, if_neg (Ne.symm hne), if_pos rfl, hget, hm]
    rfl
  · rw [if_neg hic, core?_modify]
    by_cases hip : parent = i
    · subst hip
      rw [if_pos rfl, if_pos rfl, hn, Option.map_some]
      simp only [insertInto_none, Node.core]
    · rw [if_neg hip, if_neg (Ne.symm hip), if_neg (Ne.symm hic)]

@[simp] theorem size_detach (t : Tree) (id : Nat) : (t.detach id).size = t.size := by
  unfold detach
  split
  · rfl
  · rw [relink, size_linkSiblings, size_modify, size_modify]

@[simp] theorem size_appendChild (t : Tree) (parent child : Nat) :
    (t.appendChild parent child).size = t.size := by
  unfold appendChild insertBefore
  split
  · rfl
  · rw [relink, size_linkSiblings, size_modify, size_modify, size_detach]

end Tree

end LiveMarkup
