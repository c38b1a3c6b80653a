/-
The links of a tree tell one story.

A node says who its parent is, and the parent lists its children; a child says who stands before and after it, and its
parent lists them in order. `Linked` says that the four agree. Every operation keeps this, whatever places it is given
(`linked_detach`, `linked_insertBefore`, `linked_clearChildren`, `linked_importTo`): a node is first taken out of the
parent that it has, and whoever gets or loses a child links its children anew. The new parents and the new lists of
children are said exactly.
-/
import LiveMarkup.Dom.Import
import LiveMarkup.Proofs.Dom.Core
import Mathlib.Data.List.Nodup
import Mathlib.Data.List.Induction

set_option autoImplicit false

namespace LiveMarkup.Tree

/-! ## Links that agree -/

/-- The siblings before and after a node. -/
def siblings (t : Tree) (id : NodeId) : Option NodeId × Option NodeId := (t.previous? id, t.next? id)

/-- The nodes of a list stand beside one another in its order. -/
def InOrder (t : Tree) (ids : List NodeId) : Prop :=
  ∀ before id after, ids = before ++ id :: after → t.siblings id = (before.getLast?, after.head?)

/-- Parents, children and siblings agree. -/
structure Linked (t : Tree) : Prop where
  parent_iff : ∀ p c, t.parent? c = some p ↔ c ∈ t.children p
  nodup : ∀ p, (t.children p).Nodup
  inOrder : ∀ p, t.InOrder (t.children p)
  alone : ∀ c, t.parent? c = none → t.siblings c = (none, none)

variable {t : Tree} {p c id : Nat}

/-- No node is the child of two. -/
theorem Linked.parent_unique (h : t.Linked) {q : Nat} (hp : c ∈ t.children p) (hq : c ∈ t.children q) : p = q := by
  have hp := (h.parent_iff p c).2 hp
  have hq := (h.parent_iff q c).2 hq
  rw [hp] at hq
  exact Option.some.inj hq

theorem parent?_eq (t : Tree) (id : Nat) : t.parent? id = (t.core? id).bind (·.parent) := by
  rw [parent?, core?]
  cases t.get? id <;> rfl

theorem children_eq (t : Tree) (id : Nat) : t.children id = ((t.core? id).map (·.children)).getD [] := by
  rw [children, core?]
  cases t.get? id <;> rfl

theorem get?_of_le (h : t.size ≤ id) : t.get? id = none := Array.getElem?_eq_none h

theorem lt_size_of_parent (h : t.parent? c = some p) : c < t.size := by
  by_contra hlt
  rw [parent?, get?_of_le (Nat.not_lt.1 hlt)] at h
  cases h

theorem lt_size_of_mem (h : c ∈ t.children p) : p < t.size := by
  by_contra hlt
  rw [children, get?_of_le (Nat.not_lt.1 hlt)] at h
  exact List.not_mem_nil h

/-- A node stands in at most one list of children, and there once. -/
theorem Linked.nodup_children (h : t.Linked) : ((List.range t.size).flatMap t.children).Nodup := by
  refine List.nodup_flatMap.2 ⟨fun p _ => h.nodup p, ?_⟩
  refine List.Nodup.pairwise_of_forall_ne List.nodup_range ?_
  intro p _ q _ hne c hp hq
  exact hne (h.parent_unique hp hq)

/-- Whether links agree depends on the links only. -/
theorem Linked.congr {t' : Tree} (h : t.Linked) (hparent : ∀ c, t'.parent? c = t.parent? c)
    (hchildren : ∀ p, t'.children p = t.children p) (hsiblings : ∀ c, t'.siblings c = t.siblings c) :
    t'.Linked where
  parent_iff p c := by rw [hparent, hchildren]; exact h.parent_iff p c
  nodup p := by rw [hchildren]; exact h.nodup p
  inOrder p := by
    intro before id after heq
    rw [hchildren] at heq
    rw [hsiblings]
    exact h.inOrder p before id after heq
  alone c hc := by
    rw [hparent] at hc
    rw [hsiblings]
    exact h.alone c hc

/-! ## Links of changed nodes -/

theorem get?_modify (t : Tree) (id i : Nat) (f : Node → Node) :
    (t.modify id f).get? i = if id = i then (t.get? i).map f else t.get? i :=
  Array.getElem?_modify

theorem parent?_modify (t : Tree) (id i : Nat) (f : Node → Node) :
    (t.modify id f).parent? i = if id = i then (t.get? i).bind fun n => (f n).parent else t.parent? i := by
  rw [parent?, get?_modify]
  by_cases h : id = i
  · rw [if_pos h, if_pos h]
    cases t.get? i <;> rfl
  · rw [if_neg h, if_neg h]
    rfl

theorem children_modify (t : Tree) (id i : Nat) (f : Node → Node) :
    (t.modify id f).children i =
      if id = i then ((t.get? i).map fun n => (f n).children).getD [] else t.children i := by
  rw [children, get?_modify]
  by_cases h : id = i
  · rw [if_pos h, if_pos h]
    cases t.get? i <;> rfl
  · rw [if_neg h, if_neg h]
    rfl

theorem parent?_modify_of (f : Node → Node) (hf : ∀ n, (f n).parent = n.parent) (i : Nat) :
    (t.modify id f).parent? i = t.parent? i := by
  rw [parent?_modify]
  by_cases h : id = i
  · rw [if_pos h, parent?]
    cases t.get? i with
    | none => rfl
    | some n => exact hf n
  · rw [if_neg h]

theorem children_modify_of (f : Node → Node) (hf : ∀ n, (f n).children = n.children) (i : Nat) :
    (t.modify id f).children i = t.children i := by
  rw [children_modify]
  by_cases h : id = i
  · rw [if_pos h, children]
    cases t.get? i with
    | none => rfl
    | some n => exact hf n
  · rw [if_neg h]

theorem siblings_modify_ne (f : Node → Node) {i : Nat} (h : i ≠ id) :
    (t.modify id f).siblings i = t.siblings i := by
  simp only [siblings, previous?, next?, get?_modify, if_neg (Ne.symm h)]

/-- A change that leaves the siblings of a node alone. -/
theorem siblings_modify_of (f : Node → Node) (hf : ∀ n, (f n).previous = n.previous ∧ (f n).next = n.next)
    (i : Nat) : (t.modify id f).siblings i = t.siblings i := by
  by_cases h : id = i
  · simp only [siblings, previous?, next?, get?_modify, if_pos h]
    cases t.get? i with
    | none => rfl
    | some n => simp [hf n]
  · exact siblings_modify_ne f (Ne.symm h)

/-! ## Siblings linked anew -/

theorem get?_linkSiblings_of_not_mem {before : Option Nat} {ids : List Nat} (h : id ∉ ids) :
    (t.linkSiblings before ids).get? id = t.get? id := by
  induction ids generalizing t before with
  | nil => rfl
  | cons i rest ih =>
    rw [List.mem_cons, not_or] at h
    rw [linkSiblings, ih h.2, get?_modify, if_neg (Ne.symm h.1)]

/-- Linked siblings stand beside one another; the first stands behind the one before the list. -/
theorem siblings_linkSiblings {before : Option Nat} {ids pre post : List Nat} (hnodup : ids.Nodup)
    (hids : ids = pre ++ id :: post) (hsize : id < t.size) :
    (t.linkSiblings before ids).siblings id = (pre.getLast?.or before, post.head?) := by
  subst hids
  induction pre generalizing t before with
  | nil =>
    -- the first of the list is not touched again
    have hfresh : id ∉ post := (List.nodup_cons.1 hnodup).1
    obtain ⟨n, hn⟩ : ∃ n, t.get? id = some n := ⟨_, Array.getElem?_eq_getElem hsize⟩
    rw [List.nil_append, linkSiblings, siblings, previous?, next?, get?_linkSiblings_of_not_mem hfresh, get?_modify,
      if_pos rfl, hn]
    rfl
  | cons i pre ih =>
    rw [List.cons_append, linkSiblings, ih (by rw [size_modify]; exact hsize) (List.nodup_cons.1 hnodup).2]
    cases h : pre.getLast? <;> simp [List.getLast?_cons, h]

@[simp] theorem parent?_relink (t : Tree) (p id : Nat) : (t.relink p).parent? id = t.parent? id := by
  rw [parent?_eq, parent?_eq, relink, core?_linkSiblings]

@[simp] theorem children_relink (t : Tree) (p id : Nat) : (t.relink p).children id = t.children id := by
  rw [children_eq, children_eq, relink, core?_linkSiblings]

theorem siblings_relink_of_not_mem (h : id ∉ t.children p) : (t.relink p).siblings id = t.siblings id := by
  simp only [siblings, previous?, next?, relink, get?_linkSiblings_of_not_mem h]

/-- When all but the order of one node's children is right, linking them anew makes it right. -/
theorem linked_relink (hparent : ∀ p c, t.parent? c = some p ↔ c ∈ t.children p)
    (hnodup : ∀ p, (t.children p).Nodup) (horder : ∀ q, q ≠ p → t.InOrder (t.children q))
    (halone : ∀ c, t.parent? c = none → t.siblings c = (none, none)) : (t.relink p).Linked where
  parent_iff q c := by rw [parent?_relink, children_relink]; exact hparent q c
  nodup q := by rw [children_relink]; exact hnodup q
  inOrder q := by
    intro before id after heq
    rw [children_relink] at heq
    have hmem : id ∈ t.children q := by rw [heq]; simp
    have hq := (hparent q id).2 hmem
    by_cases hqp : q = p
    · subst hqp
      rw [relink, siblings_linkSiblings (hnodup q) heq (lt_size_of_parent hq), Option.or_none]
    · -- the children of other nodes are not touched
      rw [siblings_relink_of_not_mem]
      · exact horder q hqp before id after heq
      · intro hid
        have hp := (hparent p id).2 hid
        rw [hq] at hp
        exact hqp (Option.some.inj hp)
  alone c hc := by
    rw [parent?_relink] at hc
    rw [siblings_relink_of_not_mem]
    · exact halone c hc
    · intro hmem
      rw [(hparent p c).2 hmem] at hc
      cases hc

/-! ## Taking nodes out -/

theorem detach_of_parent (h : t.parent? id = some p) :
    t.detach id = (((t.modify p fun n => { n with children := n.children.filter (· != id) }).modify id fun n =>
      { n with parent := none, previous := none, next := none }).relink p) := by
  rw [detach, h]

theorem detach_of_none (h : t.parent? id = none) : t.detach id = t := by
  rw [detach, h]

/-- A node that is taken out has no parent, and all others have the one that they had. -/
theorem parent?_detach (t : Tree) (id c : Nat) :
    (t.detach id).parent? c = if c = id then none else t.parent? c := by
  cases hp : t.parent? id with
  | none =>
    rw [detach_of_none hp]
    by_cases hc : c = id
    · rw [if_pos hc, hc, hp]
    · rw [if_neg hc]
  | some p =>
    rw [detach_of_parent hp, parent?_relink, parent?_modify]
    by_cases hc : c = id
    · rw [if_pos hc, if_pos hc.symm]
      cases (t.modify p _).get? c <;> rfl
    · rw [if_neg hc, if_neg (Ne.symm hc)]
      rw [parent?_modify_of _ (by exact fun _ => rfl)]

/-- Who has no parent is in no list of children. -/
theorem Linked.filter_of_not_child (h : t.Linked) {q : Nat} (hid : t.parent? id ≠ some q) :
    (t.children q).filter (· != id) = t.children q := by
  refine List.filter_eq_self.2 fun c hc => ?_
  rw [bne_iff_ne]
  rintro rfl
  exact hid ((h.parent_iff q c).2 hc)

/-- A node that is taken out is nobody's child any more. -/
theorem children_detach (h : t.Linked) (id q : Nat) :
    (t.detach id).children q = (t.children q).filter (· != id) := by
  by_cases hq : t.parent? id = some q
  · rw [detach_of_parent hq, children_relink, children_modify_of _ (by exact fun _ => rfl), children_modify,
      if_pos rfl, children]
    cases t.get? q <;> rfl
  · rw [h.filter_of_not_child hq]
    cases hp : t.parent? id with
    | none => rw [detach_of_none hp]
    | some p =>
      have hpq : p ≠ q := by
        rintro rfl
        exact hq hp
      rw [detach_of_parent hp, children_relink, children_modify_of _ (by exact fun _ => rfl), children_modify,
        if_neg hpq]

/-- Only the parent and the siblings of a node that is taken out change with it. -/
theorem get?_detach_of_ne {i : Nat} (hp : t.parent? id = some p) (hid : i ≠ id) (hparent : i ≠ p)
    (hsibling : i ∉ t.children p) : (t.detach id).get? i = t.get? i := by
  rw [detach_of_parent hp, relink, get?_linkSiblings_of_not_mem, get?_modify, if_neg (Ne.symm hid), get?_modify,
    if_neg (Ne.symm hparent)]
  rw [children_modify_of _ (by exact fun _ => rfl), children_modify, if_pos rfl]
  intro hi
  rw [children] at hsibling
  cases hn : t.get? p with
  | none => simp [hn] at hi
  | some n => simp_all

/-- **Taking a node out keeps the links.** -/
theorem linked_detach (h : t.Linked) (id : Nat) : (t.detach id).Linked := by
  cases hp : t.parent? id with
  | none => rwa [detach_of_none hp]
  | some p =>
    have hparent := parent?_detach t id
    have hchildren := children_detach h id
    rw [detach_of_parent hp] at hparent hchildren ⊢
    simp only [parent?_relink, children_relink] at hparent hchildren
    refine linked_relink ?_ ?_ ?_ ?_
    · intro q c
      rw [hparent, hchildren, List.mem_filter, bne_iff_ne, ← h.parent_iff]
      by_cases hc : c = id
      · simp [hc]
      · simp [hc]
    · intro q
      rw [hchildren]
      exact (h.nodup q).filter _
    · intro q hq before c after heq
      have hfresh : t.parent? id ≠ some q := by
        rw [hp]
        exact fun heq => hq (Option.some.inj heq).symm
      rw [hchildren, h.filter_of_not_child hfresh] at heq
      have hc : c ≠ id := by
        rintro rfl
        exact hfresh ((h.parent_iff q c).2 (by rw [heq]; simp))
      rw [siblings_modify_ne _ hc, siblings_modify_of]
      · exact h.inOrder q before c after heq
      · exact fun _ => ⟨rfl, rfl⟩
    · intro c hc
      by_cases hid : c = id
      · subst hid
        rw [siblings, previous?, next?, get?_modify, if_pos rfl]
        cases (t.modify p _).get? c <;> rfl
      · rw [hparent, if_neg hid] at hc
        rw [siblings_modify_ne _ hid, siblings_modify_of]
        · exact h.alone c hc
        · exact fun _ => ⟨rfl, rfl⟩

/-! ## Insertions -/

/-- Where a node is put in a list: before the reference if the list has it, else at the end. -/
theorem insertInto_spec (id : Nat) (reference : Option Nat) (ids : List Nat) :
    ∃ before after, ids = before ++ after ∧ insertInto id reference ids = before ++ id :: after ∧
      after.head? = reference.filter (· ∈ ids) := by
  induction ids with
  | nil => exact ⟨[], [], rfl, rfl, by cases reference <;> simp⟩
  | cons c rest ih =>
    by_cases hc : reference = some c
    · refine ⟨[], c :: rest, rfl, ?_, ?_⟩
      · rw [insertInto, if_pos hc, List.nil_append]
      · simp [hc, Option.filter]
    · obtain ⟨before, after, hrest, hinsert, hhead⟩ := ih
      refine ⟨c :: before, after, ?_, ?_, ?_⟩
      · rw [hrest, List.cons_append]
      · rw [insertInto, if_neg hc, hinsert, List.cons_append]
      · rw [hhead]
        cases reference with
        | none => rfl
        | some r =>
          have hr : r ≠ c := fun heq => hc (by rw [heq])
          simp [Option.filter, hr]

theorem mem_insertInto {reference : Option Nat} {ids : List Nat} {i : Nat} :
    i ∈ insertInto id reference ids ↔ i = id ∨ i ∈ ids := by
  obtain ⟨before, after, hids, hinsert, -⟩ := insertInto_spec id reference ids
  rw [hinsert, hids]
  simp only [List.mem_append, List.mem_cons]
  tauto

theorem nodup_insertInto {reference : Option Nat} {ids : List Nat} (h : ids.Nodup) (hid : id ∉ ids) :
    (insertInto id reference ids).Nodup := by
  obtain ⟨before, after, hids, hinsert, -⟩ := insertInto_spec id reference ids
  rw [hinsert, List.nodup_middle, ← hids]
  exact List.nodup_cons.2 ⟨hid, h⟩

theorem insertBefore_of_lt (hp : p < t.size) (hc : c < t.size) (hne : p ≠ c) (reference : Option Nat) :
    t.insertBefore p c reference =
      (((t.detach c).modify p fun n => { n with children := insertInto c reference n.children }).modify c fun n =>
        { n with parent := some p }).relink p := by
  have hguard : ¬ (t.size ≤ c ∨ t.size ≤ p ∨ p = c) := by omega
  rw [insertBefore, if_neg hguard]

theorem insertBefore_of_not (h : ¬ (p < t.size ∧ c < t.size ∧ p ≠ c)) (reference : Option Nat) :
    t.insertBefore p c reference = t := by
  have hguard : t.size ≤ c ∨ t.size ≤ p ∨ p = c := by omega
  rw [insertBefore, if_pos hguard]

/-- A node that is put somewhere has its new parent, and all others have the one that they had. -/
theorem parent?_insertBefore (hp : p < t.size) (hc : c < t.size) (hne : p ≠ c) (reference : Option Nat)
    (i : Nat) : (t.insertBefore p c reference).parent? i = if i = c then some p else t.parent? i := by
  have hget : ∃ n, ((t.detach c).modify p fun n => { n with children := insertInto c reference n.children }).get? c =
      some n := by
    refine ⟨_, Array.getElem?_eq_getElem ?_⟩
    change c < ((t.detach c).modify p _).size
    rw [size_modify, size_detach]
    exact hc
  rw [insertBefore_of_lt hp hc hne, parent?_relink, parent?_modify]
  by_cases hic : i = c
  · obtain ⟨n, hn⟩ := hget
    rw [if_pos hic, if_pos hic.symm, hic, hn]
    rfl
  · rw [if_neg hic, if_neg (Ne.symm hic), parent?_modify_of _ (by exact fun _ => rfl), parent?_detach, if_neg hic]

/-- A node that is put somewhere is a child there, and nowhere else. -/
theorem children_insertBefore (h : t.Linked) (hp : p < t.size) (hc : c < t.size) (hne : p ≠ c)
    (reference : Option Nat) (i : Nat) :
    (t.insertBefore p c reference).children i =
      if i = p then insertInto c reference ((t.children p).filter (· != c)) else (t.children i).filter (· != c) := by
  have hget : ∃ n, (t.detach c).get? p = some n := by
    refine ⟨_, Array.getElem?_eq_getElem ?_⟩
    change p < (t.detach c).size
    rw [size_detach]
    exact hp
  rw [insertBefore_of_lt hp hc hne, children_relink, children_modify_of _ (by exact fun _ => rfl), children_modify]
  by_cases hip : i = p
  · obtain ⟨n, hn⟩ := hget
    have hchildren := children_detach h c p
    rw [children, hn] at hchildren
    rw [if_pos hip, if_pos hip.symm, hip, hn, ← hchildren]
    rfl
  · rw [if_neg hip, if_neg (Ne.symm hip), children_detach h]

/-- **Putting a node somewhere keeps the links.** -/
theorem linked_insertBefore (h : t.Linked) (p c : Nat) (reference : Option Nat) :
    (t.insertBefore p c reference).Linked := by
  by_cases hvalid : p < t.size ∧ c < t.size ∧ p ≠ c
  · obtain ⟨hp, hc, hne⟩ := hvalid
    have hparent := parent?_insertBefore hp hc hne reference
    have hchildren := children_insertBefore h hp hc hne reference
    have hdetached := linked_detach h c
    rw [insertBefore_of_lt hp hc hne] at hparent hchildren ⊢
    simp only [parent?_relink, children_relink] at hparent hchildren
    have hfresh : c ∉ (t.children p).filter (· != c) := by simp
    have hsiblings (f g : Node → Node) (hf : ∀ n, (f n).previous = n.previous ∧ (f n).next = n.next)
        (hg : ∀ n, (g n).previous = n.previous ∧ (g n).next = n.next) (i : Nat) :
        (((t.detach c).modify p f).modify c g).siblings i = (t.detach c).siblings i := by
      rw [siblings_modify_of g hg, siblings_modify_of f hf]
    refine linked_relink ?_ ?_ ?_ ?_
    · intro q i
      rw [hparent, hchildren]
      by_cases hqp : q = p
      · subst hqp
        rw [if_pos rfl, mem_insertInto, List.mem_filter, bne_iff_ne, ← h.parent_iff]
        by_cases hic : i = c
        · simp [hic]
        · simp [hic]
      · rw [if_neg hqp, List.mem_filter, bne_iff_ne, ← h.parent_iff]
        by_cases hic : i = c
        · simp [hic, Ne.symm hqp]
        · simp [hic]
    · intro q
      rw [hchildren]
      by_cases hqp : q = p
      · rw [if_pos hqp]
        exact nodup_insertInto ((h.nodup p).filter _) hfresh
      · rw [if_neg hqp]
        exact (h.nodup q).filter _
    · intro q hqp before i after heq
      rw [hchildren, if_neg hqp, ← children_detach h] at heq
      -- the other lists are those of the tree that the node was taken out of
      rw [hsiblings _ _ (by exact fun _ => ⟨rfl, rfl⟩) (by exact fun _ => ⟨rfl, rfl⟩)]
      exact hdetached.inOrder q before i after heq
    · intro i hi
      rw [hparent] at hi
      by_cases hic : i = c
      · rw [if_pos hic] at hi
        cases hi
      · rw [if_neg hic] at hi
        rw [hsiblings _ _ (by exact fun _ => ⟨rfl, rfl⟩) (by exact fun _ => ⟨rfl, rfl⟩)]
        refine hdetached.alone i ?_
        rw [parent?_detach, if_neg hic, hi]
  · rwa [insertBefore_of_not hvalid]

/-! ## What nodes are -/

/-- What the node at a place is. -/
def kind? (t : Tree) (id : Nat) : Option Kind := (t.get? id).map (·.kind)

theorem kind?_eq (t : Tree) (id : Nat) : t.kind? id = (t.core? id).map (·.kind) := by
  rw [kind?, core?]
  cases t.get? id <;> rfl

theorem kind?_modify_of (f : Node → Node) (hf : ∀ n, (f n).kind = n.kind) (i : Nat) :
    (t.modify id f).kind? i = t.kind? i := by
  rw [kind?, kind?, get?_modify]
  by_cases h : id = i
  · rw [if_pos h]
    cases t.get? i with
    | none => rfl
    | some n => simp [hf n]
  · rw [if_neg h]

@[simp] theorem kind?_relink (t : Tree) (p i : Nat) : (t.relink p).kind? i = t.kind? i := by
  rw [kind?_eq, kind?_eq, relink, core?_linkSiblings]

@[simp] theorem kind?_detach (t : Tree) (id i : Nat) : (t.detach id).kind? i = t.kind? i := by
  cases hp : t.parent? id with
  | none => rw [detach_of_none hp]
  | some p =>
    rw [detach_of_parent hp, kind?_relink, kind?_modify_of _ (by exact fun _ => rfl),
      kind?_modify_of _ (by exact fun _ => rfl)]

/-- Putting a node somewhere changes no node to another. -/
@[simp] theorem kind?_insertBefore (t : Tree) (p c : Nat) (reference : Option Nat) (i : Nat) :
    (t.insertBefore p c reference).kind? i = t.kind? i := by
  by_cases hvalid : p < t.size ∧ c < t.size ∧ p ≠ c
  · obtain ⟨hp, hc, hne⟩ := hvalid
    rw [insertBefore_of_lt hp hc hne, kind?_relink, kind?_modify_of _ (by exact fun _ => rfl),
      kind?_modify_of _ (by exact fun _ => rfl), kind?_detach]
  · rw [insertBefore_of_not hvalid]

/-! ## New nodes and changed elements -/

theorem get?_alloc_of_ne (kind : Kind) (h : id ≠ t.size) : (t.alloc kind).1.get? id = t.get? id := by
  unfold alloc get?
  rw [Array.getElem?_push, if_neg (show ¬ id = t.nodes.size from h)]

theorem get?_alloc_self (t : Tree) (kind : Kind) : (t.alloc kind).1.get? t.size = some (.detached kind) :=
  Array.getElem?_push_size


/-- A new node has no links, as the place that it takes had none. -/
theorem linked_alloc (h : t.Linked) (kind : Kind) : (t.alloc kind).1.Linked := by
  have hlinks : ∀ i, (t.alloc kind).1.parent? i = t.parent? i ∧ (t.alloc kind).1.children i = t.children i ∧
      (t.alloc kind).1.siblings i = t.siblings i := by
    intro i
    simp only [parent?, children, siblings, previous?, next?]
    by_cases hi : i = t.size
    · rw [hi, get?_alloc_self, get?_of_le (Nat.le_refl _)]
      exact ⟨rfl, rfl, rfl⟩
    · rw [get?_alloc_of_ne kind hi]
      exact ⟨rfl, rfl, rfl⟩
  exact h.congr (fun i => (hlinks i).1) (fun i => (hlinks i).2.1) fun i => (hlinks i).2.2

/-- What an element says of itself are no links. -/
theorem linked_modifyElement (h : t.Linked) (id : Nat) (f : Element → Element) : (t.modifyElement id f).Linked := by
  rw [modifyElement]
  refine h.congr (fun i => ?_) (fun i => ?_) fun i => ?_
  · rw [parent?_modify_of]
    intro n
    cases n.kind <;> rfl
  · rw [children_modify_of]
    intro n
    cases n.kind <;> rfl
  · rw [siblings_modify_of]
    intro n
    cases n.kind <;> exact ⟨rfl, rfl⟩

/-- An element without a shadow tree gets one: a fragment at the first free place. -/
theorem attachShadow_of_new {host : Nat} {e : Element} (he : t.element? host = some e) (hnew : e.shadow = none) :
    (t.attachShadow host).1 =
      (t.alloc (.fragment (some host))).1.modifyElement host fun e => { e with shadow := some t.size } := by
  simp only [attachShadow, he, hnew]
  rfl

theorem attachShadow_of_not {host : Nat} (h : ¬ ∃ e, t.element? host = some e ∧ e.shadow = none) :
    (t.attachShadow host).1 = t := by
  unfold attachShadow
  split
  · rfl
  · rename_i e he
    split
    · rfl
    · rename_i hnew
      exact absurd ⟨e, he, hnew⟩ h

theorem linked_attachShadow (h : t.Linked) (host : Nat) : (t.attachShadow host).1.Linked := by
  by_cases hnew : ∃ e, t.element? host = some e ∧ e.shadow = none
  · obtain ⟨e, he, hshadow⟩ := hnew
    rw [attachShadow_of_new he hshadow]
    exact linked_modifyElement (linked_alloc h _) _ _
  · rwa [attachShadow_of_not hnew]

/-! ## Taking all children out -/

theorem get?_foldl_modify (f : Node → Node) (hf : ∀ n, f (f n) = f n) (ids : List Nat) (i : Nat) :
    (ids.foldl (fun t id => t.modify id f) t).get? i = if i ∈ ids then (t.get? i).map f else t.get? i := by
  induction ids generalizing t with
  | nil => rfl
  | cons id ids ih =>
    rw [List.foldl_cons, ih, get?_modify]
    by_cases hid : id = i
    · subst hid
      rw [if_pos rfl, if_pos List.mem_cons_self, Option.map_map]
      by_cases hmem : id ∈ ids
      · rw [if_pos hmem]
        congr 1
        exact funext hf
      · rw [if_neg hmem]
    · rw [if_neg hid]
      by_cases hmem : i ∈ ids
      · rw [if_pos hmem, if_pos (List.mem_cons_of_mem _ hmem)]
      · rw [if_neg hmem, if_neg (by simp [hmem, Ne.symm hid])]

/-- A node without links to a parent and to siblings. -/
def unlinked (n : Node) : Node := { n with parent := none, previous := none, next := none }

theorem get?_clearChildren (t : Tree) (p i : Nat) :
    (t.clearChildren p).get? i =
      if i ∈ t.children p then ((t.modify p fun n => { n with children := [] }).get? i).map unlinked
      else (t.modify p fun n => { n with children := [] }).get? i :=
  get?_foldl_modify unlinked (fun _ => rfl) _ i

/-- The children of a node that is cleared have no parent any more. -/
theorem parent?_clearChildren (t : Tree) (p i : Nat) :
    (t.clearChildren p).parent? i = if i ∈ t.children p then none else t.parent? i := by
  rw [parent?, get?_clearChildren]
  by_cases hi : i ∈ t.children p
  · rw [if_pos hi, if_pos hi]
    cases (t.modify p _).get? i <;> rfl
  · rw [if_neg hi, if_neg hi]
    change (t.modify p _).parent? i = t.parent? i
    rw [parent?_modify_of _ (by exact fun _ => rfl)]

theorem children_clearChildren (t : Tree) (p q : Nat) :
    (t.clearChildren p).children q = if q = p then [] else t.children q := by
  have hchildren : (t.clearChildren p).children q = (t.modify p fun n => { n with children := [] }).children q := by
    rw [children, children, get?_clearChildren]
    by_cases hq : q ∈ t.children p
    · rw [if_pos hq]
      cases (t.modify p _).get? q <;> rfl
    · rw [if_neg hq]
  rw [hchildren, children_modify]
  by_cases hq : q = p
  · rw [if_pos hq, if_pos hq.symm]
    cases t.get? q <;> rfl
  · rw [if_neg hq, if_neg (Ne.symm hq)]

@[simp] theorem kind?_clearChildren (t : Tree) (p i : Nat) : (t.clearChildren p).kind? i = t.kind? i := by
  have hcleared : (t.modify p fun n => { n with children := [] }).kind? i = t.kind? i := by
    rw [kind?_modify_of _ (by exact fun _ => rfl)]
  rw [← hcleared, kind?, kind?, get?_clearChildren]
  by_cases hi : i ∈ t.children p
  · rw [if_pos hi, Option.map_map]
    rfl
  · rw [if_neg hi]

/-- **Taking all children out keeps the links.** -/
theorem linked_clearChildren (h : t.Linked) (p : Nat) : (t.clearChildren p).Linked := by
  have hsiblings (i : Nat) :
      (t.clearChildren p).siblings i = if i ∈ t.children p then (none, none) else t.siblings i := by
    rw [siblings, previous?, next?, get?_clearChildren]
    by_cases hi : i ∈ t.children p
    · rw [if_pos hi, if_pos hi]
      cases (t.modify p _).get? i <;> rfl
    · rw [if_neg hi, if_neg hi]
      change (t.modify p _).siblings i = t.siblings i
      rw [siblings_modify_of _ (by exact fun _ => ⟨rfl, rfl⟩)]
  refine ⟨?_, ?_, ?_, ?_⟩
  · intro q c
    rw [parent?_clearChildren, children_clearChildren]
    by_cases hc : c ∈ t.children p
    · by_cases hq : q = p
      · simp [hc, hq]
      · have hfresh : c ∉ t.children q := fun hmem => hq (h.parent_unique hmem hc)
        simp [hc, hq, hfresh]
    · by_cases hq : q = p
      · simp [hc, hq, h.parent_iff]
      · simp [hc, hq, h.parent_iff]
  · intro q
    rw [children_clearChildren]
    by_cases hq : q = p
    · rw [if_pos hq]
      exact List.nodup_nil
    · rw [if_neg hq]
      exact h.nodup q
  · intro q before c after heq
    rw [children_clearChildren] at heq
    by_cases hq : q = p
    · rw [if_pos hq] at heq
      simp at heq
    · rw [if_neg hq] at heq
      have hc : c ∉ t.children p := fun hmem => hq (h.parent_unique (by rw [heq]; simp) hmem)
      rw [hsiblings, if_neg hc]
      exact h.inOrder q before c after heq
  · intro c hc
    rw [hsiblings]
    by_cases hmem : c ∈ t.children p
    · rw [if_pos hmem]
    · rw [parent?_clearChildren, if_neg hmem] at hc
      rw [if_neg hmem]
      exact h.alone c hc

/-! ## Copies -/

/-- Copies the contents of a template, if there are any, for a copy that is already there. -/
def importContents (source : Tree) (depth copy : Nat) (contents : Option Nat) (t : Tree) : Tree :=
  match contents with
  | none => t
  | some contents =>
    (importTo source depth t contents).1.modifyElement copy fun e =>
      { e with contents := (importTo source depth t contents).2 }

/-- Copies a child and makes it the last child of a copy that is already there. -/
def importChild (source : Tree) (depth copy : Nat) (t : Tree) (child : Nat) : Tree :=
  match importTo source depth t child with
  | (t, some copied) => t.appendChild copy copied
  | (t, none) => t

/-- A node is copied before its contents, and these before its children. -/
theorem importTo_of_some {source : Tree} {n : Node} (h : source.get? id = some n) (depth : Nat) (t : Tree) :
    importTo source (depth + 1) t id =
      (n.children.foldl (importChild source depth t.size)
        (importContents source depth t.size (source.contents? id) (t.alloc (copiedKind n.kind)).1), some t.size) := by
  rw [importTo, h]
  cases source.contents? id <;> rfl

theorem importTo_of_none {source : Tree} (h : source.get? id = none) (depth : Nat) (t : Tree) :
    importTo source depth t id = (t, none) := by
  cases depth with
  | zero => rfl
  | succ depth => rw [importTo, h]

/-- **Copying keeps the links**, whatever is copied. -/
theorem linked_importTo (source : Tree) (depth : Nat) : ∀ (t : Tree) (id : Nat), t.Linked →
    (importTo source depth t id).1.Linked := by
  induction depth with
  | zero => exact fun _ _ h => h
  | succ depth ih =>
    intro t id h
    cases hn : source.get? id with
    | none => rwa [importTo_of_none hn]
    | some n =>
      rw [importTo_of_some hn]
      have hcontents : (importContents source depth t.size (source.contents? id)
          (t.alloc (copiedKind n.kind)).1).Linked := by
        unfold importContents
        split
        · exact linked_alloc h _
        · exact linked_modifyElement (ih _ _ (linked_alloc h _)) _ _
      refine List.foldlRecOn n.children _ hcontents fun t' h' child _ => ?_
      have hcopied := ih t' child h'
      unfold importChild
      split
      · rename_i copied heq
        rw [heq] at hcopied
        exact linked_insertBefore hcopied _ _ _
      · rename_i heq
        rw [heq] at hcopied
        exact hcopied

end LiveMarkup.Tree
