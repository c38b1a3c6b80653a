/-
What a copy adds to a tree.

Copying puts new nodes behind those that a tree has. The new nodes are linked to one another only, parents before their
children, and no node that was there changes: `Adds` says so, and every step of copying keeps it. Main result:
`importTo_cases`, for any two trees, also those with circles.
-/
import LiveMarkup.Proofs.Dom.Links

set_option autoImplicit false

namespace LiveMarkup.Tree

/-- What a copied node can be: it belongs to no host, has no place in a text and no shadow tree. -/
def IsCopied : Kind → Prop
  | .document => False
  | .fragment host => host = none
  | .element e => e.location = none ∧ e.shadow = none
  | .text _ => True
  | .comment _ => True

/-- A tree with nodes added from a place on, which are linked to one another only, and with no other node changed. -/
structure Adds (base : Nat) (t t' : Tree) : Prop where
  size_le : base ≤ t'.size
  old : ∀ i : Nat, i < base → t'.get? i = t.get? i
  parent : ∀ i j : Nat, base ≤ i → t'.parent? i = some j → base ≤ j ∧ j < i
  children : ∀ i j : Nat, base ≤ i → j ∈ t'.children i → i < j
  copied : ∀ (i : Nat) n, base ≤ i → t'.get? i = some n → IsCopied n.kind

/-- A node that is linked to no parent and no siblings. -/
def Detached (t : Tree) (id : Nat) : Prop := t.parent? id = none ∧ t.siblings id = (none, none)

variable {t t' t'' : Tree} {base copy child id : Nat}

theorem parent?_of_get? (h : t'.get? id = t.get? id) : t'.parent? id = t.parent? id := by
  rw [parent?, parent?, h]

theorem children_of_get? (h : t'.get? id = t.get? id) : t'.children id = t.children id := by
  rw [Tree.children, Tree.children, h]

theorem siblings_of_get? (h : t'.get? id = t.get? id) : t'.siblings id = t.siblings id := by
  rw [siblings, siblings, previous?, previous?, next?, next?, h]

theorem kind?_of_get? (h : t'.get? id = t.get? id) : t'.kind? id = t.kind? id := by
  rw [kind?, kind?, h]

/-- What is added to an addition is added to what was there before. -/
theorem Adds.trans (h : Adds base t t') (h' : Adds t'.size t' t'') : Adds base t t'' where
  size_le := Nat.le_trans h.size_le h'.size_le
  old i hi := by rw [h'.old i (Nat.lt_of_lt_of_le hi h.size_le), h.old i hi]
  parent i j hi hj := by
    by_cases hlt : i < t'.size
    · rw [parent?_of_get? (h'.old i hlt)] at hj
      exact h.parent i j hi hj
    · have hbound := h'.parent i j (by omega) hj
      have hsize := h.size_le
      omega
  children i j hi hj := by
    by_cases hlt : i < t'.size
    · rw [children_of_get? (h'.old i hlt)] at hj
      exact h.children i j hi hj
    · exact h'.children i j (by omega) hj
  copied i n hi hn := by
    by_cases hlt : i < t'.size
    · rw [h'.old i hlt] at hn
      exact h.copied i n hi hn
    · exact h'.copied i n (by omega) hn

/-! ## The steps of copying -/

theorem isCopied_copiedKind (kind : Kind) : IsCopied (copiedKind kind) := by
  cases kind <;> simp [IsCopied, copiedKind]

theorem adds_alloc (t : Tree) {kind : Kind} (h : IsCopied kind) : Adds t.size t (t.alloc kind).1 := by
  have hnew : ∀ i n, t.size ≤ i → (t.alloc kind).1.get? i = some n → n = .detached kind := by
    intro i n hi hn
    by_cases hlast : i = t.size
    · rw [hlast, get?_alloc_self] at hn
      exact (Option.some.inj hn).symm
    · rw [get?_alloc_of_ne kind hlast, get?_of_le hi] at hn
      cases hn
  refine ⟨?_, ?_, ?_, ?_, ?_⟩
  · rw [size_alloc]
    omega
  · intro i hi
    exact get?_alloc_of_ne kind (Nat.ne_of_lt hi)
  · intro i j hi hj
    rw [parent?] at hj
    cases hn : (t.alloc kind).1.get? i with
    | none => simp [hn] at hj
    | some n => simp [hn, hnew i n hi hn, Node.detached] at hj
  · intro i j hi hj
    rw [Tree.children] at hj
    cases hn : (t.alloc kind).1.get? i with
    | none => simp [hn] at hj
    | some n => simp [hn, hnew i n hi hn, Node.detached] at hj
  · intro i n hi hn
    rw [hnew i n hi hn]
    exact h

theorem get?_modifyElement_of_ne (f : Element → Element) (h : id ≠ copy) :
    (t.modifyElement copy f).get? id = t.get? id := by
  rw [modifyElement, get?_modify, if_neg (Ne.symm h)]

theorem parent?_modifyElement (t : Tree) (copy id : Nat) (f : Element → Element) :
    (t.modifyElement copy f).parent? id = t.parent? id := by
  refine parent?_modify_of _ ?_ id
  intro n
  cases n.kind <;> rfl

theorem children_modifyElement (t : Tree) (copy id : Nat) (f : Element → Element) :
    (t.modifyElement copy f).children id = t.children id := by
  refine children_modify_of _ ?_ id
  intro n
  cases n.kind <;> rfl

theorem siblings_modifyElement (t : Tree) (copy id : Nat) (f : Element → Element) :
    (t.modifyElement copy f).siblings id = t.siblings id := by
  refine siblings_modify_of _ ?_ id
  intro n
  cases n.kind <;> exact ⟨rfl, rfl⟩

theorem adds_contents (h : Adds base t t') (hcopy : base ≤ copy) (contents : Option Nat) :
    Adds base t (t'.modifyElement copy fun e => { e with contents }) where
  size_le := by rw [size_modifyElement]; exact h.size_le
  old i hi := by rw [get?_modifyElement_of_ne _ (by omega), h.old i hi]
  parent i j hi hj := by
    rw [parent?_modifyElement] at hj
    exact h.parent i j hi hj
  children i j hi hj := by
    rw [children_modifyElement] at hj
    exact h.children i j hi hj
  copied i n hi hn := by
    rw [modifyElement, get?_modify] at hn
    by_cases hc : copy = i
    · rw [if_pos hc] at hn
      obtain ⟨m, hm, rfl⟩ := Option.map_eq_some_iff.1 hn
      have hkind := h.copied i m hi hm
      cases hk : m.kind <;> simp_all [IsCopied]
    · rw [if_neg hc] at hn
      exact h.copied i n hi hn

/-- Making a copied node a child of another changes these two and the siblings that they get only. -/
theorem appendChild_of_detached (hp : copy < t.size) (hc : child < t.size) (hne : copy ≠ child)
    (hnone : t.parent? child = none) :
    t.appendChild copy child =
      ((t.modify copy fun n => { n with children := n.children ++ [child] }).modify child fun n =>
        { n with parent := some copy }).relink copy := by
  rw [appendChild, insertBefore_of_lt hp hc hne, detach_of_none hnone]
  simp only [insertInto_none]

theorem children_appendChild_of_detached (hp : copy < t.size) (hc : child < t.size) (hne : copy ≠ child)
    (hnone : t.parent? child = none) (i : Nat) :
    (t.appendChild copy child).children i = if i = copy then t.children copy ++ [child] else t.children i := by
  rw [appendChild_of_detached hp hc hne hnone, children_relink, children_modify_of _ (by exact fun _ => rfl),
    children_modify]
  by_cases hi : i = copy
  · obtain ⟨n, hn⟩ : ∃ n, t.get? copy = some n := ⟨_, Array.getElem?_eq_getElem hp⟩
    rw [if_pos hi, if_pos hi.symm, hi, Tree.children, hn]
    rfl
  · rw [if_neg hi, if_neg (Ne.symm hi)]

theorem get?_appendChild_of_detached (hp : copy < t.size) (hc : child < t.size) (hne : copy ≠ child)
    (hnone : t.parent? child = none) {i : Nat} (hip : i ≠ copy) (hic : i ≠ child) (hmem : i ∉ t.children copy) :
    (t.appendChild copy child).get? i = t.get? i := by
  have hrelinked : ∀ f g : Node → Node, (∀ n, (g n).children = n.children) →
      (∀ n, (f n).children = n.children ++ [child]) →
      i ∉ ((t.modify copy f).modify child g).children copy := by
    intro f g hg hf hi
    rw [children_modify_of g hg, children_modify, if_pos rfl] at hi
    rw [Tree.children] at hmem
    cases hn : t.get? copy with
    | none => simp [hn] at hi
    | some n => simp_all
  rw [appendChild_of_detached hp hc hne hnone, relink, get?_linkSiblings_of_not_mem, get?_modify,
    if_neg (Ne.symm hic), get?_modify, if_neg (Ne.symm hip)]
  exact hrelinked _ _ (fun _ => rfl) fun _ => rfl

/-- A new node without a parent becomes a child of a new node before it. -/
theorem adds_appendChild (h : Adds base t t') (hcopy : base ≤ copy) (hlt : copy < child) (hsize : child < t'.size)
    (hnone : t'.parent? child = none) : Adds base t (t'.appendChild copy child) := by
  have hp : copy < t'.size := by omega
  have hne : copy ≠ child := by omega
  refine ⟨?_, ?_, ?_, ?_, ?_⟩
  · rw [size_appendChild]
    exact h.size_le
  · intro i hi
    -- the children of a new node are new, so no link of an old one changes
    have hmem : i ∉ t'.children copy := fun hmem => by
      have := h.children copy i hcopy hmem
      omega
    rw [get?_appendChild_of_detached hp hsize hne hnone (by omega) (by omega) hmem, h.old i hi]
  · intro i j hi hj
    rw [appendChild, parent?_insertBefore hp hsize hne] at hj
    by_cases hic : i = child
    · rw [if_pos hic] at hj
      obtain rfl := Option.some.inj hj
      omega
    · rw [if_neg hic] at hj
      exact h.parent i j hi hj
  · intro i j hi hj
    rw [children_appendChild_of_detached hp hsize hne hnone] at hj
    by_cases hip : i = copy
    · rw [if_pos hip, List.mem_append, List.mem_singleton] at hj
      rcases hj with hj | hj
      · rw [hip]
        exact h.children copy j hcopy hj
      · omega
    · rw [if_neg hip] at hj
      exact h.children i j hi hj
  · intro i n hi hn
    have hkind : t'.kind? i = some n.kind := by
      rw [← kind?_insertBefore t' copy child none i, kind?]
      change ((t'.appendChild copy child).get? i).map _ = _
      rw [hn]
      rfl
    obtain ⟨m, hm, heq⟩ := Option.map_eq_some_iff.1 hkind
    rw [← heq]
    exact h.copied i m hi hm

/-! ## Copying -/

/-- A tree with a copy added: its outermost node stands at the first free place and is linked to no parent. -/
structure Copies (t t' : Tree) : Prop extends Adds t.size t t' where
  size_lt : t.size < t'.size
  detached : t'.Detached t.size

theorem copies_alloc (t : Tree) {kind : Kind} (h : IsCopied kind) : Copies t (t.alloc kind).1 where
  toAdds := adds_alloc t h
  size_lt := by rw [size_alloc]; omega
  detached := by simp [Detached, siblings, parent?, previous?, next?, get?_alloc_self, Node.detached]

/-- What is added behind a copy leaves it detached. -/
theorem Copies.trans (h : Copies t t') (h' : Adds t'.size t' t'') : Copies t t'' where
  toAdds := h.toAdds.trans h'
  size_lt := Nat.lt_of_lt_of_le h.size_lt h'.size_le
  detached := by
    have hget := h'.old t.size h.size_lt
    rw [Detached, parent?_of_get? hget, siblings_of_get? hget]
    exact h.detached

theorem copies_contents (h : Copies t t') (contents : Option Nat) :
    Copies t (t'.modifyElement t.size fun e => { e with contents }) where
  toAdds := adds_contents h.toAdds (Nat.le_refl _) contents
  size_lt := by rw [size_modifyElement]; exact h.size_lt
  detached := by
    rw [Detached, parent?_modifyElement, siblings_modifyElement]
    exact h.detached

/-- A copied child becomes a child of the copy. -/
theorem copies_child (h : Copies t t') (h' : Copies t' t'') : Copies t (t''.appendChild t.size t'.size) := by
  have hadds := h.toAdds.trans h'.toAdds
  have hlt := h.size_lt
  have hlt' := h'.size_lt
  have hnone := h'.detached.1
  have hroot := (h.trans h'.toAdds).detached
  refine ⟨adds_appendChild hadds (Nat.le_refl _) hlt hlt' hnone, ?_, ?_, ?_⟩
  · rw [size_appendChild]
    omega
  · rw [appendChild, parent?_insertBefore (by omega) hlt' (by omega), if_neg (by omega)]
    exact hroot.1
  · have hmem : t.size ∉ (t''.appendChild t.size t'.size).children t.size := by
      intro hmem
      rw [children_appendChild_of_detached (by omega) hlt' (by omega) hnone, if_pos rfl, List.mem_append,
        List.mem_singleton] at hmem
      rcases hmem with hmem | heq
      · exact Nat.lt_irrefl _ (hadds.children t.size t.size (Nat.le_refl _) hmem)
      · omega
    rw [appendChild_of_detached (by omega) hlt' (by omega) hnone] at hmem ⊢
    rw [children_relink] at hmem
    rw [siblings_relink_of_not_mem hmem, siblings_modify_of _ (by exact fun _ => ⟨rfl, rfl⟩),
      siblings_modify_of _ (by exact fun _ => ⟨rfl, rfl⟩)]
    exact hroot.2

/-- **Copying adds a copy and changes no other node**, whatever is copied; a node that does not exist adds nothing. -/
theorem importTo_cases (source : Tree) (depth : Nat) (t : Tree) (id : Nat) :
    importTo source depth t id = (t, none) ∨
      ∃ t', importTo source depth t id = (t', some t.size) ∧ Copies t t' := by
  induction depth generalizing t id with
  | zero => exact .inl rfl
  | succ depth ih =>
    cases hn : source.get? id with
    | none => exact .inl (importTo_of_none hn (depth + 1) t)
    | some n =>
      right
      rw [importTo_of_some hn]
      refine ⟨_, rfl, ?_⟩
      have halloc : Copies t (t.alloc (copiedKind n.kind)).1 := copies_alloc t (isCopied_copiedKind n.kind)
      have hcontents : Copies t (importContents source depth t.size (source.contents? id)
          (t.alloc (copiedKind n.kind)).1) := by
        unfold importContents
        split
        · exact halloc
        · rename_i contents _
          rcases ih (t.alloc (copiedKind n.kind)).1 contents with heq | ⟨t', heq, h'⟩
          · rw [heq]
            exact copies_contents halloc none
          · rw [heq]
            exact copies_contents (halloc.trans h'.toAdds) _
      -- each child is copied behind what is there and linked to the copy
      refine List.foldlRecOn n.children _ hcontents fun t' h' child _ => ?_
      unfold importChild
      rcases ih t' child with heq | ⟨t'', heq, h''⟩
      · rw [heq]
        exact h'
      · rw [heq]
        exact copies_child h' h''

end LiveMarkup.Tree
