/-
Circles of links.

A node may be put under itself: an insertion only asks that the node is not the new parent. What an operation does to
the links upward is said once for all (`above_apply`, `above_of_makes`): links that it makes, and no others. A circle is
closed exactly when one of these leads back to where it starts (`acyclic_apply_iff`), and by induction a run closes none
exactly when no operation of it does. So it is an insertion under a node's own descendant that makes the walks endless,
and in the composed tree also a host that is set, or comes to the fore again, below the fragment. Main result:
`circles_iff`.
-/
import LiveMarkup.Proofs.Dom.Additions
import LiveMarkup.Proofs.Dom.Operations
import LiveMarkup.Proofs.Dom.Walks

set_option autoImplicit false

namespace LiveMarkup

/-- New links close a circle only if one of them leads back. -/
theorem acyclic_of_new {link link' : Nat → Option Nat} (New : Nat → Nat → Prop) (h : Acyclic link)
    (hlinks : ∀ a b, link' a = some b → link a = some b ∨ New a b) (hnew : ∀ a b, New a b → ¬ Leads link' b a) :
    Acyclic link' := by
  intro a b hab hback
  -- on a circle through `a` all links are old
  have hold : ∀ x, Leads link' x a → Leads link' a x → Leads link x a := by
    intro x hxa
    induction hxa using Relation.ReflTransGen.head_induction_on with
    | refl => exact fun _ => Leads.refl link a
    | @head x z hxz hza ih =>
      intro hax
      rcases hlinks x z hxz with hlink | hlink
      · exact Leads.head hlink (ih (hax.tail hxz))
      · exact absurd (Leads.trans hza hax) (hnew x z hlink)
  rcases hlinks a b hab with hlink | hlink
  · exact h a b hlink (hold b hback (Leads.head hab (Leads.refl _ b)))
  · exact hnew a b hlink hback

/-- Where a walk stops at the latest depends on the links before only. -/
theorem leads_of_ne {link link' : Nat → Option Nat} {a c : Nat} (heq : ∀ i, i ≠ c → link i = link' i)
    (h : Leads link a c) : Leads link' a c := by
  induction h using Relation.ReflTransGen.head_induction_on with
  | refl => exact Leads.refl link' c
  | @head x z hxz _ ih =>
    by_cases hxc : x = c
    · rw [hxc]
      exact Leads.refl link' c
    · rw [heq x hxc] at hxz
      exact Leads.head hxz ih

namespace Tree

variable {t t' : Tree} {composed : Bool} {a b c p q : Nat}

/-! ## The way up -/

/-- The element that a fragment belongs to in the composed tree. -/
def host? (t : Tree) (id : Nat) : Option Nat :=
  match t.kind? id with
  | some (.fragment host) => host
  | _ => none

/-- Where a walk up goes on: at the parent, and in the composed tree else at the host. -/
def above (t : Tree) (composed : Bool) (id : Nat) : Option Nat :=
  (t.parent? id).or (if composed then t.host? id else none)

theorem above_false (t : Tree) : t.above false = t.parent? := by
  funext id
  simp [above]

theorem above_true (t : Tree) : t.above true = t.composedParent? := by
  funext id
  rw [above, if_pos rfl, host?, kind?, parent?, composedParent?]
  cases t.get? id with
  | none => rfl
  | some n =>
    obtain ⟨kind, parent, _, _, _⟩ := n
    cases parent <;> cases kind <;> rfl

theorem above_of_parent (h : t.parent? c = some p) : t.above composed c = some p := by
  simp [above, h]

/-- Who has a parent goes on there, also in the composed tree. -/
theorem acyclic_parent (h : Acyclic (t.above composed)) : Acyclic t.parent? :=
  h.mono fun _ _ hab => above_of_parent hab

theorem lt_size_of_above (h : t.above composed a = some b) : a < t.size := by
  by_contra hlt
  simp [above, parent?, host?, kind?, get?_of_le (Nat.not_lt.1 hlt)] at h

theorem above_congr (hparent : t'.parent? a = t.parent? a) (hkind : t'.kind? a = t.kind? a) :
    t'.above composed a = t.above composed a := by
  rw [above, above, host?, host?, hparent, hkind]

/-- Who loses the parent goes on at the host. -/
theorem above_of_kind (hparent : t'.parent? a = none) (hkind : t'.kind? a = t.kind? a) :
    t'.above composed a = if composed then t.host? a else none := by
  rw [above, host?, host?, hparent, hkind, Option.none_or]

/-! ## What operations do to it -/

/-- A link upward that an operation makes. Copies are linked to one another only. -/
def Makes (t : Tree) (composed : Bool) (c q : Nat) : Operation → Prop
  | .create kind => composed ∧ c = t.size ∧ kind = .fragment (some q)
  | .append parent child => parent < t.size ∧ child < t.size ∧ parent ≠ child ∧ c = child ∧ q = parent
  | .insert parent child _ => parent < t.size ∧ child < t.size ∧ parent ≠ child ∧ c = child ∧ q = parent
  | .remove parent child => composed ∧ t.parent? child = some parent ∧ c = child ∧ t.host? child = some q
  | .detach id => composed ∧ t.parent? id ≠ none ∧ c = id ∧ t.host? id = some q
  | .clear parent => composed ∧ c ∈ t.children parent ∧ t.host? c = some q
  | .attachShadow host => composed ∧ (∃ e, t.element? host = some e ∧ e.shadow = none) ∧ c = t.size ∧ q = host
  | .importFrom _ _ => False

/-- An operation closes a circle: a link that it makes leads back to where it starts. -/
def Closes (t : Tree) (composed : Bool) (op : Operation) : Prop :=
  ∃ c q, t.Makes composed c q op ∧ Leads ((t.apply op).above composed) q c

theorem above_alloc_of_ne (kind : Kind) (h : a ≠ t.size) :
    (t.alloc kind).1.above composed a = t.above composed a := by
  have hget := get?_alloc_of_ne kind h
  exact above_congr (parent?_of_get? hget) (kind?_of_get? hget)

theorem above_alloc_self (t : Tree) (kind : Kind) :
    (t.alloc kind).1.above composed t.size =
      if composed then (match kind with | .fragment host => host | _ => none) else none := by
  rw [above, parent?, host?, kind?, get?_alloc_self]
  cases kind <;> rfl

theorem above_insertBefore (hp : p < t.size) (hc : c < t.size) (hne : p ≠ c) (reference : Option Nat) :
    (t.insertBefore p c reference).above composed a = if a = c then some p else t.above composed a := by
  have hparent := parent?_insertBefore hp hc hne reference a
  by_cases hac : a = c
  · rw [if_pos hac] at hparent ⊢
    exact above_of_parent hparent
  · rw [if_neg hac] at hparent ⊢
    exact above_congr hparent (kind?_insertBefore t p c reference a)

theorem above_detach (t : Tree) (id a : Nat) : (t.detach id).above composed a =
    if a = id then (if composed then t.host? id else none) else t.above composed a := by
  have hparent := parent?_detach t id a
  by_cases ha : a = id
  · rw [if_pos ha] at hparent ⊢
    rw [above_of_kind hparent (kind?_detach t id a), ha]
  · rw [if_neg ha] at hparent ⊢
    exact above_congr hparent (kind?_detach t id a)

theorem above_clearChildren (t : Tree) (p a : Nat) : (t.clearChildren p).above composed a =
    if a ∈ t.children p then (if composed then t.host? a else none) else t.above composed a := by
  have hparent := parent?_clearChildren t p a
  by_cases ha : a ∈ t.children p
  · rw [if_pos ha] at hparent ⊢
    exact above_of_kind hparent (kind?_clearChildren t p a)
  · rw [if_neg ha] at hparent ⊢
    exact above_congr hparent (kind?_clearChildren t p a)

/-- An element that is changed stays an element. -/
theorem host?_modifyElement (t : Tree) (id a : Nat) (f : Element → Element) :
    (t.modifyElement id f).host? a = t.host? a := by
  rw [host?, host?, kind?, kind?, modifyElement, get?_modify]
  by_cases h : id = a
  · rw [if_pos h]
    cases t.get? a with
    | none => rfl
    | some n =>
      obtain ⟨kind, _, _, _, _⟩ := n
      cases kind <;> rfl
  · rw [if_neg h]

theorem above_modifyElement (t : Tree) (id a : Nat) (f : Element → Element) :
    (t.modifyElement id f).above composed a = t.above composed a := by
  rw [above, above, parent?_modifyElement, host?_modifyElement]

/-- A link upward after a node was taken out. -/
theorem above_detach_cases {id : Nat} (h : (t.detach id).above composed a = some b) :
    t.above composed a = some b ∨ t.Makes composed a b (.detach id) := by
  by_cases hnone : t.parent? id = none
  · rw [detach_of_none hnone] at h
    exact .inl h
  · rw [above_detach] at h
    by_cases ha : a = id
    · rw [if_pos ha] at h
      exact .inr (by cases composed <;> simp_all [Makes])
    · rw [if_neg ha] at h
      exact .inl h

/-- A link upward after a node was put somewhere. -/
theorem above_insert_cases {reference : Option Nat}
    (h : (t.insertBefore p c reference).above composed a = some b) :
    t.above composed a = some b ∨ t.Makes composed a b (.insert p c reference) := by
  by_cases hvalid : p < t.size ∧ c < t.size ∧ p ≠ c
  · obtain ⟨hp, hc, hne⟩ := hvalid
    rw [above_insertBefore hp hc hne] at h
    by_cases ha : a = c
    · rw [if_pos ha] at h
      exact .inr ⟨hp, hc, hne, ha, (Option.some.inj h).symm⟩
    · rw [if_neg ha] at h
      exact .inl h
  · rw [insertBefore_of_not hvalid] at h
    exact .inl h

/-- Every link upward that an operation leaves was there, or the operation makes it. Copies are taken apart. -/
theorem above_apply {op : Operation} (hop : ∀ source id, op ≠ .importFrom source id)
    (h : (t.apply op).above composed a = some b) : t.above composed a = some b ∨ t.Makes composed a b op := by
  cases op with
  | create kind =>
    by_cases ha : a = t.size
    · subst ha
      rw [apply, above_alloc_self] at h
      exact .inr (by cases composed <;> cases kind <;> simp_all [Makes])
    · rw [apply, above_alloc_of_ne kind ha] at h
      exact .inl h
  | append parent child => exact above_insert_cases h
  | insert parent child reference => exact above_insert_cases h
  | remove parent child =>
    rw [apply, removeChild] at h
    by_cases hp : t.parent? child = some parent
    · rw [if_pos hp] at h
      rcases above_detach_cases h with h | h
      · exact .inl h
      · obtain ⟨hcomposed, -, ha, hhost⟩ := h
        exact .inr ⟨hcomposed, hp, ha, hhost⟩
    · rw [if_neg hp] at h
      exact .inl h
  | detach id => exact above_detach_cases h
  | clear parent =>
    rw [apply, above_clearChildren] at h
    by_cases ha : a ∈ t.children parent
    · rw [if_pos ha] at h
      exact .inr (by cases composed <;> simp_all [Makes])
    · rw [if_neg ha] at h
      exact .inl h
  | attachShadow host =>
    rw [apply] at h
    by_cases hnew : ∃ e, t.element? host = some e ∧ e.shadow = none
    · obtain ⟨e, he, hshadow⟩ := hnew
      rw [attachShadow_of_new he hshadow, above_modifyElement] at h
      by_cases ha : a = t.size
      · subst ha
        rw [above_alloc_self] at h
        exact .inr (by cases composed <;> simp_all [Makes])
      · rw [above_alloc_of_ne _ ha] at h
        exact .inl h
    · rw [attachShadow_of_not hnew] at h
      exact .inl h
  | importFrom source id => exact absurd rfl (hop source id)

/-- The links that an operation makes are there after it. -/
theorem above_of_makes {op : Operation} (h : t.Makes composed c q op) :
    (t.apply op).above composed c = some q := by
  cases op with
  | create kind =>
    obtain ⟨rfl, rfl, rfl⟩ := h
    rw [apply, above_alloc_self]
    rfl
  | append parent child =>
    obtain ⟨hp, hc, hne, rfl, rfl⟩ := h
    rw [apply, appendChild, above_insertBefore hp hc hne, if_pos rfl]
  | insert parent child reference =>
    obtain ⟨hp, hc, hne, rfl, rfl⟩ := h
    rw [apply, above_insertBefore hp hc hne, if_pos rfl]
  | remove parent child =>
    obtain ⟨rfl, hp, rfl, hhost⟩ := h
    rw [apply, removeChild, if_pos hp, above_detach, if_pos rfl, if_pos rfl, hhost]
  | detach id =>
    obtain ⟨rfl, -, rfl, hhost⟩ := h
    rw [apply, above_detach, if_pos rfl, if_pos rfl, hhost]
  | clear parent =>
    obtain ⟨rfl, hmem, hhost⟩ := h
    rw [apply, above_clearChildren, if_pos hmem, if_pos rfl, hhost]
  | attachShadow host =>
    obtain ⟨rfl, ⟨e, he, hshadow⟩, rfl, rfl⟩ := h
    rw [apply, attachShadow_of_new he hshadow, above_modifyElement, above_alloc_self]
    rfl
  | importFrom source id => exact h.elim

/-! ## Circles that are closed -/

/-- Links of added nodes lead to added nodes before them. -/
theorem Adds.above {base : Nat} (h : Adds base t t') (ha : base ≤ a) (hab : t'.above composed a = some b) :
    base ≤ b ∧ b < a := by
  have hhost : t'.host? a = none := by
    rw [host?, kind?]
    cases hn : t'.get? a with
    | none => rfl
    | some n =>
      have hcopied := h.copied a n ha hn
      cases hkind : n.kind <;> simp_all [IsCopied]
  have hparent : t'.parent? a = some b := by
    cases composed <;> simpa [Tree.above, hhost] using hab
  exact h.parent a b ha hparent

/-- **Adding nodes that are linked to one another only closes no circle.** -/
theorem Adds.acyclic (h : Adds t.size t t') (hacyclic : Acyclic (t.above composed)) :
    Acyclic (t'.above composed) := by
  have hold : ∀ i, i < t.size → t'.above composed i = t.above composed i := fun i hi => by
    have hget := h.old i hi
    exact above_congr (parent?_of_get? hget) (kind?_of_get? hget)
  -- from an added node on, the places only fall
  have hfall : ∀ a b, t.size ≤ a → Leads (t'.above composed) a b → t.size ≤ b ∧ b ≤ a := by
    intro a b ha hab
    induction hab with
    | refl => omega
    | @tail x y _ hxy ih =>
      have hbound := h.above ih.1 hxy
      omega
  refine acyclic_of_new (fun a b => t.size ≤ a ∧ t'.above composed a = some b) hacyclic ?_ ?_
  · intro a b hab
    by_cases ha : a < t.size
    · rw [hold a ha] at hab
      exact .inl hab
    · exact .inr ⟨by omega, hab⟩
  · rintro a b ⟨ha, hab⟩ hback
    have hbound := h.above ha hab
    have hbound' := hfall b a hbound.1 hback
    omega

theorem acyclic_importSubtree (source : Tree) (id : Nat) (h : Acyclic (t.above composed)) :
    Acyclic ((t.importSubtree source id).1.above composed) := by
  rcases importTo_cases source source.size t id with heq | ⟨t', heq, hcopies⟩
  · rwa [importSubtree, heq]
  · rw [importSubtree, heq]
    exact hcopies.toAdds.acyclic h

/-- **An operation closes a circle exactly when a link that it makes leads back.** -/
theorem acyclic_apply_iff (h : Acyclic (t.above composed)) (op : Operation) :
    Acyclic ((t.apply op).above composed) ↔ ¬ t.Closes composed op := by
  constructor
  · rintro hacyclic ⟨c, q, hmakes, hback⟩
    exact hacyclic c q (above_of_makes hmakes) hback
  · intro hcloses
    by_cases hop : ∃ source id, op = .importFrom source id
    · obtain ⟨source, id, rfl⟩ := hop
      exact acyclic_importSubtree source id h
    · have hop : ∀ source id, op ≠ .importFrom source id := fun source id heq => hop ⟨source, id, heq⟩
      refine acyclic_of_new (fun a b => t.Makes composed a b op) h ?_ ?_
      · exact fun a b hab => above_apply hop hab
      · exact fun a b hmakes hback => hcloses ⟨a, b, hmakes, hback⟩

theorem acyclic_empty (composed : Bool) : Acyclic (Tree.empty.above composed) := by
  intro a b hab
  have hnone : Tree.empty.above composed a = none := by
    cases a with
    | zero => cases composed <;> rfl
    | succ a => cases composed <;> rfl
  rw [hnone] at hab
  cases hab

/-- **An insertion closes a circle exactly when the node stands on the way up from its new parent.** -/
theorem closes_insert_iff (h : Acyclic (t.above composed)) (reference : Option Nat) :
    t.Closes composed (.insert p c reference) ↔
      p < t.size ∧ c < t.size ∧ p ≠ c ∧ c ∈ follow (t.above composed) (t.size + 1) (some p) := by
  have hend := fun k => length_follow_le h (fun _ _ => lt_size_of_above) k (some p)
  rw [mem_follow_iff hend]
  constructor
  · rintro ⟨_, _, ⟨hp, hc, hne, rfl, rfl⟩, hback⟩
    refine ⟨hp, hc, hne, leads_of_ne ?_ hback⟩
    intro i hi
    rw [apply, above_insertBefore hp hc hne, if_neg hi]
  · rintro ⟨hp, hc, hne, hleads⟩
    refine ⟨c, p, ⟨hp, hc, hne, rfl, rfl⟩, leads_of_ne ?_ hleads⟩
    intro i hi
    rw [apply, above_insertBefore hp hc hne, if_neg hi]

/-- An insertion puts a node under one of its own descendants. -/
def PutsUnderItself (t : Tree) : Operation → Prop
  | .append parent child =>
    parent < t.size ∧ child < t.size ∧ parent ≠ child ∧ t.isDescendantOf parent child = true
  | .insert parent child _ =>
    parent < t.size ∧ child < t.size ∧ parent ≠ child ∧ t.isDescendantOf parent child = true
  | _ => False

/-- **Only a node that is put under itself closes a circle of parents.** -/
theorem closes_iff_putsUnderItself (h : Acyclic t.parent?) (op : Operation) :
    t.Closes false op ↔ t.PutsUnderItself op := by
  have hinsert (p c : Nat) (reference : Option Nat) :
      t.Closes false (.insert p c reference) ↔ t.PutsUnderItself (.insert p c reference) := by
    have hfollow : follow t.parent? (t.size + 1) (some p) = p :: t.ancestors p := rfl
    have habove : Acyclic (t.above false) := by rwa [above_false]
    rw [closes_insert_iff habove, above_false, hfollow, PutsUnderItself, isDescendantOf, List.contains_iff_mem,
      List.mem_cons]
    constructor
    · rintro ⟨hp, hc, hne, heq | hmem⟩
      · exact absurd heq.symm hne
      · exact ⟨hp, hc, hne, hmem⟩
    · rintro ⟨hp, hc, hne, hmem⟩
      exact ⟨hp, hc, hne, .inr hmem⟩
  cases op with
  | append parent child => exact hinsert parent child none
  | insert parent child reference => exact hinsert parent child reference
  | _ => simp [Closes, Makes, PutsUnderItself]

/-- When one operation after the other closes no circle, a run closes none. -/
theorem acyclic_run_iff (composed : Bool) {Bad : Tree → Operation → Prop}
    (hstep : ∀ t op, Acyclic (t.above composed) → (Acyclic ((t.apply op).above composed) ↔ ¬ Bad t op))
    (ops : List Operation) : (∀ done, done <+: ops → Acyclic ((Tree.empty.after done).above composed)) ↔
      ∀ done op, done ++ [op] <+: ops → ¬ Bad (Tree.empty.after done) op := by
  refine forall_prefix_iff (acyclic_empty composed) (fun done op h => ?_) ops
  rw [after_append]
  exact hstep _ op h

/-! ## Walks through a tree -/

/-- The ways up end exactly when no node is above itself. -/
theorem ends_ancestors_iff (t : Tree) : (∀ id, Ends fun k => t.ancestorsUpTo k id) ↔ Acyclic t.parent? := by
  constructor
  · intro h a b hab hback
    obtain ⟨k, (hk : (t.ancestorsUpTo k a).length < k)⟩ := h a
    obtain ⟨d, hbd, hdb⟩ := circle_next hab hback
    rw [ancestorsUpTo, hab, length_follow_of_circle hbd hdb] at hk
    exact Nat.lt_irrefl k hk
  · intro h id
    have hle := length_follow_le h (fun _ _ => lt_size_of_parent) (t.size + 2) (t.parent? id)
    exact ⟨t.size + 2, Nat.lt_succ_of_le hle⟩

theorem ends_composedPath_iff (t : Tree) :
    (∀ id, Ends fun k => t.composedPathUpTo k id) ↔ Acyclic t.composedParent? := by
  rw [← above_true]
  constructor
  · intro h a b hab hback
    obtain ⟨k, (hk : (t.composedPathUpTo k a).length < k)⟩ := h a
    rw [composedPathUpTo, ← above_true, length_follow_of_circle hab hback] at hk
    exact Nat.lt_irrefl k hk
  · intro h id
    have hle := length_follow_le h (fun _ _ => lt_size_of_above) (t.size + 2) (some id)
    rw [above_true] at hle
    exact ⟨t.size + 2, Nat.lt_succ_of_le hle⟩

/-- The ways down end exactly when no node is above itself. -/
theorem ends_descendants_iff (hlinked : t.Linked) :
    (∀ id, Ends fun k => t.descendantsUpTo k id) ↔ Acyclic t.parent? := by
  constructor
  · intro h a b hab hback
    obtain ⟨k, (hk : (t.descendantsUpTo k b).length < k)⟩ := h b
    rw [descendantsUpTo, length_visit_of_circle hlinked k ((hlinked.parent_iff b a).1 hab) hab hback] at hk
    exact Nat.lt_irrefl k hk
  · intro h id
    have hle := length_visit_le hlinked h (t.size + 1) id
    exact ⟨t.size + 1, Nat.lt_succ_of_le hle⟩

/-- **When no node is its own ancestor.** All along a run of operations with any places, the parents form no circle, and
the walks to the ancestors and descendants of every node end, exactly when no insertion puts a node under one of its own
descendants; and the walks through the composed tree end as well exactly when no operation makes a link, to a parent or
to a host, that leads back to where it starts. -/
theorem circles_iff (ops : List Operation) :
    ((∀ done, done <+: ops → Acyclic (Tree.empty.after done).parent?) ↔
        ∀ done op, done ++ [op] <+: ops → ¬ (Tree.empty.after done).PutsUnderItself op) ∧
      ((∀ done, done <+: ops → ∀ id, (Ends fun k => (Tree.empty.after done).ancestorsUpTo k id) ∧
          Ends fun k => (Tree.empty.after done).descendantsUpTo k id) ↔
        ∀ done op, done ++ [op] <+: ops → ¬ (Tree.empty.after done).PutsUnderItself op) ∧
      ((∀ done, done <+: ops → ∀ id, (Ends fun k => (Tree.empty.after done).ancestorsUpTo k id) ∧
          (Ends fun k => (Tree.empty.after done).composedPathUpTo k id) ∧
          Ends fun k => (Tree.empty.after done).descendantsUpTo k id) ↔
        ∀ done op, done ++ [op] <+: ops → ¬ (Tree.empty.after done).Closes true op) := by
  have hparents : (∀ done, done <+: ops → Acyclic (Tree.empty.after done).parent?) ↔
      ∀ done op, done ++ [op] <+: ops → ¬ (Tree.empty.after done).PutsUnderItself op := by
    rw [← acyclic_run_iff false fun t op h => ?_]
    · simp only [above_false]
    · rw [acyclic_apply_iff h, closes_iff_putsUnderItself (by rwa [above_false] at h)]
  have hcomposed := acyclic_run_iff true (fun t op h => acyclic_apply_iff h op) ops
  refine ⟨hparents, ?_, ?_⟩
  · rw [← hparents]
    refine forall₂_congr fun done _ => ?_
    rw [← ends_ancestors_iff]
    constructor
    · exact fun h id => (h id).1
    · intro h id
      exact ⟨h id, (ends_descendants_iff (linked_run done)).2 ((ends_ancestors_iff _).1 h) id⟩
  · rw [← hcomposed]
    refine forall₂_congr fun done _ => ?_
    rw [above_true, ← ends_composedPath_iff]
    constructor
    · exact fun h id => (h id).2.1
    · intro h id
      have habove : Acyclic ((Tree.empty.after done).above true) := by
        rw [above_true]
        exact (ends_composedPath_iff _).1 h
      have hacyclic := acyclic_parent habove
      exact ⟨(ends_ancestors_iff _).2 hacyclic id, h id, (ends_descendants_iff (linked_run done)).2 hacyclic id⟩

/-- Two elements, of which each is put under the other. -/
def circleOfTwo : List Operation :=
  [.create (.element (.ofName "a")), .create (.element (.ofName "b")), .append 1 2, .append 2 1]

/-- A node can become its own ancestor, and the walks from it do not end. -/
theorem exists_own_ancestor :
    ¬ Acyclic (Tree.empty.after circleOfTwo).parent? ∧ (Tree.empty.after circleOfTwo).isDescendantOf 1 1 = true ∧
      ∀ k, ((Tree.empty.after circleOfTwo).ancestorsUpTo k 1).length = k ∧
        ((Tree.empty.after circleOfTwo).composedPathUpTo k 1).length = k ∧
        ((Tree.empty.after circleOfTwo).descendantsUpTo k 1).length = k := by
  have hup : (Tree.empty.after circleOfTwo).parent? 1 = some 2 := by decide
  have hback : (Tree.empty.after circleOfTwo).parent? 2 = some 1 := by decide
  have hleads : Leads (Tree.empty.after circleOfTwo).parent? 2 1 := Leads.head hback (Leads.refl _ 1)
  refine ⟨fun h => h 1 2 hup hleads, by decide, ?_⟩
  intro k
  refine ⟨?_, ?_, ?_⟩
  · rw [ancestorsUpTo, hup]
    exact length_follow_of_circle hback (Leads.head hup (Leads.refl _ 2)) k
  · rw [composedPathUpTo, ← above_true]
    refine length_follow_of_circle (above_of_parent hup) ?_ k
    exact Leads.head (above_of_parent hback) (Leads.refl _ 1)
  · refine length_visit_of_circle (linked_run _) k (by decide) hback ?_
    exact Leads.head hup (Leads.refl _ 2)

end Tree

end LiveMarkup
