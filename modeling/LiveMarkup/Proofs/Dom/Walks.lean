/-
Walks that end.

A link leads from a node to at most one other: to its parent, or to its parent in the composed tree. When no link leads
back to where it starts, a walk along the links never comes to a node again, so it is no longer than the tree has nodes
(`length_follow_le`), and so is the walk down through the children (`length_visit_le`), where no pending node ever
stands above another. A link that leads back keeps a walk from ending (`length_follow_of_circle`,
`length_visit_of_circle`).
-/
import LiveMarkup.Dom.Walk
import LiveMarkup.Proofs.Dom.Links
import Mathlib.Data.List.Perm.Subperm
import Mathlib.Logic.Relation

set_option autoImplicit false

namespace LiveMarkup

/-! ## Links that lead on -/

/-- Following links leads from a node to another, or it is that node. -/
def Leads (link : Nat → Option Nat) : Nat → Nat → Prop := Relation.ReflTransGen fun a b => link a = some b

/-- No link leads back to where it starts: no node is its own ancestor. -/
def Acyclic (link : Nat → Option Nat) : Prop := ∀ a b, link a = some b → ¬ Leads link b a

variable {link link' : Nat → Option Nat} {a b c : Nat}

theorem Leads.refl (link : Nat → Option Nat) (a : Nat) : Leads link a a := Relation.ReflTransGen.refl

theorem Leads.trans (hab : Leads link a b) (hbc : Leads link b c) : Leads link a c :=
  Relation.ReflTransGen.trans hab hbc

theorem Leads.head (hab : link a = some b) (hbc : Leads link b c) : Leads link a c :=
  Relation.ReflTransGen.head hab hbc

theorem Leads.tail (hab : Leads link a b) (hbc : link b = some c) : Leads link a c :=
  Relation.ReflTransGen.tail hab hbc

theorem Leads.mono (hsub : ∀ a b, link a = some b → link' a = some b) (h : Leads link a b) : Leads link' a b :=
  Relation.ReflTransGen.mono hsub _ _ h

theorem Acyclic.mono (h : Acyclic link') (hsub : ∀ a b, link a = some b → link' a = some b) : Acyclic link :=
  fun a b hab hback => h a b (hsub a b hab) (hback.mono hsub)

/-- Links lead to one end. -/
theorem Leads.unique (hab : Leads link a b) (hac : Leads link a c) (hb : link b = none) (hc : link c = none) : b = c := by
  induction hab using Relation.ReflTransGen.head_induction_on with
  | refl =>
    rcases Relation.ReflTransGen.cases_head hac with heq | ⟨d, hbd, -⟩
    · exact heq
    · rw [hb] at hbd
      cases hbd
  | @head a d had _ ih =>
    rcases Relation.ReflTransGen.cases_head hac with heq | ⟨e, hae, hec⟩
    · rw [heq, hc] at had
      cases had
    · rw [had] at hae
      exact ih (Option.some.inj hae ▸ hec)

/-- The next node on a circle is on it too. -/
theorem circle_next (hab : link a = some b) (hback : Leads link b a) :
    ∃ d, link b = some d ∧ Leads link d b := by
  rcases Relation.ReflTransGen.cases_head hback with heq | ⟨d, hbd, hda⟩
  · subst heq
    exact ⟨b, hab, Leads.refl link b⟩
  · exact ⟨d, hbd, Leads.tail hda hab⟩

/-- A walk that gives fewer nodes than it may has come to its end. -/
def Ends (walk : Nat → List Nat) : Prop := ∃ limit, (walk limit).length < limit

namespace Tree

/-! ## Walks along links -/

@[simp] theorem follow_none (k : Nat) : follow link k none = [] := by
  cases k <;> rfl

theorem leads_of_mem_follow {k : Nat} (h : b ∈ follow link k (some a)) : Leads link a b := by
  induction k generalizing a with
  | zero => simp [follow] at h
  | succ k ih =>
    rw [follow, List.mem_cons] at h
    rcases h with heq | hmem
    · rw [heq]
      exact Leads.refl link a
    · cases hlink : link a with
      | none => simp [hlink] at hmem
      | some d =>
        rw [hlink] at hmem
        exact Leads.head hlink (ih hmem)

/-- A walk along links that never lead back meets no node twice. -/
theorem nodup_follow (h : Acyclic link) (k : Nat) (start : Option Nat) : (follow link k start).Nodup := by
  induction k generalizing start with
  | zero => simp [follow]
  | succ k ih =>
    cases start with
    | none => simp
    | some a =>
      rw [follow, List.nodup_cons]
      refine ⟨?_, ih _⟩
      intro hmem
      cases hlink : link a with
      | none => simp [hlink] at hmem
      | some b =>
        rw [hlink] at hmem
        exact h a b hlink (leads_of_mem_follow hmem)

/-- A node of a walk that is not its last has a link. -/
theorem link_of_mem_dropLast {k : Nat} {start : Option Nat} (h : a ∈ (follow link k start).dropLast) :
    ∃ b, link a = some b := by
  induction k generalizing start with
  | zero => simp [follow] at h
  | succ k ih =>
    cases start with
    | none => simp at h
    | some s =>
      rw [follow] at h
      cases hlink : link s with
      | none => simp [hlink] at h
      | some d =>
        rw [hlink] at h
        cases hrest : follow link k (some d) with
        | nil => simp [hrest] at h
        | cons x rest =>
          rw [hrest, List.dropLast_cons_cons, List.mem_cons] at h
          rcases h with heq | hmem
          · exact ⟨d, by rw [heq, hlink]⟩
          · exact ih (by rwa [hrest])

theorem length_le_of_nodup {ids : List Nat} {n : Nat} (hnodup : ids.Nodup) (hlt : ∀ i ∈ ids, i < n) :
    ids.length ≤ n := by
  have hsub : ids ⊆ List.range n := fun i hi => List.mem_range.2 (hlt i hi)
  have hle := (List.subperm_of_subset hnodup hsub).length_le
  rwa [List.length_range] at hle

/-- **A walk along links that never lead back ends.** Only its last node may be no node of the tree. -/
theorem length_follow_le {n : Nat} (h : Acyclic link) (hlt : ∀ a b, link a = some b → a < n) (k : Nat)
    (start : Option Nat) : (follow link k start).length ≤ n + 1 := by
  have hdrop : (follow link k start).dropLast.length ≤ n := by
    refine length_le_of_nodup ((nodup_follow h k start).sublist (List.dropLast_sublist _)) ?_
    intro a ha
    obtain ⟨b, hb⟩ := link_of_mem_dropLast ha
    exact hlt a b hb
  rw [List.length_dropLast] at hdrop
  omega

/-- **A walk that comes to a circle never ends.** -/
theorem length_follow_of_circle (hab : link a = some b) (hback : Leads link b a) (k : Nat) :
    (follow link k (some a)).length = k := by
  induction k generalizing a b with
  | zero => rfl
  | succ k ih =>
    obtain ⟨d, hbd, hdb⟩ := circle_next hab hback
    rw [follow, hab, List.length_cons, ih hbd hdb]

theorem follow_take (link : Nat → Option Nat) (k m : Nat) (start : Option Nat) :
    (follow link (k + m) start).take k = follow link k start := by
  induction k generalizing start with
  | zero => simp [follow]
  | succ k ih =>
    cases start with
    | none => simp
    | some a => rw [Nat.succ_add, follow, follow, List.take_succ_cons, ih]

/-- A walk that is allowed more nodes than it needs lists all nodes that it leads to. -/
theorem mem_follow_iff {n : Nat} (hend : ∀ k, (follow link k (some a)).length ≤ n) :
    b ∈ follow link n (some a) ↔ Leads link a b := by
  constructor
  · exact leads_of_mem_follow
  · intro h
    -- a node that is led to stands somewhere in the walk, if that may be as long as it takes
    have hmem : ∃ k, b ∈ follow link k (some a) := by
      clear hend
      induction h using Relation.ReflTransGen.head_induction_on with
      | refl => exact ⟨1, by simp [follow]⟩
      | head hac _ ih =>
        obtain ⟨k, hk⟩ := ih
        exact ⟨k + 1, by rw [follow, hac]; exact List.mem_cons_of_mem _ hk⟩
    obtain ⟨k, hk⟩ := hmem
    have hlong : b ∈ follow link (n + k) (some a) := by
      rw [← follow_take link k n, Nat.add_comm] at hk
      exact List.mem_of_mem_take hk
    rw [← follow_take link n k, List.take_of_length_le (hend _)]
    exact hlong

/-! ## The walk down -/

variable {t : Tree}

/-- No node of a list stands above another. -/
def Apart (t : Tree) (pending : List Nat) : Prop :=
  pending.Nodup ∧ ∀ a ∈ pending, ∀ b ∈ pending, a ≠ b → ¬ Leads t.parent? a b

/-- The children of a node take its place in a list of nodes that stand apart. -/
theorem apart_children (h : t.Linked) (hacyclic : Acyclic t.parent?) {id : Nat} {pending : List Nat}
    (hapart : t.Apart (id :: pending)) : t.Apart (t.children id ++ pending) := by
  obtain ⟨hnodup, habove⟩ := hapart
  have hup : ∀ c ∈ t.children id, t.parent? c = some id := fun c hc => (h.parent_iff id c).2 hc
  have hne : ∀ q ∈ pending, id ≠ q := by
    intro q hq heq
    subst heq
    exact (List.nodup_cons.1 hnodup).1 hq
  have hdown : ∀ q ∈ pending, ¬ Leads t.parent? id q := fun q hq =>
    habove id List.mem_cons_self q (List.mem_cons_of_mem _ hq) (hne q hq)
  have haway : ∀ q ∈ pending, ¬ Leads t.parent? q id := fun q hq =>
    habove q (List.mem_cons_of_mem _ hq) id List.mem_cons_self (Ne.symm (hne q hq))
  constructor
  · refine List.Nodup.append (h.nodup id) (List.nodup_cons.1 hnodup).2 ?_
    intro c hc hq
    exact haway c hq (Leads.head (hup c hc) (Leads.refl _ id))
  · intro a ha b hb hab hleads
    rcases List.mem_append.1 ha with ha | ha <;> rcases List.mem_append.1 hb with hb | hb
    · -- of two children one would be above its own parent
      rcases Relation.ReflTransGen.cases_head hleads with heq | ⟨d, had, hdb⟩
      · exact hab heq
      · rw [hup a ha] at had
        obtain rfl := Option.some.inj had
        exact hacyclic b id (hup b hb) hdb
    · rcases Relation.ReflTransGen.cases_head hleads with heq | ⟨d, had, hdb⟩
      · exact hab heq
      · rw [hup a ha] at had
        obtain rfl := Option.some.inj had
        exact hdown b hb hdb
    · exact haway a ha (hleads.tail (hup b hb))
    · exact habove a (List.mem_cons_of_mem _ ha) b (List.mem_cons_of_mem _ hb) hab hleads

theorem leads_of_mem_visit (h : t.Linked) {k : Nat} {pending : List Nat} (ha : a ∈ t.visit k pending) :
    ∃ q ∈ pending, Leads t.parent? a q := by
  induction k generalizing pending with
  | zero => simp [visit] at ha
  | succ k ih =>
    cases pending with
    | nil => simp [visit] at ha
    | cons id pending =>
      rw [visit, List.mem_cons] at ha
      rcases ha with heq | ha
      · exact ⟨id, List.mem_cons_self, by rw [heq]; exact Leads.refl _ id⟩
      · obtain ⟨q, hq, hleads⟩ := ih ha
        rcases List.mem_append.1 hq with hq | hq
        · exact ⟨id, List.mem_cons_self, hleads.tail ((h.parent_iff id q).2 hq)⟩
        · exact ⟨q, List.mem_cons_of_mem _ hq, hleads⟩

/-- The walk down meets no node twice. -/
theorem nodup_visit (h : t.Linked) (hacyclic : Acyclic t.parent?) (k : Nat) {pending : List Nat}
    (hapart : t.Apart pending) : (t.visit k pending).Nodup := by
  induction k generalizing pending with
  | zero => simp [visit]
  | succ k ih =>
    cases pending with
    | nil => simp [visit]
    | cons id pending =>
      rw [visit, List.nodup_cons]
      refine ⟨?_, ih (apart_children h hacyclic hapart)⟩
      intro hmem
      obtain ⟨q, hq, hleads⟩ := leads_of_mem_visit h hmem
      rcases List.mem_append.1 hq with hq | hq
      · exact hacyclic q id ((h.parent_iff id q).2 hq) hleads
      · refine hapart.2 id List.mem_cons_self q (List.mem_cons_of_mem _ hq) ?_ hleads
        intro heq
        subst heq
        exact (List.nodup_cons.1 hapart.1).1 hq

theorem apart_siblings (h : t.Linked) (hacyclic : Acyclic t.parent?) (id : Nat) : t.Apart (t.children id) := by
  have halone : t.Apart [id] := by
    refine ⟨List.nodup_singleton id, ?_⟩
    intro a ha b hb hab
    rw [List.mem_singleton.1 ha, List.mem_singleton.1 hb] at hab
    exact absurd rfl hab
  simpa using apart_children h hacyclic halone

/-- **The walk down ends** when no node is its own ancestor. -/
theorem length_visit_le (h : t.Linked) (hacyclic : Acyclic t.parent?) (k id : Nat) :
    (t.visit k (t.children id)).length ≤ t.size := by
  refine length_le_of_nodup (nodup_visit h hacyclic k (apart_siblings h hacyclic id)) ?_
  intro a ha
  obtain ⟨q, hq, hleads⟩ := leads_of_mem_visit h ha
  -- what is visited is a child itself, or it has a parent
  rcases Relation.ReflTransGen.cases_head hleads with heq | ⟨d, had, -⟩
  · rw [heq]
    exact lt_size_of_parent ((h.parent_iff id q).2 hq)
  · exact lt_size_of_parent had

/-- **The walk down never ends** when a pending node is its own ancestor. -/
theorem length_visit_of_circle (h : t.Linked) (k : Nat) {pending : List Nat} (ha : a ∈ pending)
    (hab : t.parent? a = some b) (hback : Leads t.parent? b a) : (t.visit k pending).length = k := by
  induction k generalizing pending a b with
  | zero => rfl
  | succ k ih =>
    cases pending with
    | nil => simp at ha
    | cons id pending =>
      rw [visit, List.length_cons]
      congr 1
      rcases List.mem_cons.1 ha with heq | ha
      · subst heq
        -- the child on the circle is pending next
        rcases Relation.ReflTransGen.cases_tail hback with heq | ⟨d, hbd, hda⟩
        · subst heq
          exact ih (List.mem_append_left _ ((h.parent_iff a a).1 hab)) hab hback
        · exact ih (List.mem_append_left _ ((h.parent_iff a d).1 hda)) hda (Leads.head hab hbd)
      · exact ih (List.mem_append_right _ ha) hab hback

end Tree

end LiveMarkup
