/-
What operations do to a tree that grows.

A node that is added, or a copy that is put somewhere, stands at the end of one list of children and changes no other
node (`Fills`); one after the other, the pictures of what was put there stand in that order (`Fills.trans`). Nothing
ever links to an earlier node that was not linked there before (`Later`), so a node that is no longer attached stays
so (`attached_of_later`).
-/
import LiveMarkup.Proofs.Dom.Pictures

set_option autoImplicit false

namespace LiveMarkup.Tree

open View

variable {t t' t'' source : Tree} {v : View} {ps qs : List View} {parent id a b i : Nat} {kind : Kind}

/-! ## Nothing comes back -/

/-- A tree changed so that no node holds a node of before that it did not hold. -/
structure Later (t t' : Tree) : Prop where
  size_le : t.size ≤ t'.size
  held : ∀ a b, b < t.size → b ∈ t'.held a → b ∈ t.held a

theorem Later.refl (t : Tree) : Later t t := ⟨Nat.le_refl _, fun _ _ _ h => h⟩

theorem Later.trans (h : Later t t') (h' : Later t' t'') : Later t t'' where
  size_le := Nat.le_trans h.size_le h'.size_le
  held a b hb hmem := h.held a b hb (h'.held a b (Nat.lt_of_lt_of_le hb h.size_le) hmem)

/-- A node can be reached from another through children, contents of templates and shadow trees. -/
def Reaches (t : Tree) : Nat → Nat → Prop := Relation.ReflTransGen fun a b => b ∈ t.held a

/-- A node stands under another. -/
def Within (t : Tree) : Nat → Nat → Prop := Relation.TransGen fun a b => b ∈ t.held a

/-- A node stands under another in one tree, not in the contents of a template or a shadow tree. -/
def Below (t : Tree) : Nat → Nat → Prop := Relation.TransGen fun a b => b ∈ t.children a

theorem within_of_below (h : t.Below a b) : t.Within a b :=
  Relation.TransGen.mono (fun _ _ hmem => mem_held_of_children hmem) _ _ h

/-- Descendants stand below. -/
theorem below_of_mem_descendants (hlinked : t.Linked) (h : b ∈ t.descendants a) : t.Below a b := by
  obtain ⟨c, hc, hleads⟩ := leads_of_mem_visit hlinked h
  clear h
  induction hleads using Relation.ReflTransGen.head_induction_on with
  | refl => exact .single hc
  | @head x y hxy _ ih => exact ih.tail ((hlinked.parent_iff y x).1 hxy)

/-- A node belongs to the document. -/
def Attached (t : Tree) (id : Nat) : Prop := t.Reaches Tree.root id

/-- **What is not attached stays so.** -/
theorem attached_of_later (h : Later t t') (hgrown : t'.Grown) (hid : id < t.size) (hattached : t'.Attached id) :
    t.Attached id := by
  unfold Attached Reaches at hattached
  induction hattached with
  | refl => exact .refl
  | @tail a b _ hab ih =>
    have hlt := (hgrown.later a b hab).1
    exact (ih (by omega)).tail (h.held a b hid hab)

/-! ## Adding at the end -/

/-- A tree with something put at the end of the children of one node, shown by pictures. All new nodes could be copies. -/
structure Fills (t : Tree) (parent : Nat) (ps : List View) (t' : Tree) : Prop where
  grown : t'.Grown
  size_le : t.size ≤ t'.size
  kind : ∀ i < t.size, t'.kind? i = t.kind? i
  children : ∀ i < t.size, i ≠ parent → t'.children i = t.children i
  added : ∃ new, t'.children parent = t.children parent ++ new ∧ (∀ c ∈ new, t.size ≤ c) ∧ new.map t'.picture = ps
  copied : ∀ i kind, t.size ≤ i → t'.kind? i = some kind → IsCopied kind

theorem Fills.refl (h : t.Grown) (parent : Nat) : Fills t parent [] t :=
  ⟨h, Nat.le_refl _, fun _ _ => rfl, fun _ _ _ => rfl, ⟨[], by simp⟩, fun _ _ hi hkind =>
    absurd (lt_size_of_kind hkind) (Nat.not_lt.2 hi)⟩

theorem Fills.later (h : Fills t parent ps t') : Later t t' := by
  refine ⟨h.size_le, fun a b hb hmem => ?_⟩
  have hlt := (h.grown.later a b hmem).1
  by_cases ha : a = parent
  · obtain ⟨new, hchildren, hnew, -⟩ := h.added
    rw [held, h.kind a (by omega), List.mem_append] at hmem
    rw [held, List.mem_append]
    rcases hmem with hmem | hmem
    · rw [ha, hchildren, List.mem_append] at hmem
      rcases hmem with hmem | hmem
      · exact .inl (ha ▸ hmem)
      · have := hnew b hmem
        omega
    · exact .inr hmem
  · rwa [held_congr (h.kind a (by omega)) (h.children a (by omega) ha)] at hmem

/-- **What is put at the end after something else stands behind it.** -/
theorem Fills.trans (hparent : parent < t.size) (h : Fills t parent ps t') (h' : Fills t' parent qs t'') :
    Fills t parent (ps ++ qs) t'' := by
  obtain ⟨new, hchildren, hnew, hps⟩ := h.added
  obtain ⟨new', hchildren', hnew', hqs⟩ := h'.added
  have hsize := h.size_le
  refine ⟨h'.grown, Nat.le_trans hsize h'.size_le, fun i hi => ?_, fun i hi hne => ?_, ⟨new ++ new', ?_, ?_, ?_⟩,
    fun i kind hi hkind => ?_⟩
  · rw [h'.kind i (by omega), h.kind i hi]
  · rw [h'.children i (by omega) hne, h.children i hi hne]
  · rw [hchildren', hchildren, List.append_assoc]
  · intro c hc
    rcases List.mem_append.1 hc with hc | hc
    · exact hnew c hc
    · exact Nat.le_trans hsize (hnew' c hc)
  · rw [List.map_append, hqs, ← hps]
    congr 1
    -- what was put there first is behind the old nodes, and nothing there changes any more
    refine List.map_congr_left fun c hc => ?_
    have hlt := (h.grown.later parent c (mem_held_of_children (by rw [hchildren]; simp [hc]))).2
    refine picture_congr h.grown h'.grown (Nat.le_refl _) ?_ ?_ (hnew c hc) hlt
    · exact fun a b _ _ hb => (h.grown.later a b hb).2
    · exact fun i hi hi' => ⟨h'.kind i hi', h'.children i hi' (by omega)⟩
  · by_cases hold : i < t'.size
    · exact h.copied i kind hi (by rw [← h'.kind i hold, hkind])
    · exact h'.copied i kind (by omega) hkind

/-! ## Copies -/

/-- What a copied node holds stands behind it. -/
theorem CopiesView.held (h : CopiesView t v t') (hlinked : t'.Linked) (ha : t.size ≤ a) (hb : b ∈ t'.held a) :
    a < b ∧ b < t'.size := by
  rw [Tree.held, List.mem_append] at hb
  rcases hb with hb | hb
  · exact ⟨h.children a b ha hb, lt_size_of_parent ((hlinked.parent_iff a b).2 hb)⟩
  · cases hkind : t'.kind? a with
    | none => simp [hkind] at hb
    | some kind =>
      have hsize := lt_size_of_kind hkind
      have hplace : a ∈ (v.copyAt t.size).places := by
        have hle := h.size_eq
        rw [places_copyAt, List.mem_range'_1]
        omega
      obtain ⟨x, hx, rfl⟩ := List.mem_map.1 hplace
      have hagrees := (h.shows.part hx).agrees
      obtain ⟨n, hn, hnkind⟩ := Option.map_eq_some_iff.1 hagrees.kind
      have hcopied := h.copied x.id n ha hn
      rw [hagrees.kind] at hkind
      obtain rfl := Option.some.inj hkind
      rw [hagrees.kind, Option.map_some, Option.getD_some] at hb
      have hcontents : b ∈ x.contents.map View.id := by
        rw [← hagrees.contents]
        rw [hnkind] at hcopied
        cases hx : x.kind with
        | element e =>
          rw [hx] at hb hcopied
          rw [Kind.links, hcopied.2, Option.toList_none, List.append_nil] at hb
          exact hb
        | _ => simp [hx, Kind.links] at hb
      obtain ⟨u, hu, rfl⟩ := List.mem_map.1 hcontents
      have hufrom := (h.shows.part hx).of_mem_contents hu
      refine ⟨?_, lt_size_of_kind hufrom.agrees.kind⟩
      obtain ⟨w, -, place, rfl⟩ := exists_part hx
      rw [id_copyAt]
      cases w with
      | node id kind contents children =>
        have hrange := place_of_mem_copyAll (show u ∈ copyAll _ contents from hu)
          (List.mem_map_of_mem (mem_parts_self u))
        omega

theorem CopiesView.grown (h : CopiesView t v t') (hgrown : t.Grown) (hlinked : t'.Linked) : t'.Grown := by
  refine ⟨hlinked, fun a b hb => ?_⟩
  by_cases ha : a < t.size
  · have hget := h.old a ha
    rw [held_congr (kind?_of_get? hget) (children_of_get? hget)] at hb
    have hlt := hgrown.later a b hb
    have hsize := h.size_lt
    omega
  · exact h.held hlinked (by omega) hb

theorem size_insertBefore (t : Tree) (p c : Nat) (reference : Option Nat) :
    (t.insertBefore p c reference).size = t.size := by
  unfold insertBefore
  split
  · rfl
  · rw [relink, size_linkSiblings, size_modify, size_modify, size_detach]

/-- A tree with a copy among the children of one node, which is known by its picture. -/
structure Puts (t : Tree) (parent : Nat) (reference : Option Nat) (p : View) (t' : Tree) : Prop where
  grown : t'.Grown
  size_lt : t.size < t'.size
  kind : ∀ i < t.size, t'.kind? i = t.kind? i
  children : ∀ i < t.size, t'.children i =
    if i = parent then insertInto t.size reference (t.children parent) else t.children i
  picture : t'.picture t.size = p
  copied : ∀ i kind, t.size ≤ i → t'.kind? i = some kind → IsCopied kind

/-- **A copy is put among the children of a node**, and nothing else changes. -/
theorem puts_copy (hgrown : t.Grown) (hparent : parent < t.size) (h : CopiesView t v t') (hlinked : t'.Linked)
    (reference : Option Nat) : Puts t parent reference v.bare (t'.insertBefore parent t.size reference) := by
  have hlt := h.size_lt
  have hgrown' := h.grown hgrown hlinked
  -- the copy is nobody's child before
  have hfilter (i : Nat) : (t'.children i).filter (· != t.size) = t'.children i :=
    hlinked.filter_of_not_child (by rw [h.detached.1]; exact nofun)
  have hchildren (i : Nat) : (t'.insertBefore parent t.size reference).children i =
      if i = parent then insertInto t.size reference (t'.children parent) else t'.children i := by
    rw [children_insertBefore hlinked (by omega) hlt (by omega), hfilter, hfilter]
  have hkind (i : Nat) : (t'.insertBefore parent t.size reference).kind? i = t'.kind? i := kind?_insertBefore ..
  have hold (i : Nat) (hi : i < t.size) := h.old i hi
  have hnew : (t'.insertBefore parent t.size reference).Grown := by
    refine ⟨linked_insertBefore hlinked _ _ _, fun a b hb => ?_⟩
    rw [size_insertBefore]
    rw [held, hkind, hchildren, List.mem_append] at hb
    rcases hb with hb | hb
    · split at hb
      · rename_i ha
        rcases mem_insertInto.1 hb with rfl | hb
        · omega
        · exact hgrown'.later a b (ha ▸ mem_held_of_children hb)
      · exact hgrown'.later a b (mem_held_of_children hb)
    · exact hgrown'.later a b (List.mem_append_right _ hb)
  refine ⟨hnew, ?_, fun i hi => ?_, fun i hi => ?_, ?_, fun i kind hi hcopied => ?_⟩
  · rw [size_insertBefore]
    exact hlt
  · rw [hkind, kind?_of_get? (hold i hi)]
  · rw [hchildren, children_of_get? (hold i hi), children_of_get? (hold parent hparent)]
  · have hshows : (t'.insertBefore parent t.size reference).Shows (v.copyAt t.size) := by
      refine h.shows.congr fun i hi => ?_
      have hplace := place_of_copyAt hi
      rw [hkind, hchildren, if_neg (by omega)]
      exact ⟨rfl, rfl⟩
    have hpicture := picture_of_shows hnew hshows
    rwa [id_copyAt, bare_copyAt] at hpicture
  · rw [hkind] at hcopied
    obtain ⟨n, hn, rfl⟩ := Option.map_eq_some_iff.1 hcopied
    exact h.copied i n hi hn

/-- A copy is put at the end of the children of a node. -/
theorem fills_copy (hgrown : t.Grown) (hparent : parent < t.size) (h : CopiesView t v t') (hlinked : t'.Linked) :
    Fills t parent [v.bare] (t'.insertBefore parent t.size none) := by
  have hput := puts_copy hgrown hparent h hlinked none
  refine ⟨hput.grown, Nat.le_of_lt hput.size_lt, hput.kind, fun i hi hne => ?_, ⟨[t.size], ?_, by simp, ?_⟩, hput.copied⟩
  · rw [hput.children i hi, if_neg hne]
  · rw [hput.children parent hparent, if_pos rfl, insertInto_none]
  · rw [List.map_singleton, hput.picture]

/-- A node without links of its own is put at the end of the children of a node. -/
theorem fills_addChild (hgrown : t.Grown) (hparent : parent < t.size) (kind : Kind) (hkind : copiedKind kind = kind) :
    Fills t parent [.node 0 kind [] []] (t.addChild kind parent none).1 := by
  have hcopy := copiesView_alloc t 0 kind
  have hfills := fills_copy hgrown hparent hcopy (by rw [hkind]; exact linked_alloc hgrown.linked kind)
  rw [hkind] at hfills
  simp only [bare, bareAll, hkind] at hfills
  exact hfills

/-- The pictures of what a tree has under some nodes, as far as it can be read. -/
def picturesOf (source : Tree) (ids : List Nat) : List View := (ids.filterMap source.view?).map View.bare

/-- What is kept when a copy is put into a tree is kept when the children of a node are copied, one after the other. -/
theorem importChildren_ind {P : List View → Tree → Prop} {reference : Option Nat} (source : Tree)
    (hlinked : ∀ ps t, P ps t → t.Linked)
    (hput : ∀ ps t v t', P ps t → CopiesView t v t' → t'.Linked →
      P (ps ++ [v.bare]) (t'.insertBefore parent t.size reference))
    (id : Nat) (h : P ps t) :
    P (ps ++ source.picturesOf (source.children id)) (t.importChildren source id parent reference) := by
  unfold importChildren
  generalize source.children id = ids
  induction ids generalizing t ps with
  | nil => exact (List.append_nil ps).symm ▸ h
  | cons i ids ih =>
    rw [List.foldl_cons, picturesOf]
    cases hv : source.view? i with
    | none =>
      have hnone : t.importSubtree source i = (t, none) := importTo_of_viewTo_none hv t
      rw [hnone, List.filterMap_cons_none hv]
      exact ih h
    | some v =>
      obtain ⟨t', heq, hcopy⟩ := copies_read source source.size t i v hv
      have heq : t.importSubtree source i = (t', some t.size) := heq
      have hlinked' : t'.Linked := by
        have hlinked' := linked_importTo source source.size t i (hlinked ps t h)
        change (t.importSubtree source i).1.Linked at hlinked'
        rwa [heq] at hlinked'
      rw [heq, List.filterMap_cons_some hv, List.map_cons, List.append_cons]
      exact ih (hput ps t v t' h hcopy hlinked')

/-- **Copied children are put at the end of the children of a node**, whatever they are copied from. -/
theorem fills_importChildren (hgrown : t.Grown) (hparent : parent < t.size) (source : Tree) (id : Nat) :
    Fills t parent (source.picturesOf (source.children id)) (t.importChildren source id parent none) := by
  refine importChildren_ind source (fun ps t' h => h.grown.linked) (fun ps t' v t'' h hcopy hlinked => ?_) id
    (Fills.refl hgrown parent)
  exact h.trans hparent (fills_copy h.grown (Nat.lt_of_lt_of_le hparent h.size_le) hcopy hlinked)

/-! ## Taking out -/

theorem held_clearChildren (h : b ∈ (t.clearChildren parent).held a) : b ∈ t.held a := by
  rw [held, kind?_clearChildren, children_clearChildren] at h
  rw [held]
  split at h
  · exact List.mem_append_right _ (by simpa using h)
  · exact h

theorem size_clearChildren (t : Tree) (parent : Nat) : (t.clearChildren parent).size = t.size := by
  unfold clearChildren
  refine List.foldlRecOn (motive := fun t' : Tree => t'.size = t.size) _ _ (size_modify ..) fun t' h' c _ => ?_
  rw [size_modify, h']

theorem Grown.of_held (h : t.Grown) (hlinked : t'.Linked) (hsize : t'.size = t.size)
    (hheld : ∀ a b, b ∈ t'.held a → b ∈ t.held a) : t'.Grown :=
  ⟨hlinked, fun a b hb => by rw [hsize]; exact h.later a b (hheld a b hb)⟩

theorem grown_clearChildren (h : t.Grown) (parent : Nat) : (t.clearChildren parent).Grown :=
  h.of_held (linked_clearChildren h.linked parent) (size_clearChildren t parent) fun _ _ => held_clearChildren

theorem later_clearChildren (t : Tree) (parent : Nat) : Later t (t.clearChildren parent) :=
  ⟨Nat.le_of_eq (size_clearChildren t parent).symm, fun _ _ _ => held_clearChildren⟩

theorem held_detach (h : t.Linked) (hb : b ∈ (t.detach id).held a) : b ∈ t.held a := by
  rw [held, kind?_detach, children_detach h, List.mem_append] at hb
  rw [held, List.mem_append]
  exact hb.imp_left fun hb => (List.mem_filter.1 hb).1

theorem grown_detach (h : t.Grown) (id : Nat) : (t.detach id).Grown :=
  h.of_held (linked_detach h.linked id) (size_detach t id) fun _ _ => held_detach h.linked

theorem later_detach (h : t.Grown) (id : Nat) : Later t (t.detach id) :=
  ⟨Nat.le_of_eq (size_detach t id).symm, fun _ _ _ => held_detach h.linked⟩

theorem grown_empty : Tree.empty.Grown := by
  refine ⟨linked_empty, fun a b hb => ?_⟩
  cases a with
  | zero => exact absurd hb (List.not_mem_nil)
  | succ a => exact absurd hb (List.not_mem_nil)

/-! ## Nodes that stay what they are -/

/-- A tree that grew, in which nothing came back and some nodes kept their kind or their children. -/
structure Spares (kinds lists : Nat → Prop) (t t' : Tree) : Prop where
  grown : t'.Grown
  later : Later t t'
  kind : ∀ i < t.size, kinds i → t'.kind? i = t.kind? i
  children : ∀ i < t.size, lists i → t'.children i = t.children i

variable {kinds kinds' lists lists' : Nat → Prop}

theorem Spares.refl (h : t.Grown) : Spares kinds lists t t :=
  ⟨h, .refl t, fun _ _ _ => rfl, fun _ _ _ => rfl⟩

theorem Spares.mono (h : Spares kinds lists t t') (hkinds : ∀ i, kinds' i → kinds i) (hlists : ∀ i, lists' i → lists i) :
    Spares kinds' lists' t t' :=
  ⟨h.grown, h.later, fun i hi hk => h.kind i hi (hkinds i hk), fun i hi hk => h.children i hi (hlists i hk)⟩

theorem Spares.trans (h : Spares kinds lists t t') (h' : Spares kinds lists t' t'') : Spares kinds lists t t'' where
  grown := h'.grown
  later := h.later.trans h'.later
  kind i hi hk := (h'.kind i (Nat.lt_of_lt_of_le hi h.later.size_le) hk).trans (h.kind i hi hk)
  children i hi hk := (h'.children i (Nat.lt_of_lt_of_le hi h.later.size_le) hk).trans (h.children i hi hk)

theorem Fills.spares (h : Fills t parent ps t') (hparent : ¬ lists parent) : Spares kinds lists t t' where
  grown := h.grown
  later := h.later
  kind i hi _ := h.kind i hi
  children i hi hk := h.children i hi fun heq => hparent (heq ▸ hk)

theorem spares_clearChildren (h : t.Grown) (hparent : ¬ lists parent) :
    Spares kinds lists t (t.clearChildren parent) where
  grown := grown_clearChildren h parent
  later := later_clearChildren t parent
  kind i _ _ := kind?_clearChildren t parent i
  children i _ hk := by
    rw [children_clearChildren, if_neg]
    rintro rfl
    exact hparent hk

/-! ## New nodes -/

theorem children_of_le (h : t.size ≤ id) : t.children id = [] := by
  rw [Tree.children, get?_of_le h]

theorem kind?_alloc (t : Tree) (kind : Kind) (i : Nat) :
    (t.alloc kind).1.kind? i = if i = t.size then some kind else t.kind? i := by
  split
  · rename_i hi
    rw [hi, kind?_alloc_self]
  · rename_i hi
    exact kind?_of_get? (get?_alloc_of_ne kind hi)

theorem children_alloc (t : Tree) (kind : Kind) (i : Nat) : (t.alloc kind).1.children i = t.children i := by
  by_cases hi : i = t.size
  · rw [hi, children_of_le (Nat.le_refl _), Tree.children, get?_alloc_self]
    rfl
  · exact children_of_get? (get?_alloc_of_ne kind hi)

/-- A node that holds nothing can be added. -/
theorem grown_alloc (h : t.Grown) (hlinks : kind.links = []) : (t.alloc kind).1.Grown := by
  refine ⟨linked_alloc h.linked kind, fun a b hb => ?_⟩
  rw [size_alloc]
  rw [held, kind?_alloc, children_alloc] at hb
  split at hb
  · rename_i ha
    rw [ha, children_of_le (Nat.le_refl _), Option.map_some, Option.getD_some, hlinks] at hb
    simp at hb
  · have hlt := h.later a b hb
    omega

/-! ## Leaves -/

/-- A node without children. -/
def Leaf (t : Tree) (id : Nat) (kind : Kind) : Prop := t.kind? id = some kind ∧ t.children id = []

theorem picture_of_leaf (h : t.Grown) (hleaf : t.Leaf id kind) (hkind : copiedKind kind = kind)
    (hcontents : kind.contents? = none) : t.picture id = .node 0 kind [] [] := by
  rw [picture_eq h hleaf.1, hleaf.2, hcontents, hkind]
  rfl

theorem kind?_addChild (t : Tree) (kind : Kind) (parent i : Nat) :
    (t.addChild kind parent none).1.kind? i = if i = t.size then some kind else t.kind? i := by
  have hinsert : (t.addChild kind parent none).1.kind? i = (t.alloc kind).1.kind? i :=
    kind?_insertBefore (t.alloc kind).1 parent t.size none i
  rw [hinsert, kind?_alloc]

theorem size_addChild (t : Tree) (kind : Kind) (parent : Nat) : (t.addChild kind parent none).1.size = t.size + 1 := by
  have hinsert : (t.addChild kind parent none).1.size = (t.alloc kind).1.size :=
    size_insertBefore (t.alloc kind).1 parent t.size none
  rw [hinsert, size_alloc]

theorem children_addChild (hparent : parent < t.size) (kind : Kind) (i : Nat) :
    (t.addChild kind parent none).1.children i =
      if i = parent then t.children parent ++ [t.size] else t.children i := by
  have hnone : (t.alloc kind).1.parent? t.size = none := by
    rw [parent?, get?_alloc_self]
    rfl
  have hinsert := children_appendChild_of_detached (show parent < (t.alloc kind).1.size by rw [size_alloc]; omega)
    (show t.size < (t.alloc kind).1.size by rw [size_alloc]; omega) (by omega) hnone i
  rw [children_alloc, children_alloc] at hinsert
  exact hinsert

/-! ## Shadow trees -/

/-- An element with another shadow tree. -/
theorem kind?_setShadow {e : Element} (h : t.kind? id = some (.element e)) (shadow : Option Nat) (i : Nat) :
    (t.modifyElement id fun e => { e with shadow }).kind? i =
      if i = id then some (.element { e with shadow }) else t.kind? i := by
  split
  · rename_i hi
    subst hi
    obtain ⟨n, hn, hkind⟩ := Option.map_eq_some_iff.1 h
    rw [kind?, modifyElement, get?_modify, if_pos rfl, hn, Option.map_some, Option.map_some]
    simp only [hkind]
  · rename_i hi
    exact kind?_modifyElement_ne _ hi

theorem element?_of_kind {e : Element} (h : t.kind? id = some (.element e)) : t.element? id = some e := by
  obtain ⟨n, hn, hkind⟩ := Option.map_eq_some_iff.1 h
  obtain ⟨kind, _, _, _, _⟩ := n
  obtain rfl : kind = .element e := hkind
  rw [element?, hn]

theorem shadow?_of_kind {e : Element} (h : t.kind? id = some (.element e)) : t.shadow? id = e.shadow := by
  rw [shadow?, element?_of_kind h, Option.bind_some]

/-- An element keeps the shadow tree that it has. -/
theorem attachShadow_of_kind {e : Element} {root : Nat} (h : t.kind? id = some (.element e))
    (hshadow : e.shadow = some root) :
    t.attachShadow id = (t, some root) := by
  rw [attachShadow, element?_of_kind h]
  simp only [hshadow]

/-- An element without a shadow tree gets one, at the first free place. -/
theorem attachShadow_of_none {e : Element} (h : t.kind? id = some (.element e)) (hshadow : e.shadow = none) :
    t.attachShadow id =
      ((t.alloc (.fragment (some id))).1.modifyElement id fun e => { e with shadow := some t.size }, some t.size) := by
  rw [attachShadow, element?_of_kind h]
  simp only [hshadow]
  rfl

/-- A shadow tree that is given to an element is a later one, or none. -/
theorem grown_setShadow {e : Element} (h : t.Grown) (hkind : t.kind? id = some (.element e)) {shadow : Option Nat}
    (hshadow : ∀ root, shadow = some root → id < root ∧ root < t.size) :
    (t.modifyElement id fun e => { e with shadow }).Grown := by
  refine ⟨linked_modifyElement h.linked _ _, fun a b hb => ?_⟩
  rw [size_modifyElement]
  rw [held, children_modifyElement, kind?_setShadow hkind, List.mem_append] at hb
  rcases hb with hb | hb
  · exact h.later a b (mem_held_of_children hb)
  · split at hb
    · rename_i ha
      rw [Option.map_some, Option.getD_some, Kind.links, List.mem_append] at hb
      rcases hb with hb | hb
      · refine h.later a b (List.mem_append_right _ ?_)
        rw [ha, hkind, Option.map_some, Option.getD_some, Kind.links]
        exact List.mem_append_left _ hb
      · rw [ha]
        exact hshadow b (Option.mem_toList.1 hb)
    · exact h.later a b (List.mem_append_right _ hb)

theorem later_setShadow {e : Element} (h : Later t t') (hkind : t'.kind? id = some (.element e)) {shadow : Option Nat}
    (hshadow : ∀ root, shadow = some root → t.size ≤ root) :
    Later t (t'.modifyElement id fun e => { e with shadow }) := by
  refine ⟨by rw [size_modifyElement]; exact h.size_le, fun a b hb hmem => h.held a b hb ?_⟩
  rw [held, children_modifyElement, kind?_setShadow hkind, List.mem_append] at hmem
  rcases hmem with hmem | hmem
  · exact mem_held_of_children hmem
  · refine List.mem_append_right _ ?_
    split at hmem
    · rename_i ha
      rw [Option.map_some, Option.getD_some, Kind.links, List.mem_append] at hmem
      rcases hmem with hmem | hmem
      · rw [ha, hkind, Option.map_some, Option.getD_some, Kind.links]
        exact List.mem_append_left _ hmem
      · have := hshadow b (Option.mem_toList.1 hmem)
        omega
    · exact hmem

theorem later_alloc (t : Tree) (hlinks : kind.links = []) : Later t (t.alloc kind).1 := by
  refine ⟨by rw [size_alloc]; omega, fun a b _ hmem => ?_⟩
  rw [held, kind?_alloc, children_alloc] at hmem
  split at hmem
  · rw [Option.map_some, Option.getD_some, hlinks, List.append_nil] at hmem
    exact mem_held_of_children hmem
  · exact hmem

end LiveMarkup.Tree
