/-
What a tree shows, whatever the places of its nodes.

Two parts of trees that are told by one nested value are copied alike, at the same places (`importSubtree_congr`), so
what becomes of a copy depends on that value only. It is the picture of a node: what the node is, the pictures of its
contents, and those of its children (`picture_eq`). Pictures can be taken in trees that grow: a node is linked to
later nodes only (`Grown`), so the tree has no circles, and what is reached from a node stands behind it. A range of
places that no link leaves keeps its pictures when the nodes in it do not change (`picture_congr`).
-/
import LiveMarkup.Proofs.Dom.Copies

set_option autoImplicit false

namespace LiveMarkup

open Tree (copiedKind)

/-! ## Views without places -/

namespace View

mutual

/-- A view without places: what its nodes are in a copy, and how they are nested. -/
def bare : View → View
  | .node _ kind contents children => .node 0 (copiedKind kind) (bareAll contents) (bareAll children)

/-- Several views without places. -/
def bareAll : List View → List View
  | [] => []
  | v :: rest => v.bare :: bareAll rest

end

variable {v w : View} {vs : List View}

theorem bareAll_eq (vs : List View) : bareAll vs = vs.map bare := by
  induction vs with
  | nil => rfl
  | cons v vs ih => rw [bareAll, ih, List.map_cons]

theorem copiedKind_withContents (kind : Kind) (contents : Option Nat) :
    copiedKind ((copiedKind kind).withContents contents) = copiedKind kind := by
  cases kind <;> rfl

theorem bareAll_copyAll (h : ∀ v ∈ vs, ∀ lo, (v.copyAt lo).bare = v.bare) (lo : Nat) :
    bareAll (copyAll lo vs) = bareAll vs := by
  induction vs generalizing lo with
  | nil => rfl
  | cons v vs ih => rw [copyAll, bareAll, bareAll, h v List.mem_cons_self, ih fun u hu => h u (List.mem_cons_of_mem _ hu)]

/-- A copy is a view of the same things. -/
theorem bare_copyAt (lo : Nat) (v : View) : (v.copyAt lo).bare = v.bare := by
  induction v using View.ind generalizing lo with
  | node id kind contents children ihcontents ihchildren =>
    rw [copyAt, bare, bare, bareAll_copyAll ihcontents, bareAll_copyAll ihchildren, copiedKind_withContents]

end View

namespace Tree

open View

variable {t t' source source' : Tree} {v w : View} {id : Nat} {kind : Kind}

/-- What a tree shows under a node tells the view. -/
theorem eq_of_shows (hv : t.Shows v) (hw : t.Shows w) (h : v.id = w.id) : v = w := by
  have hread := viewTo_of_shows hv (Nat.le_max_left v.size w.size)
  rw [h, viewTo_of_shows hw (Nat.le_max_right v.size w.size)] at hread
  exact (Option.some.inj hread).symm

/-! ## Alike parts are copied alike -/

/-- When reading places gives all views back, every one of them is read. -/
theorem read_of_filterMap {f : Nat → Option View} {vs : List View} (h : (vs.map View.id).filterMap f = vs) :
    ∀ v ∈ vs, f v.id = some v := by
  induction vs with
  | nil => simp
  | cons v vs ih =>
    rw [List.map_cons] at h
    cases hv : f v.id with
    | none =>
      rw [List.filterMap_cons_none hv] at h
      have hle := List.length_filterMap_le f (vs.map View.id)
      rw [h, List.length_map, List.length_cons] at hle
      omega
    | some u =>
      rw [List.filterMap_cons_some hv] at h
      obtain ⟨rfl, hrest⟩ := List.cons.inj h
      intro w hw
      rcases List.mem_cons.1 hw with rfl | hw
      · exact hv
      · exact ih hrest w hw

/-- What is read down to a depth is read inside of it down to a smaller one. -/
theorem viewTo_parts {depth : Nat} (hv : source.Shows v) (h : source.viewTo depth v.id = some v) :
    ∃ d, depth = d + 1 ∧ (∀ w ∈ v.contents, source.viewTo d w.id = some w) ∧
      ∀ w ∈ v.children, source.viewTo d w.id = some w := by
  cases depth with
  | zero => exact absurd h nofun
  | succ d =>
    have hagrees := hv.agrees
    rw [viewTo_of_kind hagrees.kind, hagrees.contents, hagrees.children] at h
    cases v with
    | node id kind contents children =>
      obtain ⟨-, -, hcontents, hchildren⟩ := View.node.inj (Option.some.inj h)
      exact ⟨d, rfl, read_of_filterMap hcontents, read_of_filterMap hchildren⟩

theorem importTo_of_shows {d : Nat} (hv : source.Shows v) (t : Tree) :
    importTo source (d + 1) t v.id =
      ((v.children.map View.id).foldl (importChild source d t.size)
        (importContents source d t.size (v.contents.map View.id).head? (t.alloc (copiedKind v.kind)).1), some t.size) := by
  have hagrees := hv.agrees
  obtain ⟨n, hn, hkind⟩ := Option.map_eq_some_iff.1 hagrees.kind
  have hchildren : n.children = v.children.map View.id := by
    rw [← hagrees.children, Tree.children, hn]
  have hcontents : source.contents? v.id = (v.contents.map View.id).head? := by
    rw [contents?_eq, hagrees.kind, Option.bind_some, ← hagrees.contents]
    cases v.kind.contents? <;> rfl
  rw [importTo_of_some hn, hcontents, hchildren, hkind]

theorem foldl_importChild_congr {d d' copy : Nat} {vs ws : List View} (hbare : bareAll vs = bareAll ws)
    (h : ∀ v ∈ vs, ∀ w ∈ ws, v.bare = w.bare → ∀ t, importTo source d t v.id = importTo source' d' t w.id) (t : Tree) :
    (vs.map View.id).foldl (importChild source d copy) t = (ws.map View.id).foldl (importChild source' d' copy) t := by
  induction vs generalizing ws t with
  | nil =>
    cases ws with
    | nil => rfl
    | cons w ws => exact absurd hbare nofun
  | cons v vs ih =>
    cases ws with
    | nil => exact absurd hbare nofun
    | cons w ws =>
      obtain ⟨hvw, hrest⟩ := List.cons.inj hbare
      rw [List.map_cons, List.map_cons, List.foldl_cons, List.foldl_cons, importChild, importChild,
        h v List.mem_cons_self w List.mem_cons_self hvw]
      exact ih hrest (fun v hv w hw => h v (List.mem_cons_of_mem _ hv) w (List.mem_cons_of_mem _ hw)) _

/-- **Parts that show the same are copied alike**, down to any depths that reach all of them. -/
theorem importTo_congr {d d' : Nat} (hv : source.Shows v) (hw : source'.Shows w)
    (hread : source.viewTo d v.id = some v) (hread' : source'.viewTo d' w.id = some w) (hbare : v.bare = w.bare)
    (t : Tree) : importTo source d t v.id = importTo source' d' t w.id := by
  induction v using View.ind generalizing w d d' t with
  | node id kind contents children ihcontents ihchildren =>
    cases w with
    | node id' kind' contents' children' =>
      obtain ⟨e, rfl, hcontents, hchildren⟩ := viewTo_parts hv hread
      obtain ⟨e', rfl, hcontents', hchildren'⟩ := viewTo_parts hw hread'
      obtain ⟨-, hkind, hbarecontents, hbarechildren⟩ := View.node.inj hbare
      have hin : importContents source e t.size (contents.map View.id).head? (t.alloc (copiedKind kind)).1 =
          importContents source' e' t.size (contents'.map View.id).head? (t.alloc (copiedKind kind')).1 := by
        rw [hkind]
        cases contents with
        | nil =>
          cases contents' with
          | nil => rfl
          | cons u us => exact absurd hbarecontents nofun
        | cons v vs =>
          cases contents' with
          | nil => exact absurd hbarecontents nofun
          | cons u us =>
            have hcopied := ihcontents v List.mem_cons_self (hv.of_mem_contents List.mem_cons_self)
              (hw.of_mem_contents List.mem_cons_self) (hcontents v List.mem_cons_self) (hcontents' u List.mem_cons_self)
              (List.cons.inj hbarecontents).1
            simp only [List.map_cons, List.head?_cons, importContents, hcopied]
      rw [importTo_of_shows hv, importTo_of_shows hw]
      simp only [View.children, View.contents, View.kind]
      rw [hin, foldl_importChild_congr hbarechildren]
      intro v hmem u hu hvu t
      exact ihchildren v hmem (hv.of_mem_children hmem) (hw.of_mem_children hu) (hchildren v hmem) (hchildren' u hu) hvu t

end Tree

/-! ## Trees that grow -/

/-- The nodes that an element holds beside its children: the contents of a template and the root of a shadow tree. -/
def Kind.links : Kind → List Nat
  | .element e => e.contents.toList ++ e.shadow.toList
  | _ => []

namespace Tree

open View

variable {t t' t'' source source' : Tree} {v w : View} {id a b lo hi parent : Nat} {kind : Kind}

/-- The nodes that a node holds. -/
def held (t : Tree) (id : Nat) : List Nat := t.children id ++ ((t.kind? id).map Kind.links).getD []

/-- The links of a tree agree, and each node holds later nodes only. -/
structure Grown (t : Tree) : Prop where
  linked : t.Linked
  later : ∀ a b, b ∈ t.held a → a < b ∧ b < t.size

theorem held_congr (hkind : t'.kind? a = t.kind? a) (hchildren : t'.children a = t.children a) :
    t'.held a = t.held a := by
  rw [held, held, hkind, hchildren]

theorem mem_held_of_children (h : b ∈ t.children a) : b ∈ t.held a := List.mem_append_left _ h

theorem mem_held_of_contents (h : t.contents? a = some b) : b ∈ t.held a := by
  rw [contents?_eq] at h
  obtain ⟨kind, hkind, hcontents⟩ := Option.bind_eq_some_iff.1 h
  refine List.mem_append_right _ ?_
  rw [hkind, Option.map_some, Option.getD_some]
  cases kind with
  | element e => exact List.mem_append_left _ (Option.mem_toList.2 hcontents)
  | _ => cases hcontents

theorem Grown.withoutCircles (h : t.Grown) : t.WithoutCircles := by
  have hstep : ∀ a b : Nat, t.Under a b → a < b := by
    intro a b hab
    rcases hab with hab | hab
    · exact (h.later a b (mem_held_of_children hab)).1
    · exact (h.later a b (mem_held_of_contents hab)).1
  have hway : ∀ a b : Nat, Relation.TransGen t.Under a b → a < b := by
    intro a b hab
    induction hab with
    | single hab => exact hstep _ _ hab
    | tail _ hbc ih => exact Nat.lt_trans ih (hstep _ _ hbc)
  exact fun id hid => Nat.lt_irrefl id (hway id id hid)

/-- Every node of a tree that grows has a view that shows it in full. -/
theorem Grown.exists_view (h : t.Grown) (hid : id < t.size) : ∃ v, t.view? id = some v ∧ v.id = id ∧ t.Shows v :=
  viewTo_of_withoutCircles h.linked h.withoutCircles (fun i c hc => (h.later i c (mem_held_of_contents hc)).2) t.size hid
    (rank_lt_size h.withoutCircles hid)

theorem lightAll_eq (vs : List View) : lightAll vs = vs.flatMap fun v => v.id :: lightAll v.children := by
  induction vs with
  | nil => rfl
  | cons v vs ih =>
    rw [lightAll, ih, List.flatMap_cons]
    cases v
    rfl

theorem descendants_of_shows (h : t.Grown) (hv : t.Shows v) : t.descendants v.id = lightAll v.children := by
  have hvisit (k : Nat) : t.visit k (t.children v.id) = (lightAll v.children).take k := by
    rw [hv.agrees.children]
    exact visit_of_shows k fun w hw => hv.of_mem_children hw
  have hle := length_visit_le h.linked (acyclic_of_withoutCircles h.linked h.withoutCircles)
    (lightAll v.children).length v.id
  rw [hvisit, List.take_length] at hle
  exact (hvisit t.size).trans (List.take_of_length_le hle)

/-- **The descendants of a node** are its children, each followed by its own descendants. -/
theorem descendants_eq (h : t.Grown) (hid : id < t.size) :
    t.descendants id = (t.children id).flatMap fun c => c :: t.descendants c := by
  obtain ⟨v, -, rfl, hv⟩ := h.exists_view hid
  rw [descendants_of_shows h hv, lightAll_eq, hv.agrees.children, List.flatMap_map]
  refine List.flatMap_congr fun w hw => ?_
  rw [descendants_of_shows h (hv.of_mem_children hw)]

/-! ## Pictures -/

/-- What a tree shows under a node. -/
def picture (t : Tree) (id : Nat) : View :=
  match t.view? id with
  | some v => v.bare
  | none => .node 0 (.fragment none) [] []

theorem lt_size_of_kind (h : t.kind? id = some kind) : id < t.size := by
  by_contra hid
  rw [kind?, get?_of_le (Nat.not_lt.1 hid)] at h
  cases h

theorem picture_of_shows (h : t.Grown) (hv : t.Shows v) : t.picture v.id = v.bare := by
  obtain ⟨w, hw, hid, hshows⟩ := h.exists_view (lt_size_of_kind hv.agrees.kind)
  rw [picture, hw, eq_of_shows hshows hv hid]

/-- **The picture of a node** is what the node is, with the pictures of its contents and of its children. -/
theorem picture_eq (h : t.Grown) (hkind : t.kind? id = some kind) :
    t.picture id = .node 0 (copiedKind kind) (kind.contents?.toList.map t.picture) ((t.children id).map t.picture) := by
  obtain ⟨v, -, rfl, hv⟩ := h.exists_view (lt_size_of_kind hkind)
  have hagrees := hv.agrees
  obtain rfl := Option.some.inj (hagrees.kind.symm.trans hkind)
  have hall : ∀ vs : List View, (∀ w ∈ vs, t.Shows w) → bareAll vs = (vs.map View.id).map t.picture := by
    intro vs hvs
    rw [bareAll_eq, List.map_map]
    exact List.map_congr_left fun w hw => (picture_of_shows h (hvs w hw)).symm
  rw [picture_of_shows h hv, hagrees.contents, hagrees.children, ← hall _ fun w hw => hv.of_mem_contents hw,
    ← hall _ fun w hw => hv.of_mem_children hw]
  cases v
  rfl

/-- A range of places that no link leaves keeps its pictures when its nodes stay what they are. -/
theorem picture_congr (h : t.Grown) (h' : t'.Grown) (hhi : hi ≤ t.size)
    (hclosed : ∀ a b, lo ≤ a → a < hi → b ∈ t.held a → b < hi)
    (hsame : ∀ i, lo ≤ i → i < hi → t'.kind? i = t.kind? i ∧ t'.children i = t.children i)
    (hlo : lo ≤ id) (hid : id < hi) : t'.picture id = t.picture id := by
  obtain ⟨v, -, rfl, hv⟩ := h.exists_view (Nat.lt_of_lt_of_le hid hhi)
  have hplaces : ∀ w ∈ v.parts, lo ≤ w.id ∧ w.id < hi := by
    clear h'
    induction v using View.ind with
    | node id kind contents children ihcontents ihchildren =>
      have hbelow : ∀ b ∈ t.held id, lo ≤ b ∧ b < hi := fun b hb => by
        have hlt := (h.later id b hb).1
        simp only [View.id] at hlo
        exact ⟨by omega, hclosed id b hlo hid hb⟩
      have hagrees := hv.agrees
      intro w hw
      rw [parts, List.mem_cons, List.mem_append, mem_partsAll, mem_partsAll] at hw
      rcases hw with rfl | ⟨u, hu, hw⟩ | ⟨u, hu, hw⟩
      · exact ⟨hlo, hid⟩
      · have hrange := hbelow u.id (mem_held_of_contents (hv.contents? hu))
        exact ihcontents u hu (hv.of_mem_contents hu) hrange.1 hrange.2 w hw
      · have hchildren : u.id ∈ t.children id := by
          have heq : t.children id = children.map View.id := hagrees.children
          rw [heq]
          exact List.mem_map_of_mem hu
        have hrange := hbelow u.id (mem_held_of_children hchildren)
        exact ihchildren u hu (hv.of_mem_children hu) hrange.1 hrange.2 w hw
  have hv' : t'.Shows v := by
    refine hv.congr fun i hi => ?_
    obtain ⟨w, hw, rfl⟩ := List.mem_map.1 hi
    exact hsame w.id (hplaces w hw).1 (hplaces w hw).2
  rw [picture_of_shows h hv, picture_of_shows h' hv']

/-- **Nodes with the same picture are copied alike.** -/
theorem importSubtree_congr (h : source.Grown) (h' : source'.Grown) (ha : a < source.size) (hb : b < source'.size)
    (hpicture : source.picture a = source'.picture b) (t : Tree) :
    t.importSubtree source a = t.importSubtree source' b := by
  obtain ⟨v, hread, rfl, hv⟩ := h.exists_view ha
  obtain ⟨w, hread', rfl, hw⟩ := h'.exists_view hb
  rw [picture_of_shows h hv, picture_of_shows h' hw] at hpicture
  exact importTo_congr hv hw hread hread' hpicture t

/-- The children of a node as they are copied, one after the other. -/
theorem foldl_importSubtree_congr (h : source.Grown) (h' : source'.Grown) {ids ids' : List Nat}
    (hids : ∀ i ∈ ids, i < source.size) (hids' : ∀ i ∈ ids', i < source'.size)
    (hpictures : ids.map source.picture = ids'.map source'.picture) (add : Tree → Nat → Tree) (t : Tree) :
    ids.foldl (fun t child => match t.importSubtree source child with
      | (t, some copy) => add t copy
      | (t, none) => t) t =
    ids'.foldl (fun t child => match t.importSubtree source' child with
      | (t, some copy) => add t copy
      | (t, none) => t) t := by
  induction ids generalizing ids' t with
  | nil =>
    cases ids' with
    | nil => rfl
    | cons j ids' => exact absurd hpictures nofun
  | cons i ids ih =>
    cases ids' with
    | nil => exact absurd hpictures nofun
    | cons j ids' =>
      obtain ⟨hij, hrest⟩ := List.cons.inj hpictures
      have hcopied := importSubtree_congr h h' (hids i List.mem_cons_self) (hids' j List.mem_cons_self) hij t
      rw [List.foldl_cons, List.foldl_cons, hcopied]
      exact ih (fun i hi => hids i (List.mem_cons_of_mem _ hi)) (fun j hj => hids' j (List.mem_cons_of_mem _ hj))
        hrest _

theorem importChildren_congr (h : source.Grown) (h' : source'.Grown)
    (hpictures : (source.children a).map source.picture = (source'.children b).map source'.picture) (t : Tree)
    (parent : Nat) (reference : Option Nat) :
    t.importChildren source a parent reference = t.importChildren source' b parent reference :=
  foldl_importSubtree_congr h h' (fun i hi => (h.later a i (mem_held_of_children hi)).2)
    (fun i hi => (h'.later b i (mem_held_of_children hi)).2) hpictures
    (fun t copy => t.insertBefore parent copy reference) t

end Tree

end LiveMarkup
