/-
Copies that say what was copied.

Copying part of a tree goes along with reading it as a view: the copy shows that view in full, at new places in the same
order (`copies_read`). While a node is copied, what has been copied so far shows the node with the contents and
children so far; one step adds the contents, and one step for each child adds that child. A copied view is written and
read as the view itself (`write_copyAt`, `texts_copyAt`). Main result: `importSubtree_faithful`.
-/
import LiveMarkup.Html.Serialize
import LiveMarkup.Proofs.Dom.Additions
import LiveMarkup.Proofs.Dom.Operations
import LiveMarkup.Proofs.Dom.Parts

set_option autoImplicit false

namespace LiveMarkup

/-- A kind with other contents, where it is an element. -/
def Kind.withContents (contents : Option Nat) : Kind → Kind
  | .element e => .element { e with contents }
  | kind => kind

namespace View

mutual

/-- A view as it is copied: its nodes take the places from one on, the contents before the children. -/
def copyAt (lo : Nat) : View → View
  | .node _ kind contents children =>
    .node lo ((Tree.copiedKind kind).withContents (contents.head?.map fun _ => lo + 1)) (copyAll (lo + 1) contents)
      (copyAll (lo + 1 + sizeAll contents) children)

/-- Several views as they are copied, one behind the other. -/
def copyAll (lo : Nat) : List View → List View
  | [] => []
  | v :: rest => v.copyAt lo :: copyAll (lo + v.size) rest

end

variable {v w x : View} {vs : List View} {lo : Nat}

@[simp] theorem id_copyAt (lo : Nat) (v : View) : (v.copyAt lo).id = lo := by
  cases v
  rfl

theorem copyAll_append (lo : Nat) (vs ws : List View) :
    copyAll lo (vs ++ ws) = copyAll lo vs ++ copyAll (lo + sizeAll vs) ws := by
  induction vs generalizing lo with
  | nil => simp [copyAll, sizeAll]
  | cons v vs ih => simp [copyAll, sizeAll, ih, Nat.add_assoc]

theorem sizeAll_append (vs ws : List View) : sizeAll (vs ++ ws) = sizeAll vs + sizeAll ws := by
  induction vs with
  | nil => simp [sizeAll]
  | cons v vs ih => simp [sizeAll, ih, Nat.add_assoc]

theorem places_copyAll (h : ∀ v ∈ vs, ∀ lo, (v.copyAt lo).places = List.range' lo v.size) (lo : Nat) :
    (partsAll (copyAll lo vs)).map View.id = List.range' lo (sizeAll vs) := by
  induction vs generalizing lo with
  | nil => rfl
  | cons v vs ih =>
    have hv : (v.copyAt lo).parts.map View.id = List.range' lo v.size := h v List.mem_cons_self lo
    rw [copyAll, partsAll, sizeAll, List.map_append, hv, ih fun u hu => h u (List.mem_cons_of_mem _ hu),
      List.range'_append_1]

/-- **The nodes of a copy take places one after the other.** -/
theorem places_copyAt (lo : Nat) (v : View) : (v.copyAt lo).places = List.range' lo v.size := by
  induction v using View.ind generalizing lo with
  | node id kind contents children ihcontents ihchildren =>
    rw [places, copyAt, parts, size, List.map_cons, List.map_append, places_copyAll ihcontents,
      places_copyAll ihchildren, List.range'_append_1, Nat.add_assoc 1, Nat.add_comm 1, List.range'_succ]
    rfl

theorem place_of_copyAt {i : Nat} (hi : i ∈ (v.copyAt lo).places) : lo ≤ i ∧ i < lo + v.size := by
  rwa [places_copyAt, List.mem_range'_1] at hi

theorem place_of_mem_copyAll {i : Nat} (hw : w ∈ copyAll lo vs) (hi : i ∈ w.places) :
    lo ≤ i ∧ i < lo + sizeAll vs := by
  obtain ⟨x, hx, rfl⟩ := List.mem_map.1 hi
  have hmem : x.id ∈ (partsAll (copyAll lo vs)).map View.id := List.mem_map_of_mem (mem_partsAll.2 ⟨w, hw, hx⟩)
  rw [places_copyAll fun v _ lo => places_copyAt lo v] at hmem
  exact List.mem_range'_1.1 hmem

theorem size_copyAll (h : ∀ v ∈ vs, ∀ lo, (v.copyAt lo).size = v.size) (lo : Nat) :
    sizeAll (copyAll lo vs) = sizeAll vs := by
  induction vs generalizing lo with
  | nil => rfl
  | cons v vs ih =>
    rw [copyAll, sizeAll, sizeAll, h v List.mem_cons_self, ih fun u hu => h u (List.mem_cons_of_mem _ hu)]

theorem size_copyAt (lo : Nat) (v : View) : (v.copyAt lo).size = v.size := by
  induction v using View.ind generalizing lo with
  | node id kind contents children ihcontents ihchildren =>
    rw [copyAt, size, size, size_copyAll ihcontents, size_copyAll ihchildren]

theorem exists_of_mem_copyAll (hw : w ∈ copyAll lo vs) : ∃ v ∈ vs, ∃ place, w = v.copyAt place := by
  induction vs generalizing lo with
  | nil => simp [copyAll] at hw
  | cons v vs ih =>
    rw [copyAll, List.mem_cons] at hw
    rcases hw with rfl | hw
    · exact ⟨v, List.mem_cons_self, lo, rfl⟩
    · obtain ⟨u, hu, place, heq⟩ := ih hw
      exact ⟨u, List.mem_cons_of_mem _ hu, place, heq⟩

/-- Every part of a copy is the copy of a part. -/
theorem exists_part (hx : x ∈ (v.copyAt lo).parts) : ∃ w ∈ v.parts, ∃ place, x = w.copyAt place := by
  induction v using View.ind generalizing lo with
  | node id kind contents children ihcontents ihchildren =>
    rw [copyAt, parts, List.mem_cons, List.mem_append, mem_partsAll, mem_partsAll] at hx
    rcases hx with hx | ⟨w, hw, hx⟩ | ⟨w, hw, hx⟩
    · exact ⟨_, mem_parts_self _, lo, hx⟩
    · obtain ⟨u, hu, place, rfl⟩ := exists_of_mem_copyAll hw
      obtain ⟨y, hy, heq⟩ := ihcontents u hu hx
      exact ⟨y, mem_parts_trans (mem_parts_of_contents hu) hy, heq⟩
    · obtain ⟨u, hu, place, rfl⟩ := exists_of_mem_copyAll hw
      obtain ⟨y, hy, heq⟩ := ihchildren u hu hx
      exact ⟨y, mem_parts_trans (mem_parts_of_children hu) hy, heq⟩

end View

namespace Tree

open View

variable {t t' t'' : Tree} {id : Nat} {kind : Kind} {v w : View} {contents children : List View}

/-! ## The steps of copying -/

/-- A tree with a copy of a view added. -/
structure CopiesView (t : Tree) (v : View) (t' : Tree) : Prop extends Copies t t' where
  size_eq : t'.size = t.size + v.size
  shows : t'.Shows (v.copyAt t.size)

theorem kind?_alloc_self (t : Tree) (kind : Kind) : (t.alloc kind).1.kind? t.size = some kind := by
  rw [kind?, get?_alloc_self]
  rfl

theorem withContents_copiedKind (kind : Kind) : (copiedKind kind).withContents none = copiedKind kind := by
  cases kind <;> rfl

/-- First a node without contents and children is copied. -/
theorem copiesView_alloc (t : Tree) (id : Nat) (kind : Kind) :
    CopiesView t (.node id kind [] []) (t.alloc (copiedKind kind)).1 where
  toCopies := copies_alloc t (isCopied_copiedKind kind)
  size_eq := by rw [size_alloc]; rfl
  shows := by
    refine shows_node ⟨?_, ?_, ?_⟩ (by simp [copyAll]) (by simp [copyAll])
    · simp only [View.id, View.kind, List.head?_nil, Option.map_none, withContents_copiedKind]
      exact kind?_alloc_self t _
    · cases kind <;> rfl
    · simp [View.id, View.children, copyAll, Tree.children, get?_alloc_self, Node.detached]

theorem kind?_modifyElement_ne (f : Element → Element) {i : Nat} (h : i ≠ id) :
    (t.modifyElement id f).kind? i = t.kind? i :=
  kind?_of_get? (get?_modifyElement_of_ne f h)

theorem kind?_modifyElement_self (t : Tree) (id : Nat) (contents : Option Nat) :
    (t.modifyElement id fun e => { e with contents }).kind? id = (t.kind? id).map (·.withContents contents) := by
  rw [kind?, kind?, modifyElement, get?_modify, if_pos rfl]
  cases t.get? id with
  | none => rfl
  | some n =>
    obtain ⟨kind, _, _, _, _⟩ := n
    cases kind <;> rfl

theorem CopiesView.kind?_root (h : CopiesView t (.node id kind [] []) t') :
    t'.kind? t.size = some (copiedKind kind) := by
  rw [← withContents_copiedKind kind]
  exact h.shows.agrees.kind

/-- Contents that cannot be read add nothing. -/
theorem copiesView_noContents (h : CopiesView t (.node id kind [] []) t') :
    CopiesView t (.node id kind [] []) (t'.modifyElement t.size fun e => { e with contents := none }) where
  toCopies := copies_contents h.toCopies none
  size_eq := by rw [size_modifyElement]; exact h.size_eq
  shows := by
    refine h.shows.congr fun i hi => ?_
    refine ⟨?_, children_modifyElement t' t.size i _⟩
    by_cases hroot : i = t.size
    · rw [hroot, kind?_modifyElement_self, h.kind?_root, Option.map_some, withContents_copiedKind]
    · exact kind?_modifyElement_ne _ hroot

/-- Then the contents are copied, if the node is an element that has any. -/
theorem copiesView_contents (hkind : kind.contents?.isSome) (h : CopiesView t (.node id kind [] []) t')
    (h' : CopiesView t' v t'') :
    CopiesView t (.node id kind [v] []) (t''.modifyElement t.size fun e => { e with contents := some t'.size }) := by
  have hsize : t'.size = t.size + 1 := h.size_eq
  have hget := h'.old t.size (by omega)
  refine ⟨copies_contents (h.toCopies.trans h'.toAdds) _, ?_, ?_⟩
  · rw [size_modifyElement, h'.size_eq, hsize]
    simp only [View.size, sizeAll]
    omega
  · have hcontents : (t''.modifyElement t.size fun e => { e with contents := some t'.size }).Shows
        (v.copyAt (t.size + 1)) := by
      rw [← hsize]
      refine h'.shows.congr fun i hi => ?_
      have hplace := place_of_copyAt hi
      exact ⟨kind?_modifyElement_ne _ (by omega), children_modifyElement t'' t.size i _⟩
    refine shows_node ⟨?_, ?_, ?_⟩ (by simpa [copyAll] using hcontents) (by simp [copyAll])
    · simp only [View.id, View.kind, List.head?_cons, Option.map_some]
      rw [kind?_modifyElement_self, kind?_of_get? hget, h.kind?_root, hsize]
      rfl
    · cases kind with
      | element e => simp [View.kind, View.contents, copiedKind, Kind.withContents, Kind.contents?, copyAll]
      | _ => simp [Kind.contents?] at hkind
    · simp only [View.id, View.children, copyAll, List.map_nil]
      rw [children_modifyElement, children_of_get? hget]
      exact h.shows.agrees.children

/-- Then the children are copied, each behind those before it. -/
theorem copiesView_child (h : CopiesView t (.node id kind contents children) t') (h' : CopiesView t' v t'') :
    CopiesView t (.node id kind contents (children ++ [v])) (t''.appendChild t.size t'.size) := by
  have hsize : t'.size = t.size + 1 + sizeAll contents + sizeAll children := by
    rw [h.size_eq, View.size]
    omega
  have hsize' := h'.size_eq
  have hlt := h.size_lt
  have hlt' := h'.size_lt
  have hkinds (i : Nat) : (t''.appendChild t.size t'.size).kind? i = t''.kind? i := kind?_insertBefore ..
  have hchildren (i : Nat) := children_appendChild_of_detached (t := t'') (show t.size < t''.size by omega) hlt'
    (show t.size ≠ t'.size by omega) h'.detached.1 i
  refine ⟨copies_child h.toCopies h'.toCopies, ?_, ?_⟩
  · rw [size_appendChild, h'.size_eq, hsize]
    simp only [View.size, sizeAll_append, sizeAll]
    omega
  · -- what stands behind the copied node is not touched again
    have hframe : ∀ w, t'.Shows w → (∀ i ∈ w.places, t.size < i ∧ i < t'.size) →
        (t''.appendChild t.size t'.size).Shows w := by
      intro w hw hplaces
      refine hw.congr fun i hi => ?_
      have hplace := hplaces i hi
      have hget := h'.old i hplace.2
      rw [hkinds, hchildren, if_neg (by omega)]
      exact ⟨kind?_of_get? hget, children_of_get? hget⟩
    have hnew : (t''.appendChild t.size t'.size).Shows (v.copyAt t'.size) := by
      refine h'.shows.congr fun i hi => ?_
      have hplace := place_of_copyAt hi
      rw [hkinds, hchildren, if_neg (by omega)]
      exact ⟨rfl, rfl⟩
    have hagrees := h.shows.agrees
    have hget := h'.old t.size hlt
    have hall : copyAll (t.size + 1 + sizeAll contents) (children ++ [v]) =
        copyAll (t.size + 1 + sizeAll contents) children ++ [v.copyAt t'.size] := by
      rw [copyAll_append, ← hsize]
      rfl
    rw [View.copyAt, hall]
    refine shows_node ⟨?_, hagrees.contents, ?_⟩ ?_ ?_
    · simp only [View.id, View.kind]
      rw [hkinds, kind?_of_get? hget]
      exact hagrees.kind
    · change (t''.appendChild t.size t'.size).children t.size = (copyAll _ children ++ [v.copyAt t'.size]).map View.id
      rw [hchildren, if_pos rfl, children_of_get? hget, List.map_append, List.map_singleton, id_copyAt]
      congr 1
      exact hagrees.children
    · intro w hw
      refine hframe w (h.shows.of_mem_contents hw) fun i hi => ?_
      have hplace := place_of_mem_copyAll hw hi
      omega
    · intro w hw
      rcases List.mem_append.1 hw with hw | hw
      · refine hframe w (h.shows.of_mem_children hw) fun i hi => ?_
        have hplace := place_of_mem_copyAll hw hi
        omega
      · rw [List.mem_singleton.1 hw]
        exact hnew

theorem importTo_of_viewTo_none {source : Tree} {depth : Nat} (h : source.viewTo depth id = none) (t : Tree) :
    importTo source depth t id = (t, none) := by
  cases depth with
  | zero => rfl
  | succ depth =>
    refine importTo_of_none ?_ (depth + 1) t
    simpa [viewTo] using h

/-- What is copied down to a depth is the view that is read down to it. -/
def CopiesRead (source : Tree) (depth : Nat) : Prop :=
  ∀ (t : Tree) (id : Nat) (v : View), source.viewTo depth id = some v →
    ∃ t', importTo source depth t id = (t', some t.size) ∧ CopiesView t v t'

variable {source : Tree} {depth : Nat}

theorem copiesView_importContents (hread : CopiesRead source depth) (h : CopiesView t (.node id kind [] []) t') :
    CopiesView t (.node id kind (kind.contents?.toList.filterMap (source.viewTo depth)) [])
      (importContents source depth t.size kind.contents? t') := by
  cases hc : kind.contents? with
  | none => exact h
  | some c =>
    rw [importContents, Option.toList_some, List.filterMap_cons, List.filterMap_nil]
    cases hv : source.viewTo depth c with
    | none =>
      rw [importTo_of_viewTo_none hv]
      exact copiesView_noContents h
    | some v =>
      obtain ⟨t'', heq, h'⟩ := hread t' c v hv
      rw [heq]
      exact copiesView_contents (by rw [hc]; rfl) h h'

theorem copiesView_importChildren (hread : CopiesRead source depth) (ids : List Nat)
    (h : CopiesView t (.node id kind contents children) t') :
    CopiesView t (.node id kind contents (children ++ ids.filterMap (source.viewTo depth)))
      (ids.foldl (importChild source depth t.size) t') := by
  induction ids generalizing children t' with
  | nil => simpa using h
  | cons i ids ih =>
    rw [List.foldl_cons, List.filterMap_cons, importChild]
    cases hv : source.viewTo depth i with
    | none =>
      rw [importTo_of_viewTo_none hv]
      exact ih h
    | some v =>
      obtain ⟨t'', heq, h'⟩ := hread t' i v hv
      rw [heq, List.append_cons]
      exact ih (copiesView_child h h')

/-- **Copying goes along with reading**: the node first, then its contents, then one child after the other. -/
theorem copies_read (source : Tree) (depth : Nat) : CopiesRead source depth := by
  induction depth with
  | zero =>
    intro t id v h
    simp [viewTo] at h
  | succ depth ih =>
    intro t id v h
    obtain ⟨n, hn⟩ : ∃ n, source.get? id = some n := by
      cases hn : source.get? id with
      | none => simp [viewTo, hn] at h
      | some n => exact ⟨n, rfl⟩
    have hkind : source.kind? id = some n.kind := by rw [kind?, hn]; rfl
    have hchildren : source.children id = n.children := by rw [Tree.children, hn]
    have hcontents : source.contents? id = n.kind.contents? := by rw [contents?_eq, hkind, Option.bind_some]
    rw [viewTo_of_kind hkind, hchildren] at h
    obtain rfl := Option.some.inj h
    rw [importTo_of_some hn, hcontents]
    have hfilled := copiesView_importContents ih (copiesView_alloc t id n.kind)
    exact ⟨_, rfl, copiesView_importChildren ih n.children hfilled⟩

/-! ## Reading a copy -/

theorem texts_copyAll {vs : List View} (h : ∀ v ∈ vs, ∀ lo, (v.copyAt lo).texts = v.texts) (lo : Nat) :
    textsAll (copyAll lo vs) = textsAll vs := by
  induction vs generalizing lo with
  | nil => rfl
  | cons v vs ih =>
    rw [copyAll, textsAll, textsAll, h v List.mem_cons_self, ih fun u hu => h u (List.mem_cons_of_mem _ hu)]

/-- A copy holds the same texts. -/
theorem texts_copyAt (lo : Nat) (v : View) : (v.copyAt lo).texts = v.texts := by
  induction v using View.ind generalizing lo with
  | node id kind contents children _ ihchildren =>
    rw [copyAt, texts, texts, texts_copyAll ihchildren]
    cases kind <;> rfl

theorem length_lightAll_le (vs : List View) : (lightAll vs).length ≤ sizeAll vs := by
  induction vs with
  | nil => simp [lightAll]
  | cons v vs ih =>
    have hv := length_light_le v
    rw [lightAll, sizeAll, List.length_append]
    omega

end Tree

namespace Html

open View

variable {t : Tree} {v : View} {vs : List View}

theorem writeAll_copyAll (h : ∀ v ∈ vs, ∀ raw lo, write raw (v.copyAt lo) = write raw v) (raw : Bool) (lo : Nat) :
    writeAll raw (copyAll lo vs) = writeAll raw vs := by
  induction vs generalizing lo with
  | nil => rfl
  | cons v vs ih =>
    rw [copyAll, writeAll, writeAll, h v List.mem_cons_self, ih fun u hu => h u (List.mem_cons_of_mem _ hu)]

theorem writeContents_copyAll
    (h : ∀ v ∈ vs, ∀ raw lo, writeAll raw (v.copyAt lo).children = writeAll raw v.children) (lo : Nat) :
    writeContents (copyAll lo vs) = writeContents vs := by
  induction vs generalizing lo with
  | nil => rfl
  | cons v vs ih =>
    have hchildren := h v List.mem_cons_self
    cases v with
    | node id kind contents children =>
      have hrest := ih (fun u hu => h u (List.mem_cons_of_mem _ hu)) (lo + (View.node id kind contents children).size)
      cases kind <;> exact congrArg₂ (· ++ ·) (hchildren _ lo) hrest

/-- **A copy is written as what was copied**, itself and what is inside it. -/
theorem write_copyAt (h : t.Shows v) (raw : Bool) (lo : Nat) :
    write raw (v.copyAt lo) = write raw v ∧ writeAll raw (v.copyAt lo).children = writeAll raw v.children := by
  induction v using View.ind generalizing raw lo with
  | node id kind contents children ihcontents ihchildren =>
    have hchildren (raw : Bool) (lo : Nat) : writeAll raw (copyAll lo children) = writeAll raw children :=
      writeAll_copyAll (fun v hv raw lo => (ihchildren v hv (h.of_mem_children hv) raw lo).1) raw lo
    have hcontents (lo : Nat) : writeContents (copyAll lo contents) = writeContents contents :=
      writeContents_copyAll (fun v hv raw lo => (ihcontents v hv (h.of_mem_contents hv) raw lo).2) lo
    refine ⟨?_, hchildren raw _⟩
    cases kind with
    | document => exact hchildren false _
    | fragment host => exact hchildren false _
    | text s => rfl
    | comment s => rfl
    | element e =>
      -- the copy has contents exactly when the element has
      have hsome : (contents.head?.map fun _ => lo + 1).isSome = e.contents.isSome := by
        have hagrees : e.contents.toList = contents.map View.id := h.agrees.contents
        cases hc : e.contents <;> cases contents <;> simp_all
      simp only [copyAt, Tree.copiedKind, Kind.withContents, write, hsome, hcontents, hchildren]
      rfl

theorem write_of_element {e : Element} (h : v.kind = .element e) (raw raw' : Bool) : write raw v = write raw' v := by
  cases v with
  | node id kind contents children =>
    obtain rfl : kind = .element e := h
    rfl

theorem serialize_of_view? {id : Nat} {e : Element} (h : t.view? id = some v) (he : v.kind = .element e) :
    serialize t id = write false v := by
  rw [serialize, h]
  exact write_of_element he _ _

end Html

namespace Tree

open View

variable {t source : Tree} {v : View} {id : Nat} {e : Element}

theorem kind?_of_element? (h : t.element? id = some e) : t.kind? id = some (.element e) := by
  rw [element?_eq, ← kind?_eq] at h
  cases hkind : t.kind? id with
  | none => simp [hkind] at h
  | some kind => cases kind <;> simp_all

/-- The text of a node that a view shows in full, in a tree without circles. -/
theorem textContent_of_withoutCircles (hlinked : t.Linked) (hacyclic : t.WithoutCircles) (h : t.Shows v) :
    t.textContent v.id = String.join (textsAll v.children) := by
  refine textContent_of_shows h ?_
  -- the walk down lists all of it, and is no longer than the tree
  have hvisit := visit_of_shows (lightAll v.children).length fun u hu => h.of_mem_children hu
  have hle := length_visit_le hlinked (acyclic_of_withoutCircles hlinked hacyclic) (lightAll v.children).length v.id
  rw [h.agrees.children, hvisit, List.take_length] at hle
  exact hle

theorem textContent_of_copy {t' : Tree} (h : CopiesView t v t') :
    t'.textContent t.size = String.join (textsAll v.children) := by
  have hsize := h.size_eq
  have htexts : textsAll (v.copyAt t.size).children = textsAll v.children := by
    cases v
    exact texts_copyAll (fun v _ lo => texts_copyAt lo v) _
  have hlength : (lightAll (v.copyAt t.size).children).length ≤ t'.size := by
    have hle := length_lightAll_le (v.copyAt t.size).children
    have hcopy := size_copyAt t.size v
    cases hv : v.copyAt t.size with
    | node id kind contents children =>
      rw [hv] at hle hcopy
      simp only [View.children, View.size] at hle hcopy ⊢
      omega
  have htext := textContent_of_shows h.shows hlength
  rwa [id_copyAt, htexts] at htext

/-- The contents of a copied template are a new fragment, if what they are copied from is a fragment. -/
theorem contents_of_copy {t' : Tree} (hshows : source.Shows v) (h : CopiesView t v t')
    (hfragments : ∀ i c : Nat, source.contents? i = some c → ∃ host, source.kind? c = some (.fragment host))
    {i c : Nat} (hi : t.size ≤ i) (hc : t'.contents? i = some c) :
    t.size < c ∧ t'.kind? c = some (.fragment none) := by
  have hlt := lt_size_of_contents hc
  have hplace : i ∈ (v.copyAt t.size).places := by
    have hsize := h.size_eq
    rw [places_copyAt, List.mem_range'_1]
    omega
  obtain ⟨x, hx, rfl⟩ := List.mem_map.1 hplace
  obtain ⟨w, hw, place, rfl⟩ := exists_part hx
  have hcopy := h.shows.part hx
  have hsource := hshows.part hw
  rw [contents?_eq, hcopy.agrees.kind, Option.bind_some] at hc
  have hplaced := hcopy.agrees.contents
  rw [hc] at hplaced
  rw [id_copyAt] at hi
  cases w with
  | node id kind contents children =>
    cases contents with
    | nil => simp [copyAt, copyAll, View.contents] at hplaced
    | cons w rest =>
      -- the first contents stand right behind the copied template
      have hwhere : c = place + 1 := by
        simp only [copyAt, copyAll, View.contents, Option.toList_some, List.map_cons, id_copyAt] at hplaced
        exact (List.cons.inj hplaced).1
      have hkind : t'.kind? (place + 1) = some ((w.copyAt (place + 1)).kind) := by
        have hshown : t'.Shows (w.copyAt (place + 1)) := hcopy.of_mem_contents List.mem_cons_self
        rw [← hshown.agrees.kind, id_copyAt]
      have hread : source.contents? id = some w.id := by
        have hkind : source.kind? id = some kind := hsource.agrees.kind
        have hlist : kind.contents?.toList = w.id :: rest.map View.id := hsource.agrees.contents
        rw [contents?_eq, hkind, Option.bind_some]
        cases hc : kind.contents? <;> simp_all
      obtain ⟨host, hhost⟩ := hfragments id w.id hread
      have hw : w.kind = .fragment host := by
        have hshown : source.Shows w := hsource.of_mem_contents List.mem_cons_self
        rw [hshown.agrees.kind] at hhost
        exact Option.some.inj hhost
      subst hwhere
      refine ⟨by omega, ?_⟩
      rw [hkind]
      cases w with
      | node id kind contents children =>
        obtain rfl : kind = .fragment host := hw
        rfl

/-- **What is imported is a faithful copy.** In a source without circles, whose contents are nodes of it, every element
can be imported into any target. The copy shows all that the source shows under the element, in the same order at new
places behind those of the target, contents of templates included, which are new fragments. It is written as the element
is and has the same text. It is detached; no element of it has a place in a text or a shadow tree; and no node that the
target had changes. -/
theorem importSubtree_faithful (hlinked : source.Linked) (hacyclic : source.WithoutCircles)
    (hcontents : ∀ i c : Nat, source.contents? i = some c → c < source.size) (target : Tree) {n : Nat}
    (he : source.element? n = some e) :
    ∃ t' v, target.importSubtree source n = (t', some target.size) ∧
      source.view? n = some v ∧ source.Shows v ∧ t'.view? target.size = some (v.copyAt target.size) ∧
      Html.serialize t' target.size = Html.serialize source n ∧
      t'.textContent target.size = source.textContent n ∧
      ((∀ i c : Nat, source.contents? i = some c → ∃ host, source.kind? c = some (.fragment host)) →
        ∀ i c : Nat, target.size ≤ i → t'.contents? i = some c → target.size < c ∧ t'.kind? c = some (.fragment none)) ∧
      (∀ (i : Nat) e, target.size ≤ i → t'.element? i = some e → e.location = none ∧ e.shadow = none) ∧
      (∀ i ∈ (v.copyAt target.size).places, target.size ≤ i) ∧ t'.Detached target.size ∧
      ∀ i : Nat, i < target.size → t'.get? i = target.get? i := by
  have hkind := kind?_of_element? he
  have hn : n < source.size := by
    by_contra hn
    simp [kind?, get?_of_le (Nat.not_lt.1 hn)] at hkind
  obtain ⟨v, hview, rfl, hshows⟩ :=
    viewTo_of_withoutCircles hlinked hacyclic hcontents source.size hn (rank_lt_size hacyclic hn)
  obtain ⟨t', heq, hcopy⟩ := copies_read source source.size target _ v hview
  have hread : t'.view? target.size = some (v.copyAt target.size) := by
    have hsize : (v.copyAt target.size).size ≤ t'.size := by
      rw [size_copyAt, hcopy.size_eq]
      omega
    have hview' := viewTo_of_shows hcopy.shows hsize
    rwa [id_copyAt] at hview'
  have hv : v.kind = .element e := by
    rw [hshows.agrees.kind] at hkind
    exact Option.some.inj hkind
  refine ⟨t', v, heq, hview, hshows, hread, ?_, ?_, ?_, ?_, ?_, hcopy.detached, hcopy.old⟩
  · have hcopied : ∃ e', (v.copyAt target.size).kind = .element e' := by
      cases v with
      | node id kind contents children =>
        obtain rfl : kind = .element e := hv
        exact ⟨_, rfl⟩
    obtain ⟨e', he'⟩ := hcopied
    rw [Html.serialize_of_view? hread he', Html.serialize_of_view? hview hv, (Html.write_copyAt hshows false _).1]
  · rw [textContent_of_copy hcopy, textContent_of_withoutCircles hlinked hacyclic hshows]
  · exact fun hfragments i c hi hc => contents_of_copy hshows hcopy hfragments hi hc
  · intro i e hi he
    obtain ⟨m, hm, hmkind⟩ := Option.map_eq_some_iff.1 (kind?_of_element? he)
    have hcopied := hcopy.copied i m hi hm
    rw [hmkind] at hcopied
    exact hcopied
  · exact fun i hi => (place_of_copyAt hi).1

/-- A template with a script in its contents. -/
def templateElement : Element := { Element.ofName "template" with contents := some 3 }

/-- A tree with a template, built from the inside out. -/
def templateSource : Tree :=
  Tree.empty.after [.create (.text "a<b"), .create (.element (.ofName "script")), .create (.fragment none),
    .create (.element templateElement), .append 2 1, .append 3 2]

/-- A template with a script in its contents is imported into an empty document. -/
theorem importSubtree_faithful_of_template :
    (templateSource.Linked ∧ templateSource.WithoutCircles ∧ templateSource.element? 4 = some templateElement) ∧
      ∃ t', Tree.empty.importSubtree templateSource 4 = (t', some 1) ∧
        Html.serialize t' 1 = Html.serialize templateSource 4 := by
  have hlinked : templateSource.Linked := linked_run _
  have hacyclic : templateSource.WithoutCircles := withoutCircles_of_lt (by decide)
  have hcontents : ∀ i c : Nat, templateSource.contents? i = some c → c < templateSource.size := by
    have hbound : ∀ i < templateSource.size, ∀ c ∈ (templateSource.contents? i).toList, c < templateSource.size := by
      decide
    exact fun i c hc => hbound i (lt_size_of_contents hc) c (by simpa using hc)
  have he : templateSource.element? 4 = some templateElement := by decide
  obtain ⟨t', v, heq, -, -, -, hserialize, -⟩ := importSubtree_faithful hlinked hacyclic hcontents Tree.empty he
  exact ⟨⟨hlinked, hacyclic, he⟩, t', heq, hserialize⟩

end Tree

end LiveMarkup
