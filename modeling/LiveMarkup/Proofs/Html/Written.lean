/-
What is written of what is shown.

A tree is written as what it shows: two views of the same things are written alike, if their elements say that they have
contents exactly when they have (`write_congr`). So a document in which views took the place of some nodes is written as
its view with the others in their place (`serializeChildren_of_spliced`).
-/
import LiveMarkup.Proofs.Dom.Splicing
import LiveMarkup.Proofs.Html.Views

set_option autoImplicit false

namespace LiveMarkup

/-! ## Views that are whole -/

namespace View

/-- An element says that it has contents exactly when it has. -/
def Sealed (v : View) : Prop := ∀ w ∈ v.parts, w.kind.contents?.isSome = !w.contents.isEmpty

variable {v w : View} {vs ws : List View} {kind : Kind} {id : Nat} {contents children : List View}

theorem Sealed.part (h : v.Sealed) (hw : w ∈ v.parts) : w.Sealed := fun x hx => h x (mem_parts_trans hw hx)

theorem sealed_node (hkind : kind.contents?.isSome = !contents.isEmpty) (hcontents : ∀ v ∈ contents, v.Sealed)
    (hchildren : ∀ v ∈ children, v.Sealed) : (View.node id kind contents children).Sealed := by
  intro w hw
  rw [parts, List.mem_cons, List.mem_append, mem_partsAll, mem_partsAll] at hw
  rcases hw with rfl | ⟨u, hu, hw⟩ | ⟨u, hu, hw⟩
  · exact hkind
  · exact hcontents u hu w hw
  · exact hchildren u hu w hw

theorem sealed_of_shows {t : Tree} (h : t.Shows v) : v.Sealed := by
  intro w hw
  have hcontents := (h.part hw).agrees.contents
  cases hc : w.kind.contents? <;> cases hw : w.contents <;> simp_all

/-- What becomes of a view is sealed, if all is that takes the place of others. -/
theorem sealed_replaced {f : Nat → Option (List View)} (hf : ∀ i vs, f i = some vs → ∀ u ∈ vs, u.Sealed) (h : v.Sealed) :
    ∀ u ∈ v.replaced f, u.Sealed := by
  induction v using View.ind with
  | node id kind contents children _ ihchildren =>
    cases hid : f id with
    | some vs =>
      rw [replaced_of_some hid]
      exact hf id vs hid
    | none =>
      rw [replaced, hid]
      intro u hu
      rw [List.mem_singleton.1 hu, replacedAll_eq]
      refine sealed_node (h _ (mem_parts_self _)) (fun w hw => h.part (mem_parts_of_contents hw)) fun w hw => ?_
      obtain ⟨x, hx, hw⟩ := List.mem_flatMap.1 hw
      exact ihchildren x hx (h.part (mem_parts_of_children hx)) w hw

end View

namespace Html

open View

variable {v w : View} {vs ws : List View} {t t' : Tree} {root : Nat}

/-- Whether text under a node is written as it is. -/
def rawInside : Kind → Bool
  | .element e => rawTextNames.contains e.name
  | _ => false

theorem rawInside_copiedKind (kind : Kind) : rawInside (Tree.copiedKind kind) = rawInside kind := by
  cases kind <;> rfl

theorem writeContents_cons (v : View) (vs : List View) :
    writeContents (v :: vs) = writeAll (rawInside v.kind) v.children ++ writeContents vs := by
  cases v with
  | node id kind contents children => cases kind <;> rfl

/-- A node as markup, where it is known whether it has contents and how what is inside it is written. -/
def writeNode (raw : Bool) (kind : Kind) (hasContents : Bool) (contents : String) (children : Bool → String) : String :=
  match kind with
  | .document | .fragment _ => children false
  | .text text => if raw then text else escapeText text
  | .comment data => "<!--" ++ data ++ "-->"
  | .element e =>
    if e.isVoid then writeStartTag e
    else writeStartTag e ++ (if hasContents then contents else children (rawTextNames.contains e.name)) ++ "</" ++ e.name ++ ">"

theorem write_node (raw : Bool) (id : Nat) (kind : Kind) (contents children : List View) :
    write raw (.node id kind contents children) =
      writeNode raw (Tree.copiedKind kind) kind.contents?.isSome (writeContents contents) (writeAll · children) := by
  cases kind <;> rfl

theorem writeAll_congr_of (h : ∀ v ∈ vs, ∀ w ∈ ws, v.bare = w.bare → ∀ raw, write raw v = write raw w)
    (hbare : bareAll vs = bareAll ws) (raw : Bool) : writeAll raw vs = writeAll raw ws := by
  induction vs generalizing ws with
  | nil =>
    cases ws with
    | nil => rfl
    | cons w ws => exact absurd hbare nofun
  | cons v vs ih =>
    cases ws with
    | nil => exact absurd hbare nofun
    | cons w ws =>
      obtain ⟨hvw, hrest⟩ := List.cons.inj hbare
      rw [writeAll, writeAll, h v List.mem_cons_self w List.mem_cons_self hvw raw,
        ih (fun v hv w hw => h v (List.mem_cons_of_mem _ hv) w (List.mem_cons_of_mem _ hw)) hrest]

theorem writeContents_congr_of
    (h : ∀ v ∈ vs, ∀ w ∈ ws, v.bare = w.bare → ∀ raw, writeAll raw v.children = writeAll raw w.children)
    (hbare : bareAll vs = bareAll ws) : writeContents vs = writeContents ws := by
  induction vs generalizing ws with
  | nil =>
    cases ws with
    | nil => rfl
    | cons w ws => exact absurd hbare nofun
  | cons v vs ih =>
    cases ws with
    | nil => exact absurd hbare nofun
    | cons w ws =>
      obtain ⟨hvw, hrest⟩ := List.cons.inj hbare
      have hraw : rawInside v.kind = rawInside w.kind := by
        rw [← rawInside_copiedKind v.kind, ← rawInside_copiedKind w.kind]
        cases v
        cases w
        exact congrArg rawInside (View.node.inj hvw).2.1
      rw [writeContents_cons, writeContents_cons, hraw, h v List.mem_cons_self w List.mem_cons_self hvw,
        ih (fun v hv w hw => h v (List.mem_cons_of_mem _ hv) w (List.mem_cons_of_mem _ hw)) hrest]

/-- **Views of the same things are written alike**, themselves and what is inside them. -/
theorem write_congr (hv : v.Sealed) (hw : w.Sealed) (hbare : v.bare = w.bare) (raw : Bool) :
    write raw v = write raw w ∧ writeAll raw v.children = writeAll raw w.children := by
  induction v using View.ind generalizing w raw with
  | node id kind contents children ihcontents ihchildren =>
    cases w with
    | node id' kind' contents' children' =>
      obtain ⟨-, hkind, hbarecontents, hbarechildren⟩ := View.node.inj hbare
      have hchildren : ∀ raw, writeAll raw children = writeAll raw children' :=
        writeAll_congr_of (fun v hmem w hmem' hvw raw => (ihchildren v hmem (hv.part (mem_parts_of_children hmem))
          (hw.part (mem_parts_of_children hmem')) hvw raw).1) hbarechildren
      have hcontents : writeContents contents = writeContents contents' :=
        writeContents_congr_of (fun v hmem w hmem' hvw raw => (ihcontents v hmem (hv.part (mem_parts_of_contents hmem))
          (hw.part (mem_parts_of_contents hmem')) hvw raw).2) hbarecontents
      have hempty : contents.isEmpty = contents'.isEmpty := by
        cases contents <;> cases contents' <;> first | rfl | exact absurd hbarecontents nofun
      have hsome : kind.contents?.isSome = kind'.contents?.isSome :=
        (hv _ (mem_parts_self _)).trans ((congrArg (!·) hempty).trans (hw _ (mem_parts_self _)).symm)
      refine ⟨?_, hchildren raw⟩
      rw [write_node, write_node, hkind, hsome, hcontents, funext hchildren]

theorem writeAll_congr (hv : ∀ v ∈ vs, v.Sealed) (hw : ∀ w ∈ ws, w.Sealed) (hbare : bareAll vs = bareAll ws) (raw : Bool) :
    writeAll raw vs = writeAll raw ws :=
  writeAll_congr_of (fun v hmem w hmem' hvw raw => (write_congr (hv v hmem) (hw w hmem') hvw raw).1) hbare raw

/-! ## Documents -/

/-- The nodes of a tree that grows are read as what they show. -/
theorem view?_of_shows (hgrown : t.Grown) (hv : t.Shows v) : t.view? v.id = some v := by
  obtain ⟨w, hw, hid, hshows⟩ := hgrown.exists_view (Tree.lt_size_of_kind hv.agrees.kind)
  rw [hw, Tree.eq_of_shows hshows hv hid]

/-- A document is written as its view. -/
theorem serializeChildren_of_document (hgrown : t.Grown) (hv : t.Shows v) (hid : v.id = Tree.root)
    (hkind : v.kind = .document) : serializeChildren t Tree.root = write false v := by
  have hdocument : t.kind? Tree.root = some .document := hid ▸ hkind ▸ hv.agrees.kind
  have hchildren : t.children Tree.root = v.children.map View.id := hid ▸ hv.agrees.children
  have hread : (v.children.map View.id).filterMap t.view? = v.children :=
    Tree.filterMap_map_id fun u hu => view?_of_shows hgrown (hv.of_mem_children hu)
  have hroot : t.element? Tree.root = none := by
    rw [Tree.element?_eq, ← Tree.kind?_eq, hdocument]
  rw [serializeChildren_of_root hroot fun id hid => (hgrown.linked.parent_iff _ id).2 hid, hchildren]
  refine (congrArg (writeAll false) hread).trans ?_
  cases v with
  | node id kind contents children =>
    obtain rfl : kind = .document := hkind
    rfl

/-- **A document with views in the place of some nodes** is written as its view with the views in their place, if none
of the nodes is in a template. -/
theorem serializeChildren_of_spliced {done : List (Nat × List View)} (h : t.Spliced done t') (hv : t.Shows v)
    (hroot : v.id = Tree.root) (hkind : v.kind = .document) (hid : done.lookup Tree.root = none)
    (hcontents : ∀ w ∈ v.parts, ∀ u ∈ w.contents, ∀ i ∈ u.places, done.lookup i = none)
    (hsealed : ∀ x ∈ done, ∀ u ∈ x.2, u.Sealed) :
    serializeChildren t' Tree.root = writeAll false (v.replaced (done.lookup ·)) := by
  have hgrown' := h.grown
  have hkind' : t'.kind? Tree.root = some .document := by
    obtain ⟨stand, hsub, -⟩ := h
    have hdocument : t.kind? Tree.root = some .document := hroot ▸ hkind ▸ hv.agrees.kind
    exact (hsub.kind _ (Tree.lt_size_of_kind hdocument)).trans hdocument
  obtain ⟨w, -, hwid, hw⟩ := hgrown'.exists_view (Tree.lt_size_of_kind hkind')
  have hwkind : w.kind = .document := Option.some.inj ((hwid ▸ hw.agrees.kind).symm.trans hkind')
  have hbare : bareAll [w] = bareAll (v.replaced (done.lookup ·)) := by
    have hpicture := Tree.picture_of_spliced h hv (hroot ▸ hid) hcontents
    rwa [hroot, ← hwid, Tree.picture_of_shows hgrown' hw] at hpicture
  have hreplaced : ∀ u ∈ v.replaced (done.lookup ·), u.Sealed := by
    refine sealed_replaced (fun i vs hi u hu => ?_) (sealed_of_shows hv)
    obtain ⟨before, after, rfl, -⟩ := List.lookup_eq_some_iff.1 hi
    exact hsealed (i, vs) (List.mem_append_right _ List.mem_cons_self) u hu
  rw [serializeChildren_of_document hgrown' hw hwid hwkind]
  have hone : write false w = writeAll false [w] := (String.append_empty).symm
  rw [hone]
  refine writeAll_congr (fun u hu => ?_) hreplaced hbare false
  rw [List.mem_singleton.1 hu]
  exact sealed_of_shows hw

end Html

end LiveMarkup
