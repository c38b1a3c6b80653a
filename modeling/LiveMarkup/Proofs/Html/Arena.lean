/-
The builder's tree shows the forest of its draft.

The builder hands out places in the order in which nodes are opened, so the places of a forest are
known once its first place is: a forest takes an interval of places, an element stands before what is
inside it, and the contents of a template take the place after it. `Shows` says that a tree holds a
forest from a place on, and `Pictures` that a builder holds a draft. Every step of the builder keeps
it (`agree_read`), so the tree of a text shows the forest that is read from its tokens (`build_cases`).
-/
import LiveMarkup.Proofs.Dom.Core
import LiveMarkup.Proofs.Html.Forest
import LiveMarkup.Proofs.Html.Shape

set_option autoImplicit false

namespace LiveMarkup.Html

/-! ## The places of a forest -/

/-- The place of the node whose children are what is inside an element: its own, or that of the
contents of a template. -/
def boxOf (id : Nat) (e : Element) : Nat := if isTemplate e then id + 1 else id

namespace Forest

/-- How many places a forest takes. -/
def size : Forest → Nat
  | nil => 0
  | text _ rest => rest.size + 1
  | comment _ rest => rest.size + 1
  | element e inside rest => boxOf 0 e + 1 + inside.size + rest.size

/-- The places of the outermost nodes of a forest from a place on. -/
def places (lo : Nat) : Forest → List Nat
  | nil => []
  | text _ rest => lo :: rest.places (lo + 1)
  | comment _ rest => lo :: rest.places (lo + 1)
  | element e inside rest => lo :: rest.places (boxOf lo e + 1 + inside.size)

theorem boxOf_eq (lo : Nat) (e : Element) : boxOf lo e = lo + boxOf 0 e := by
  unfold boxOf
  split <;> omega

@[simp] theorem size_append (f g : Forest) : (f ++ g).size = f.size + g.size := by
  induction f with
  | nil => simp [size]
  | text s rest ih => simp [size, ih]; omega
  | comment s rest ih => simp [size, ih]; omega
  | element e i rest _ ih => simp [size, ih]; omega

theorem places_append (f g : Forest) (lo : Nat) :
    (f ++ g).places lo = f.places lo ++ g.places (lo + f.size) := by
  induction f generalizing lo with
  | nil => rfl
  | text s rest ih => rw [text_append, places, places, ih, size, List.cons_append]; congr 3; omega
  | comment s rest ih => rw [comment_append, places, places, ih, size, List.cons_append]; congr 3; omega
  | element e i rest _ ih =>
    rw [element_append, places, places, ih, size, List.cons_append, boxOf_eq lo e]
    congr 3
    omega

end Forest

/-! ## A tree that holds a forest -/

/-- An element as it stands in a tree: the element of a template says where its contents are. -/
def placed (id : Nat) (e : Element) : Element :=
  if isTemplate e then { e with contents := some (id + 1) } else e

/-- An element stands at a place of a tree with what is inside it. -/
def Holds (t : Tree) (parent id : Nat) (e : Element) (kids : List Nat) : Prop :=
  if isTemplate e then
    t.core? id = some ⟨.element (placed id e), some parent, []⟩ ∧
      t.core? (id + 1) = some ⟨.fragment none, none, kids⟩
  else t.core? id = some ⟨.element (placed id e), some parent, kids⟩

theorem boxOf_relocate (id : Nat) (record : Location → Location) (e : Element) :
    boxOf id (relocate record e) = boxOf id e := rfl

theorem placed_relocate (id : Nat) (record : Location → Location) (e : Element) :
    placed id (relocate record e) = relocate record (placed id e) := by
  by_cases ht : isTemplate e
  · simp only [placed, show isTemplate (relocate record e) = true from ht, ht, if_true]
    rfl
  · have ht' : ¬ isTemplate (relocate record e) = true := ht
    rw [placed, placed, if_neg ht, if_neg ht']

/-- The tree holds a forest among the children of a node, from a place on. -/
def Shows (t : Tree) : Nat → Nat → Forest → Prop
  | _, _, .nil => True
  | parent, lo, .text s rest => t.core? lo = some ⟨.text s, some parent, []⟩ ∧ Shows t parent (lo + 1) rest
  | parent, lo, .comment s rest =>
    t.core? lo = some ⟨.comment s, some parent, []⟩ ∧ Shows t parent (lo + 1) rest
  | parent, lo, .element e inside rest =>
    e.contents = none ∧ Holds t parent lo e (inside.places (boxOf lo e + 1)) ∧
      Shows t (boxOf lo e) (boxOf lo e + 1) inside ∧ Shows t parent (boxOf lo e + 1 + inside.size) rest

theorem holds_congr {t t' : Tree} {parent id : Nat} {e : Element} {kids : List Nat}
    (h : ∀ i, id ≤ i → i ≤ boxOf id e → t'.core? i = t.core? i) (hh : Holds t parent id e kids) :
    Holds t' parent id e kids := by
  unfold Holds at hh ⊢
  unfold boxOf at h
  split
  · rename_i ht
    rw [if_pos ht] at hh
    rw [if_pos ht] at h
    exact ⟨(h id (Nat.le_refl _) (Nat.le_succ _)).trans hh.1,
      (h (id + 1) (Nat.le_succ _) (Nat.le_refl _)).trans hh.2⟩
  · rename_i ht
    rw [if_neg ht] at hh
    rw [if_neg ht] at h
    exact (h id (Nat.le_refl _) (Nat.le_refl _)).trans hh

/-- An element that is changed in a way that does not touch its contents stands where it did. -/
theorem holds_modifyElement {t : Tree} {parent id : Nat} {e : Element} {kids : List Nat}
    {f : Element → Element} (hf : isTemplate (f e) = isTemplate e) (hp : f (placed id e) = placed id (f e))
    (hh : Holds t parent id e kids) : Holds (t.modifyElement id f) parent id (f e) kids := by
  unfold Holds at hh ⊢
  rw [hf, ← hp]
  split
  · rename_i ht
    rw [if_pos ht] at hh
    exact ⟨Tree.core?_modifyElement_self hh.1,
      (Tree.core?_modifyElement_ne _ (Nat.succ_ne_self _)).trans hh.2⟩
  · rename_i ht
    rw [if_neg ht] at hh
    exact Tree.core?_modifyElement_self hh

/-- Whether a tree holds a forest depends on the places of the forest only. -/
theorem shows_congr {t t' : Tree} {parent lo : Nat} {f : Forest}
    (h : ∀ i, lo ≤ i → i < lo + f.size → t'.core? i = t.core? i) (hf : Shows t parent lo f) :
    Shows t' parent lo f := by
  induction f generalizing parent lo with
  | nil => trivial
  | text s rest ih =>
    refine ⟨(h lo (Nat.le_refl _) (by simp [Forest.size])).trans hf.1, ih ?_ hf.2⟩
    intro i hlo hhi
    exact h i (by omega) (by simp only [Forest.size]; omega)
  | comment s rest ih =>
    refine ⟨(h lo (Nat.le_refl _) (by simp [Forest.size])).trans hf.1, ih ?_ hf.2⟩
    intro i hlo hhi
    exact h i (by omega) (by simp only [Forest.size]; omega)
  | element e inside rest ihi ihr =>
    obtain ⟨hc, hh, hi, hr⟩ := hf
    have hbox := Forest.boxOf_eq lo e
    simp only [Forest.size] at h
    refine ⟨hc, holds_congr ?_ hh, ihi ?_ hi, ihr ?_ hr⟩
    · intro i hlo hhi
      exact h i hlo (by omega)
    · intro i hlo hhi
      exact h i (by omega) (by omega)
    · intro i hlo hhi
      exact h i (by omega) (by omega)

theorem shows_append {t : Tree} {parent lo : Nat} {f g : Forest} :
    Shows t parent lo (f ++ g) ↔ Shows t parent lo f ∧ Shows t parent (lo + f.size) g := by
  induction f generalizing lo with
  | nil => simp [Shows, Forest.size]
  | text s rest ih =>
    have : lo + 1 + rest.size = lo + (rest.size + 1) := by omega
    simp only [Forest.text_append, Shows, ih, Forest.size, and_assoc, this]
  | comment s rest ih =>
    have : lo + 1 + rest.size = lo + (rest.size + 1) := by omega
    simp only [Forest.comment_append, Shows, ih, Forest.size, and_assoc, this]
  | element e inside rest _ ih =>
    have : boxOf lo e + 1 + inside.size + rest.size = lo + (boxOf 0 e + 1 + inside.size + rest.size) := by
      rw [Forest.boxOf_eq lo e]; omega
    simp only [Forest.element_append, Shows, ih, Forest.size, and_assoc, this]

/-! ## A tree that holds open elements -/

/-- The first free place. -/
def nextPlace (done : Forest) : List Frame → Nat
  | [] => 1 + done.size
  | f :: frames => boxOf (nextPlace done frames) f.element + 1 + f.inside.size

/-- The place of the node whose children are being read. -/
def parentPlace (done : Forest) : List Frame → Nat
  | [] => Tree.root
  | f :: frames => boxOf (nextPlace done frames) f.element

/-- The places of the open elements, the innermost first. -/
def openPlaces (done : Forest) : List Frame → List Nat
  | [] => []
  | _ :: frames => nextPlace done frames :: openPlaces done frames

/-- The tree holds the finished nodes and the open elements; `tail` are the children that the innermost
one has besides. -/
def Layered (t : Tree) (done : Forest) : List Frame → List Nat → Prop
  | [], tail => t.core? Tree.root = some ⟨.document, none, done.places 1 ++ tail⟩ ∧ Shows t Tree.root 1 done
  | f :: frames, tail =>
    let id := nextPlace done frames
    let box := boxOf id f.element
    Layered t done frames [id] ∧ f.element.contents = none ∧
      Holds t (parentPlace done frames) id f.element (f.inside.places (box + 1) ++ tail) ∧
      Shows t box (box + 1) f.inside

/-- The node that is being read stands before the first free place. -/
theorem parentPlace_lt (done : Forest) (frames : List Frame) :
    parentPlace done frames < nextPlace done frames := by
  cases frames with
  | nil => simp only [parentPlace, nextPlace, Tree.root]; omega
  | cons f frames => simp only [parentPlace, nextPlace]; omega

/-- Whether a tree holds open elements depends on the places that are taken only. -/
theorem layered_congr {t t' : Tree} {done : Forest} {frames : List Frame} {tail : List Nat}
    (h : ∀ i, i < nextPlace done frames → t'.core? i = t.core? i) (hl : Layered t done frames tail) :
    Layered t' done frames tail := by
  induction frames generalizing tail with
  | nil =>
    refine ⟨(h _ (parentPlace_lt done [])).trans hl.1, shows_congr ?_ hl.2⟩
    intro i _ hi
    exact h i hi
  | cons f frames ih =>
    obtain ⟨hl, hc, hh, hs⟩ := hl
    have hbox := Forest.boxOf_eq (nextPlace done frames) f.element
    simp only [nextPlace] at h
    refine ⟨ih ?_ hl, hc, holds_congr ?_ hh, shows_congr ?_ hs⟩
    · intro i hi
      exact h i (by omega)
    · intro i _ hi
      exact h i (by omega)
    · intro i _ hi
      exact h i hi

/-- The cores of the node that is being read, in a tree that holds open elements and in one where it
has one child more. -/
theorem layered_core {t : Tree} {done : Forest} {frames : List Frame} {tail : List Nat}
    (hl : Layered t done frames tail) :
    ∃ c, t.core? (parentPlace done frames) = some c ∧
      ∀ t' : Tree, ∀ child,
        t'.core? (parentPlace done frames) = some { c with children := c.children ++ [child] } →
        (∀ i, i < nextPlace done frames → i ≠ parentPlace done frames → t'.core? i = t.core? i) →
        Layered t' done frames (tail ++ [child]) := by
  cases frames with
  | nil =>
    refine ⟨_, hl.1, ?_⟩
    intro t' child hp hother
    refine ⟨by rw [← List.append_assoc]; exact hp, shows_congr ?_ hl.2⟩
    intro i hlo hhi
    exact hother i hhi (by simp only [parentPlace, Tree.root]; omega)
  | cons f frames =>
    obtain ⟨hl, hc, hh, hs⟩ := hl
    simp only [parentPlace, nextPlace]
    generalize hid : nextPlace done frames = id at *
    unfold Holds at hh
    -- a template holds its nodes in a fragment of its own, which stands right after it
    by_cases ht : isTemplate f.element
    · have hbox : boxOf id f.element = id + 1 := if_pos ht
      rw [if_pos ht] at hh
      rw [hbox] at hh hs ⊢
      refine ⟨_, hh.2, ?_⟩
      intro t' child hp hother
      simp only [Layered, hid, hbox]
      refine ⟨layered_congr ?_ hl, hc, ?_, shows_congr ?_ hs⟩
      · intro i hi
        exact hother i (by omega) (by omega)
      · unfold Holds
        rw [if_pos ht]
        exact ⟨(hother id (by omega) (by omega)).trans hh.1, by rw [hp, List.append_assoc]⟩
      · intro i hlo hhi
        exact hother i hhi (by omega)
    · have hbox : boxOf id f.element = id := if_neg ht
      rw [if_neg ht] at hh
      rw [hbox] at hh hs ⊢
      refine ⟨_, hh, ?_⟩
      intro t' child hp hother
      simp only [Layered, hid, hbox]
      refine ⟨layered_congr ?_ hl, hc, ?_, shows_congr ?_ hs⟩
      · intro i hi
        exact hother i (by omega) (by omega)
      · unfold Holds
        rw [if_neg ht, hp, List.append_assoc]
      · intro i hlo hhi
        exact hother i hhi (by omega)

/-! ## Finished nodes -/

@[simp] theorem nextPlace_add (d : Draft) (new : Forest) :
    nextPlace (d.add new).done (d.add new).opened = nextPlace d.done d.opened + new.size := by
  obtain ⟨done, opened⟩ := d
  cases opened with
  | nil => simp [Draft.add, Draft.mapCurrent, nextPlace, Nat.add_assoc]
  | cons f frames => simp [Draft.add, Draft.mapCurrent, nextPlace, Nat.add_assoc]

@[simp] theorem openPlaces_mapCurrent (d : Draft) (g : Forest → Forest) :
    openPlaces (d.mapCurrent g).done (d.mapCurrent g).opened = openPlaces d.done d.opened := by
  obtain ⟨done, opened⟩ := d
  cases opened with
  | nil => rfl
  | cons f frames => rfl

/-- Nodes that the innermost open element has as its last children are finished. -/
theorem layered_add {t : Tree} {d : Draft} {new : Forest}
    (hl : Layered t d.done d.opened (new.places (nextPlace d.done d.opened)))
    (hn : Shows t (parentPlace d.done d.opened) (nextPlace d.done d.opened) new) :
    Layered t (d.add new).done (d.add new).opened [] := by
  obtain ⟨done, opened⟩ := d
  cases opened with
  | nil =>
    refine ⟨?_, shows_append.2 ⟨hl.2, hn⟩⟩
    simp only [Draft.add, Draft.mapCurrent, Forest.places_append, List.append_nil]
    exact hl.1
  | cons f frames =>
    obtain ⟨hl, hc, hh, hs⟩ := hl
    refine ⟨hl, hc, ?_, shows_append.2 ⟨hs, hn⟩⟩
    rw [List.append_nil, Forest.places_append]
    exact hh

/-! ## A builder that pictures a draft -/

/-- The builder's tree holds what the draft has read, and the same elements are open. -/
structure Pictures (b : Builder) (d : Draft) : Prop where
  opened : b.opened = openPlaces d.done d.opened
  size : b.tree.size = nextPlace d.done d.opened
  layered : Layered b.tree d.done d.opened []

/-- The element of an open frame stands at its place. -/
theorem element?_of_holds {t : Tree} {parent id : Nat} {e : Element} {kids : List Nat}
    (h : Holds t parent id e kids) : t.element? id = some (placed id e) := by
  rw [Tree.element?_eq]
  unfold Holds at h
  split at h
  · rw [h.1]
    rfl
  · rw [h]
    rfl

theorem keyOf_placed (id : Nat) (e : Element) : keyOf (placed id e) = keyOf e := by
  unfold placed
  split <;> rfl

theorem keys_layered {t : Tree} {done : Forest} {frames : List Frame} {tail : List Nat}
    (hl : Layered t done frames tail) :
    ((openPlaces done frames).filterMap fun id => (t.element? id).map keyOf)
      = frames.map fun f => keyOf f.element := by
  induction frames generalizing tail with
  | nil => rfl
  | cons f frames ih =>
    obtain ⟨hl, -, hh, -⟩ := hl
    rw [openPlaces, List.filterMap_cons, element?_of_holds hh, ih hl, Option.map_some, keyOf_placed]
    rfl

theorem length_openPlaces (done : Forest) (frames : List Frame) :
    (openPlaces done frames).length = frames.length := by
  induction frames with
  | nil => rfl
  | cons f frames ih => rw [openPlaces, List.length_cons, List.length_cons, ih]

namespace Pictures

variable {b : Builder} {d : Draft}

/-- The rules see the same open elements. -/
theorem keys (h : Pictures b d) : b.keys = d.keys := by
  unfold Builder.keys Draft.keys
  rw [h.opened]
  exact keys_layered h.layered

theorem length (h : Pictures b d) : b.opened.length = d.opened.length := by
  rw [h.opened, length_openPlaces]

/-- Nodes are added to the node that is being read. -/
theorem insertionParent (h : Pictures b d) : b.insertionParent = parentPlace d.done d.opened := by
  have hl := h.layered
  unfold Builder.insertionParent
  rw [h.opened]
  cases hd : d.opened with
  | nil => rfl
  | cons f frames =>
    rw [hd] at hl
    obtain ⟨-, hc, hh, -⟩ := hl
    simp only [openPlaces, List.head?_cons, Tree.contents?, element?_of_holds hh, parentPlace,
      Option.bind_some, placed, boxOf]
    split
    · rfl
    · rw [hc]
      rfl

end Pictures

/-! ## What the builder does -/

/-- Closing an element finishes it. -/
theorem layered_close {t : Tree} {done inside : Forest} {e : Element} {frames : List Frame}
    (record : Location → Location) (hl : Layered t done (⟨e, inside⟩ :: frames) []) :
    let d := (⟨done, ⟨e, inside⟩ :: frames⟩ : Draft).close record
    Layered (t.modifyElement (nextPlace done frames) (relocate record)) d.done d.opened [] := by
  obtain ⟨hl, hc, hh, hs⟩ := hl
  change Holds t _ (nextPlace done frames) e (inside.places _ ++ []) at hh
  change Shows t (boxOf (nextPlace done frames) e) _ inside at hs
  have hbox := Forest.boxOf_eq (nextPlace done frames) e
  rw [List.append_nil] at hh
  have hout : Layered (t.modifyElement (nextPlace done frames) (relocate record)) done frames
      [nextPlace done frames] :=
    layered_congr (fun i hi => Tree.core?_modifyElement_ne _ (Nat.ne_of_lt hi)) hl
  refine layered_add (d := ⟨done, frames⟩) hout ⟨hc, ?_, ?_, trivial⟩
  · exact holds_modifyElement rfl (placed_relocate _ record e).symm hh
  · rw [boxOf_relocate]
    refine shows_congr ?_ hs
    intro i hlo _
    refine Tree.core?_modifyElement_ne _ ?_
    change boxOf (nextPlace done frames) e + 1 ≤ i at hlo
    omega

/-- Closing an element takes its places from the open ones and gives none back. -/
theorem places_close (done inside : Forest) (e : Element) (frames : List Frame)
    (record : Location → Location) :
    let d := (⟨done, ⟨e, inside⟩ :: frames⟩ : Draft).close record
    nextPlace d.done d.opened = nextPlace done (⟨e, inside⟩ :: frames) ∧
      openPlaces d.done d.opened = openPlaces done frames := by
  constructor
  · have hbox := Forest.boxOf_eq (nextPlace done frames) e
    simp only [Draft.close, nextPlace_add, nextPlace, Forest.size, boxOf_relocate]
    omega
  · exact openPlaces_mapCurrent ⟨done, frames⟩ _

theorem pictures_pop {b : Builder} {d : Draft} (put : Tree → Nat → Tree) (record : Location → Location)
    (hput : ∀ t id, put t id = t.modifyElement id (relocate record)) (h : Pictures b d) :
    Pictures (b.pop put) (d.close record) := by
  obtain ⟨done, opened⟩ := d
  cases opened with
  | nil =>
    have hb : b.opened = [] := h.opened
    rw [Builder.pop, hb]
    exact h
  | cons f frames =>
    have hb : b.opened = nextPlace done frames :: openPlaces done frames := h.opened
    obtain ⟨hnext, hopen⟩ := places_close done f.inside f.element frames record
    rw [Builder.pop, hb]
    refine ⟨hopen.symm, ?_, ?_⟩
    · simp only [hput, Tree.size_modifyElement, h.size]
      exact hnext.symm
    · simp only [hput]
      exact layered_close record h.layered

/-- A new node becomes the last child of the node that is being read. -/
theorem layered_appendChild {t : Tree} {done : Forest} {frames : List Frame} {tail : List Nat} {k : Core}
    (hl : Layered t done frames tail) (hk : t.core? (nextPlace done frames) = some k)
    (hkp : k.parent = none) :
    let t' := t.appendChild (parentPlace done frames) (nextPlace done frames)
    Layered t' done frames (tail ++ [nextPlace done frames]) ∧
      t'.core? (nextPlace done frames) = some { k with parent := some (parentPlace done frames) } ∧
      ∀ i, nextPlace done frames < i → t'.core? i = t.core? i := by
  have hlt := parentPlace_lt done frames
  obtain ⟨c, hc, hgrow⟩ := layered_core hl
  have hcore := Tree.core?_appendChild hc hk hkp (by omega)
  refine ⟨hgrow _ _ ?_ ?_, ?_, ?_⟩
  · rw [hcore, if_pos rfl]
  · intro i hi hne
    rw [hcore, if_neg hne, if_neg (by omega)]
  · rw [hcore, if_neg (by omega), if_pos rfl]
  · intro i hi
    rw [hcore, if_neg (by omega), if_neg (by omega)]

/-- Allocating a node leaves what the tree holds. -/
theorem layered_alloc {t : Tree} {done : Forest} {frames : List Frame} {tail : List Nat} (kind : Kind)
    (hl : Layered t done frames tail) (hs : nextPlace done frames ≤ t.size) :
    Layered (t.alloc kind).1 done frames tail :=
  layered_congr (fun i hi => Tree.core?_alloc_ne kind (by omega)) hl

/-- A node without children is added to the node that is being read. -/
theorem pictures_insertLeaf {b : Builder} {d : Draft} {kind : Kind} {new : Forest} (h : Pictures b d)
    (hsize : new.size = 1) (hplaces : ∀ lo, new.places lo = [lo])
    (hshows : ∀ t parent lo, Shows t parent lo new ↔ t.core? lo = some ⟨kind, some parent, []⟩) :
    Pictures (b.insertLeaf kind) (d.add new) := by
  have hself := Tree.core?_alloc_self b.tree kind
  rw [h.size] at hself
  obtain ⟨hl, hk, -⟩ := layered_appendChild (layered_alloc kind h.layered (Nat.le_of_eq h.size.symm)) hself rfl
  have hput : (b.insertLeaf kind).tree = (b.tree.alloc kind).1.appendChild
      (parentPlace d.done d.opened) (nextPlace d.done d.opened) := by
    rw [← h.insertionParent, ← h.size]
    rfl
  refine ⟨?_, ?_, ?_⟩
  · exact h.opened.trans (openPlaces_mapCurrent d _).symm
  · rw [hput, Tree.size_appendChild, Tree.size_alloc, nextPlace_add, hsize, h.size]
  · rw [hput]
    refine layered_add ?_ ((hshows _ _ _).2 hk)
    rw [hplaces]
    exact hl

/-- The tree with a new element at its first free place, as the last child of a node. -/
def graft (t : Tree) (parent id : Nat) (e : Element) : Tree :=
  let grown := (t.alloc (.element e)).1
  let grown :=
    if isTemplate e then
      (grown.alloc (.fragment none)).1.modifyElement id fun e => { e with contents := some (id + 1) }
    else grown
  grown.appendChild parent id

theorem layered_graft {t : Tree} {done : Forest} {frames : List Frame} (e : Element)
    (hl : Layered t done frames []) (hs : t.size = nextPlace done frames) :
    let id := nextPlace done frames
    let t' := graft t (parentPlace done frames) id e
    t'.size = boxOf id e + 1 ∧ Layered t' done frames [id] ∧ Holds t' (parentPlace done frames) id e [] := by
  have hself := Tree.core?_alloc_self t (.element e)
  have hl := layered_alloc (.element e) hl (Nat.le_of_eq hs.symm)
  have hsize := Tree.size_alloc t (.element e)
  rw [hs] at hself hsize
  by_cases ht : isTemplate e
  · simp only [graft, ht, if_true, boxOf, Holds, placed]
    generalize hid : nextPlace done frames = id at *
    -- the fragment of a template is the node that is allocated next
    have hfresh := Tree.core?_alloc_self (t.alloc (.element e)).1 (.fragment none)
    rw [hsize] at hfresh
    have hkeep : ((t.alloc (.element e)).1.alloc (.fragment none)).1.core? id
        = some ⟨.element e, none, []⟩ := by
      rw [Tree.core?_alloc_ne _ (by omega)]
      exact hself
    have hset := Tree.core?_modifyElement_self (f := fun e => { e with contents := some (id + 1) }) hkeep
    have hl := layered_alloc (.fragment none) hl (by omega)
    have hl := layered_congr (fun i hi => Tree.core?_modifyElement_ne
      (fun e => { e with contents := some (id + 1) }) (Nat.ne_of_lt (hid ▸ hi))) hl
    obtain ⟨hl, hk, hother⟩ := layered_appendChild hl (by rw [hid]; exact hset) rfl
    rw [hid] at hl hk hother
    refine ⟨?_, hl, hk, ?_⟩
    · rw [Tree.size_appendChild, Tree.size_modifyElement, Tree.size_alloc, hsize]
    · rw [hother _ (Nat.lt_succ_self _), Tree.core?_modifyElement_ne _ (Nat.succ_ne_self _)]
      exact hfresh
  · simp only [graft, ht, boxOf, Holds, placed, Bool.false_eq_true, if_false]
    obtain ⟨hl, hk, -⟩ := layered_appendChild hl hself rfl
    exact ⟨by rw [Tree.size_appendChild, hsize], hl, hk⟩

theorem insertElement_eq {b : Builder} {d : Draft} {e : Element} {stays : Bool} (h : Pictures b d)
    (hroom : ¬ (stays = true ∧ b.maxDepth ≤ b.opened.length)) :
    b.insertElement e stays = .ok { b with
      tree := graft b.tree (parentPlace d.done d.opened) (nextPlace d.done d.opened) e
      opened := if stays then nextPlace d.done d.opened :: b.opened else b.opened } := by
  have hid : (b.tree.alloc (.element e)).2 = nextPlace d.done d.opened := h.size
  have hcontents : ((b.tree.alloc (.element e)).1.alloc (.fragment none)).2
      = nextPlace d.done d.opened + 1 := (Tree.size_alloc _ _).trans (by rw [h.size])
  unfold Builder.insertElement graft
  rw [if_neg hroom]
  simp only [h.insertionParent, hid, hcontents]

/-- What the two runs give at the end of a step: both fail alike, or the results picture each other and
the builder has not moved in the text. -/
inductive Agree (b : Builder) : Except ParseError Builder → Except ParseError Draft → Prop
  | error (e : ParseError) : Agree b (.error e) (.error e)
  | ok {b' : Builder} {d' : Draft} : Pictures b' d' → b'.offset = b.offset → b'.maxDepth = b.maxDepth →
      Agree b (.ok b') (.ok d')

theorem agree_insertElement {b : Builder} {d : Draft} {e : Element} (stays : Bool) (h : Pictures b d)
    (he : e.contents = none) :
    Agree b (b.insertElement e stays) (d.perform b.maxDepth b.offset (.insert e stays)) := by
  -- both refuse at the same depth
  by_cases hdeep : stays = true ∧ b.maxDepth ≤ b.opened.length
  · rw [Builder.insertElement, if_pos hdeep]
    rw [h.length] at hdeep
    simp only [Draft.perform, if_pos hdeep]
    exact .error _
  · rw [insertElement_eq h hdeep]
    rw [h.length] at hdeep
    simp only [Draft.perform, if_neg hdeep]
    obtain ⟨hsize, hl, hh⟩ := layered_graft e h.layered h.size
    have hbox := Forest.boxOf_eq (nextPlace d.done d.opened) e
    cases stays with
    | true =>
      refine .ok ⟨?_, ?_, ⟨hl, he, hh, trivial⟩⟩ rfl rfl
      · exact congrArg (nextPlace d.done d.opened :: ·) h.opened
      · exact hsize
    | false =>
      refine .ok ⟨?_, ?_, layered_add hl ⟨he, hh, trivial, trivial⟩⟩ rfl rfl
      · exact h.opened.trans (openPlaces_mapCurrent d _).symm
      · refine hsize.trans ?_
        rw [nextPlace_add]
        simp only [Forest.size]
        omega

/-- **The builder does to its tree what the draft does to its forest.** -/
theorem agree_perform {b : Builder} {d : Draft} {a : Action} (h : Pictures b d)
    (ha : ∀ e stays, a = .insert e stays → e.contents = none) :
    Agree b (b.perform a) (d.perform b.maxDepth b.offset a) := by
  cases a with
  | note deviation => exact .ok ⟨h.opened, h.size, h.layered⟩ rfl rfl
  | close =>
    have hp := pictures_pop (Builder.closeAt b.offset) (·.closedAt b.offset) (fun _ _ => rfl) h
    refine .ok hp ?_ ?_ <;> (unfold Builder.pop; split <;> rfl)
  | closeBy endTag =>
    have hp := pictures_pop (Builder.closeBy endTag) (·.closedBy endTag) (fun _ _ => rfl) h
    refine .ok hp ?_ ?_ <;> (unfold Builder.pop; split <;> rfl)
  | insert e stays => exact agree_insertElement stays h (ha e stays rfl)

theorem agree_foldlM {b : Builder} {d : Draft} (actions : List Action) (h : Pictures b d)
    (ha : ∀ e stays, .insert e stays ∈ actions → e.contents = none) :
    Agree b (actions.foldlM Builder.perform b) (actions.foldlM (Draft.perform b.maxDepth b.offset) d) := by
  induction actions generalizing b d with
  | nil => exact .ok h rfl rfl
  | cons a rest ih =>
    rw [List.foldlM_cons, List.foldlM_cons]
    have hstep := agree_perform h fun e stays hi => ha e stays (hi ▸ List.mem_cons_self)
    generalize b.perform a = x at hstep
    generalize d.perform b.maxDepth b.offset a = y at hstep
    cases hstep with
    | error e => exact .error e
    | ok hp ho hm =>
      rename_i b' d'
      have hrest := ih hp fun e stays hi => ha e stays (List.mem_cons_of_mem _ hi)
      rw [ho, hm] at hrest
      change Agree b (rest.foldlM Builder.perform b') _
      revert hrest
      generalize rest.foldlM Builder.perform b' = x
      change Agree b' x (rest.foldlM (Draft.perform b.maxDepth b.offset) d')
        → Agree b x (rest.foldlM (Draft.perform b.maxDepth b.offset) d')
      generalize rest.foldlM (Draft.perform b.maxDepth b.offset) d' = y
      rintro (_ | ⟨hp', ho', hm'⟩)
      · exact .error _
      · exact .ok hp' (ho'.trans ho) (hm'.trans hm)

/-! ## Characters -/

theorem Forest.getLast?_places_cons (lo next : Nat) {f : Forest} (hf : f ≠ .nil) :
    (lo :: f.places next).getLast? = (f.places next).getLast? := by
  cases f with
  | nil => exact absurd rfl hf
  | text s rest => exact List.getLast?_cons_cons
  | comment s rest => exact List.getLast?_cons_cons
  | element e i rest => exact List.getLast?_cons_cons

theorem Forest.pushChar_text_of_ne {s : String} {c : Char} {f : Forest} (hf : f ≠ .nil) :
    (text s f).pushChar c = text s (f.pushChar c) := by
  cases f with
  | nil => exact absurd rfl hf
  | text s rest => rfl
  | comment s rest => rfl
  | element e i rest => rfl

/-- A character that does not follow a text begins a new one. -/
theorem pushChar_of_no_text {t : Tree} {parent lo : Nat} {f : Forest} (c : Char) (hf : Shows t parent lo f)
    (hlast : ∀ last, (f.places lo).getLast? = some last → t.text? last = none) :
    f.pushChar c = f ++ .text c.toString .nil := by
  induction f generalizing lo with
  | nil => rfl
  | text s rest ih =>
    by_cases hr : rest = .nil
    · subst hr
      have := hlast lo rfl
      rw [Tree.text?_eq, hf.1] at this
      exact absurd this nofun
    · rw [Forest.pushChar_text_of_ne hr, Forest.text_append, ih hf.2]
      intro last h
      exact hlast last ((Forest.getLast?_places_cons _ _ hr).trans h)
  | comment s rest ih =>
    by_cases hr : rest = .nil
    · subst hr
      rfl
    · rw [Forest.pushChar, Forest.comment_append, ih hf.2]
      intro last h
      exact hlast last ((Forest.getLast?_places_cons _ _ hr).trans h)
  | element e inside rest _ ih =>
    by_cases hr : rest = .nil
    · subst hr
      rfl
    · rw [Forest.pushChar, Forest.element_append, ih hf.2.2.2]
      intro last h
      exact hlast last ((Forest.getLast?_places_cons _ _ hr).trans h)

/-- A character that follows a text is added to it. -/
theorem shows_pushChar {t : Tree} {parent lo last : Nat} {f : Forest} {s : String} (c : Char)
    (hf : Shows t parent lo f) (hlast : (f.places lo).getLast? = some last) (hs : t.text? last = some s) :
    lo ≤ last ∧ last < lo + f.size ∧ (f.pushChar c).size = f.size ∧
      (∀ i, (f.pushChar c).places i = f.places i) ∧
      Shows (t.modifyText last (·.push c)) parent lo (f.pushChar c) := by
  -- the text is the last node, so the induction runs to the end of the forest
  induction f generalizing lo with
  | nil => cases hlast
  | text s' rest ih =>
    by_cases hr : rest = .nil
    · subst hr
      obtain rfl : lo = last := Option.some.inj hlast
      exact ⟨Nat.le_refl _, by simp [Forest.size], rfl, fun _ => rfl, Tree.core?_modifyText_self hf.1, trivial⟩
    · obtain ⟨hlo, hhi, hsize, hplaces, hshows⟩ :=
        ih hf.2 ((Forest.getLast?_places_cons _ _ hr).symm.trans hlast)
      rw [Forest.pushChar_text_of_ne hr]
      refine ⟨by omega, by simp only [Forest.size]; omega, by rw [Forest.size, hsize, Forest.size], ?_,
        (Tree.core?_modifyText_ne _ (by omega)).trans hf.1, hshows⟩
      intro i
      rw [Forest.places, hplaces, Forest.places]
  | comment s' rest ih =>
    by_cases hr : rest = .nil
    · subst hr
      obtain rfl : lo = last := Option.some.inj hlast
      rw [Tree.text?_eq, hf.1] at hs
      cases hs
    · obtain ⟨hlo, hhi, hsize, hplaces, hshows⟩ :=
        ih hf.2 ((Forest.getLast?_places_cons _ _ hr).symm.trans hlast)
      rw [Forest.pushChar]
      refine ⟨by omega, by simp only [Forest.size]; omega, by rw [Forest.size, hsize, Forest.size], ?_,
        (Tree.core?_modifyText_ne _ (by omega)).trans hf.1, hshows⟩
      intro i
      rw [Forest.places, hplaces, Forest.places]
  | element e inside rest _ ih =>
    obtain ⟨hc, hh, hi, hrest⟩ := hf
    by_cases hr : rest = .nil
    · subst hr
      obtain rfl : lo = last := Option.some.inj hlast
      -- an element has no text
      have := element?_of_holds hh
      rw [Tree.element?_eq] at this
      rw [Tree.text?_eq] at hs
      revert this hs
      cases (t.core? lo).map (·.kind) with
      | none => rintro ⟨⟩
      | some kind => cases kind <;> rintro ⟨⟩ ⟨⟩
    · obtain ⟨hlo, hhi, hsize, hplaces, hshows⟩ :=
        ih hrest ((Forest.getLast?_places_cons _ _ hr).symm.trans hlast)
      have hbox := Forest.boxOf_eq lo e
      rw [Forest.pushChar]
      refine ⟨by omega, by simp only [Forest.size]; omega, by rw [Forest.size, hsize, Forest.size], ?_,
        hc, holds_congr ?_ hh, shows_congr ?_ hi, hshows⟩
      · intro i
        rw [Forest.places, hplaces, Forest.places]
      · intro i _ hhi
        exact Tree.core?_modifyText_ne _ (by omega)
      · intro i _ hhi
        exact Tree.core?_modifyText_ne _ (by omega)

/-- The children of the node that is being read, and the forest of them. -/
def Draft.current (d : Draft) : Forest :=
  match d.opened with
  | [] => d.done
  | f :: _ => f.inside

/-- The place from which on the children of the node that is being read stand. -/
theorem layered_current {t : Tree} {d : Draft} (hl : Layered t d.done d.opened []) :
    let p := parentPlace d.done d.opened
    t.children p = d.current.places (p + 1) ∧ Shows t p (p + 1) d.current ∧
      nextPlace d.done d.opened = p + 1 + d.current.size := by
  obtain ⟨done, opened⟩ := d
  cases opened with
  | nil =>
    refine ⟨?_, hl.2, ?_⟩
    · rw [parentPlace, Tree.children_of_core hl.1, List.append_nil]
      rfl
    · simp only [nextPlace, parentPlace, Draft.current, Tree.root]
  | cons f frames =>
    obtain ⟨-, hc, hh, hs⟩ := hl
    refine ⟨?_, hs, rfl⟩
    unfold Holds at hh
    rw [List.append_nil] at hh
    simp only [parentPlace, Draft.current]
    unfold boxOf at hh ⊢
    split
    · rename_i ht
      rw [if_pos ht, if_pos ht] at hh
      exact Tree.children_of_core hh.2
    · rename_i ht
      rw [if_neg ht, if_neg ht] at hh
      exact Tree.children_of_core hh

/-- The last text of the node that is being read is changed with its forest. -/
theorem layered_mapCurrent {t t' : Tree} {d : Draft} {g : Forest → Forest}
    (hl : Layered t d.done d.opened [])
    (hother : ∀ i, i ≤ parentPlace d.done d.opened → t'.core? i = t.core? i)
    (hplaces : ∀ i, (g d.current).places i = d.current.places i) (hsize : (g d.current).size = d.current.size)
    (hshows : Shows t' (parentPlace d.done d.opened) (parentPlace d.done d.opened + 1) (g d.current)) :
    Layered t' (d.mapCurrent g).done (d.mapCurrent g).opened [] ∧
      nextPlace (d.mapCurrent g).done (d.mapCurrent g).opened = nextPlace d.done d.opened := by
  obtain ⟨done, opened⟩ := d
  cases opened with
  | nil =>
    simp only [Draft.current, parentPlace] at *
    refine ⟨⟨?_, hshows⟩, by simp only [Draft.mapCurrent, nextPlace, hsize]⟩
    rw [hother _ (Nat.le_refl _)]
    simp only [Draft.mapCurrent, hplaces]
    exact hl.1
  | cons f frames =>
    obtain ⟨hl, hc, hh, hs⟩ := hl
    change ∀ i, i ≤ boxOf (nextPlace done frames) f.element → _ at hother
    have hbox := Forest.boxOf_eq (nextPlace done frames) f.element
    have hl : Layered t' done frames [nextPlace done frames] :=
      layered_congr (fun i hi => hother i (by omega)) hl
    refine ⟨⟨hl, hc, ?_, hshows⟩, ?_⟩
    · have hh := holds_congr (fun i _ hi => hother i hi) hh
      simp only [Draft.current] at hplaces
      simp only [hplaces]
      exact hh
    · simp only [Draft.current] at hsize
      simp only [Draft.mapCurrent, nextPlace, hsize]

/-- A character is added to the same text, or begins a text in the same place. -/
theorem pictures_insertCharacter {b : Builder} {d : Draft} (c : Char) (h : Pictures b d) :
    Pictures (b.insertCharacter c) (d.mapCurrent (·.pushChar c)) := by
  obtain ⟨hchildren, hshows, -⟩ := layered_current h.layered
  rw [← h.insertionParent] at hchildren
  -- what does not follow a text begins one
  have leaf : d.current.pushChar c = d.current ++ .text c.toString .nil →
      Pictures (b.insertLeaf (.text c.toString)) (d.mapCurrent (·.pushChar c)) := by
    intro hpush
    have hd : d.mapCurrent (·.pushChar c) = d.add (.text c.toString .nil) := by
      obtain ⟨done, opened⟩ := d
      cases opened with
      | nil => exact congrArg (Draft.mk · []) hpush
      | cons f frames => exact congrArg (fun inside => (⟨done, ⟨f.element, inside⟩ :: frames⟩ : Draft)) hpush
    rw [hd]
    exact pictures_insertLeaf h rfl (fun _ => rfl) (fun _ _ _ => and_iff_left trivial)
  unfold Builder.insertCharacter
  cases hlast : (b.tree.children b.insertionParent).getLast? with
  | none =>
    refine leaf (pushChar_of_no_text c hshows ?_)
    intro last hl
    rw [hchildren, h.insertionParent, hl] at hlast
    exact absurd hlast nofun
  | some last =>
    have hlast' := hlast
    rw [hchildren, h.insertionParent] at hlast'
    cases hs : b.tree.text? last with
    | none =>
      simp only [hs, Option.isSome_none, Bool.false_eq_true, if_false]
      refine leaf (pushChar_of_no_text c hshows ?_)
      intro last' hl
      rw [hlast'] at hl
      rw [← Option.some.inj hl]
      exact hs
    | some s =>
      simp only [hs, Option.isSome_some, if_true]
      obtain ⟨hlo, -, hsize, hplaces, hpush⟩ := shows_pushChar c hshows hlast' hs
      obtain ⟨hl, hnext⟩ := layered_mapCurrent (g := (·.pushChar c)) h.layered
        (fun i hi => Tree.core?_modifyText_ne _ (by omega)) hplaces hsize hpush
      exact ⟨h.opened.trans (openPlaces_mapCurrent d _).symm,
        by rw [Tree.size_modifyText, h.size, hnext], hl⟩

/-! ## Tokens -/

theorem contents_of_own {tag : StartTag} {e : Element} (h : Plan.Own tag e) : e.contents = none := by
  cases h <;> rfl

theorem contents_of_startTag {opened : List Key} {tag : StartTag} {e : Element} {stays : Bool}
    (hi : .insert e stays ∈ ((Plan.start opened).startTag tag).actions) : e.contents = none := by
  rcases Plan.insert_startTag hi with ⟨name, -, rfl⟩ | hown
  · rfl
  · exact contents_of_own hown

theorem contents_of_endTag {opened : List Key} {name : String} {span : Span} {e : Element} {stays : Bool}
    (hi : .insert e stays ∈ ((Plan.start opened).endTag name span).actions) : e.contents = none := by
  rcases Plan.insert_endTag hi with ⟨implied, -, rfl⟩ | ⟨-, hown⟩
  · rfl
  · exact contents_of_own hown

theorem pictures_closeAll (offset : Nat) {t : Tree} {d : Draft} (hs : t.size = nextPlace d.done d.opened)
    (hl : Layered t d.done d.opened []) :
    let t' := (openPlaces d.done d.opened).foldl (Builder.closeAt offset) t
    t'.size = nextPlace (d.closeAll offset).done [] ∧ (d.closeAll offset).opened = [] ∧
      Layered t' (d.closeAll offset).done [] [] := by
  -- `closeAll` goes through the open elements as they were before it; the length is what is left of them
  suffices ∀ (frames : List Frame) (t : Tree) (d : Draft), frames.length = d.opened.length →
      t.size = nextPlace d.done d.opened → Layered t d.done d.opened [] →
      let t' := (openPlaces d.done d.opened).foldl (Builder.closeAt offset) t
      let d' := frames.foldl (fun d _ => d.close (·.closedAt offset)) d
      t'.size = nextPlace d'.done [] ∧ d'.opened = [] ∧ Layered t' d'.done [] [] from
    this d.opened t d rfl hs hl
  intro frames
  induction frames with
  | nil =>
    intro t d hlen hs hl
    have hd : d.opened = [] := List.length_eq_zero_iff.1 hlen.symm
    rw [hd] at hs hl ⊢
    exact ⟨hs, hd, hl⟩
  | cons f frames ih =>
    intro t d hlen hs hl
    obtain ⟨done, opened⟩ := d
    cases opened with
    | nil => exact absurd hlen nofun
    | cons f' rest =>
      obtain ⟨hnext, hopen⟩ := places_close done f'.inside f'.element rest (·.closedAt offset)
      have hl := layered_close (·.closedAt offset) hl
      have := ih _ ((⟨done, f' :: rest⟩ : Draft).close (·.closedAt offset)) ?_ ?_ hl
      · rw [hopen] at this
        exact this
      · have hlength := congrArg List.length hopen
        rw [length_openPlaces, length_openPlaces] at hlength
        exact (Nat.succ.inj hlen).trans hlength.symm
      · rw [Tree.size_modifyElement, hs]
        exact hnext.symm

theorem insertCharacter_eq (b : Builder) (c : Char) : ∃ tree, b.insertCharacter c = { b with tree } := by
  unfold Builder.insertCharacter
  split
  · split
    · exact ⟨_, rfl⟩
    · exact ⟨_, rfl⟩
  · exact ⟨_, rfl⟩

/-- **Reading a token keeps the picture.** -/
theorem agree_read {b : Builder} {d : Draft} (token : Token) (h : Pictures b d) :
    Agree b (b.read token) (d.read b.maxDepth b.offset token) := by
  cases token with
  | character c =>
    have hp := pictures_insertCharacter c h
    obtain ⟨tree, htree⟩ := insertCharacter_eq b c
    simp only [Builder.read, Draft.read, htree] at hp ⊢
    exact .ok hp rfl rfl
  | comment data span =>
    exact .ok (pictures_insertLeaf h rfl (fun _ => rfl) fun _ _ _ => and_iff_left trivial) rfl rfl
  | doctype name span => exact .ok ⟨h.opened, h.size, h.layered⟩ rfl rfl
  | startTag name selfClosing attributes span =>
    simp only [Builder.read, Draft.read, h.keys]
    exact agree_foldlM _ h fun e stays hi => contents_of_startTag hi
  | endTag name span =>
    simp only [Builder.read, Draft.read, h.keys]
    exact agree_foldlM _ h fun e stays hi => contents_of_endTag hi
  | endOfFile offset =>
    obtain ⟨hs, hd, hl⟩ := pictures_closeAll offset h.size h.layered
    rw [← h.opened] at hs hl
    exact .ok ⟨by rw [hd]; rfl, by rw [hd]; exact hs, by rw [hd]; exact hl⟩ rfl rfl

/-- Whether two runs over all tokens agree. -/
theorem readAll_agree {b : Builder} {d : Draft} (tokens : List Token) (h : Pictures b d) :
    (∃ e, b.readAll tokens = .error e ∧ d.readAll b.maxDepth b.offset tokens = .error e) ∨
      ∃ b' d', b.readAll tokens = .ok b' ∧ d.readAll b.maxDepth b.offset tokens = .ok d' ∧ Pictures b' d' := by
  induction tokens generalizing b d with
  | nil => exact .inr ⟨b, d, rfl, rfl, h⟩
  | cons token rest ih =>
    have hread := agree_read (b := { b with offset := offsetAt b.offset token }) token
      ⟨h.opened, h.size, h.layered⟩
    simp only [Builder.readAll, Draft.readAll]
    revert hread
    generalize Builder.read { b with offset := offsetAt b.offset token } token = x
    change Agree _ x (d.read b.maxDepth (offsetAt b.offset token) token) → _
    generalize d.read b.maxDepth (offsetAt b.offset token) token = y
    rintro (e | ⟨hp, ho, hm⟩)
    · exact .inl ⟨e, rfl, rfl⟩
    · rename_i b' d'
      have ho : b'.offset = offsetAt b.offset token := ho
      have hm : b'.maxDepth = b.maxDepth := hm
      rw [← ho, ← hm]
      exact ih (b := { b' with token := b.token + 1 }) (d := d') ⟨hp.opened, hp.size, hp.layered⟩

/-! ## The tree of a text -/

/-- A tree that consists of a document with a forest. -/
structure Depicts (t : Tree) (f : Forest) : Prop where
  document : t.core? Tree.root = some ⟨.document, none, f.places 1⟩
  shows : Shows t Tree.root 1 f
  size : t.size = 1 + f.size

theorem pictures_start (limit : Nat) : Pictures (.start limit) .start :=
  ⟨rfl, rfl, rfl, trivial⟩

/-- **The tree that the builder makes of tokens shows the forest that is grown from them.** One fails
exactly when the other does, and with the same error. -/
theorem build_cases (limit : Nat) (tokens : List Token) (n : Nat) :
    (∃ e, build limit (tokens ++ [.endOfFile n]) = .error e ∧
        grow limit (tokens ++ [.endOfFile n]) = .error e) ∨
      ∃ t issues f, build limit (tokens ++ [.endOfFile n]) = .ok (t, issues) ∧
        grow limit (tokens ++ [.endOfFile n]) = .ok f ∧ Depicts t f := by
  unfold build grow
  rcases readAll_agree (tokens ++ [.endOfFile n]) (pictures_start limit) with
    ⟨e, hb, hd⟩ | ⟨b, d, hb, hd, hp⟩
  · change Draft.start.readAll limit 0 _ = _ at hd
    rw [hb, hd]
    exact .inl ⟨e, rfl, rfl⟩
  · change Draft.start.readAll limit 0 _ = _ at hd
    obtain ⟨opened, size, layered⟩ := hp
    rw [Draft.opened_of_readAll hd] at opened size layered
    rw [hb, hd]
    refine .inr ⟨b.tree, b.issues.toList, d.done, rfl, rfl, ?_, layered.2, size⟩
    exact layered.1.trans (by rw [List.append_nil])

end LiveMarkup.Html
