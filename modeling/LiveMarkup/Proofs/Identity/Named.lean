/-
The tokens of a forest.

The walk that gives every element its token is told here on the forest of a text: `nameAll` lists the
elements in document order with what is inside them, their tokens and their spans. What the tree says of
the element that a token names, and where it can be edited, is read from that list
(`textSpan?_eq`, `openingTag?_eq`).
-/
import LiveMarkup.Identity.Canonical
import LiveMarkup.Proofs.Html.Views
import LiveMarkup.Source.Edit

set_option autoImplicit false

namespace LiveMarkup.Identity

open Html

/-- An element of a forest with its token. -/
structure Named where
  /-- The place of the element in the tree. -/
  place : Nat
  /-- The element. -/
  element : Element
  /-- What is inside it. -/
  inside : Forest
  /-- Its token. -/
  token : String
  /-- Its bytes, or those of the element around it. -/
  span : Span
deriving DecidableEq, Repr

/-- What the map says of an element. -/
def Named.assignment (n : Named) : Assignment := ⟨n.place, n.token, n.span⟩

/-- The tokens of the elements of a forest from a place on, where `around` are the bytes of the element
around it. -/
def named (s : Scheme) (written : List String) : Span → Progress → Nat → Forest → List Named × Progress
  | _, p, _, .nil => ([], p)
  | around, p, lo, .text _ rest => named s written around p (lo + 1) rest
  | around, p, lo, .comment _ rest => named s written around p (lo + 1) rest
  | around, p, lo, .element e inside rest =>
    let span := e.location.elim around (·.span)
    let (token, p) := claim s written p e
    let (under, p) := named s written span p (boxOf lo e + 1) inside
    let (after, p) := named s written around p (boxOf lo e + 1 + inside.size) rest
    (⟨lo, e, inside, token, span⟩ :: (under ++ after), p)

/-- The tokens written in a forest. -/
def writtenIn (s : Scheme) (f : Forest) : List String := f.elements.filterMap (written? s)

/-- The elements of a forest that was read from so many bytes, with their tokens. -/
def nameAll (s : Scheme) (length : Nat) (f : Forest) : List Named :=
  (named s (writtenIn s f) ⟨0, length⟩ ⟨[], 0⟩ 1 f).1

theorem written?_placed (s : Scheme) (id : Nat) (e : Element) : written? s (placed id e) = written? s e := by
  unfold written? Element.attribute?
  rw [attributes_placed]

theorem claim_placed (s : Scheme) (written : List String) (p : Progress) (id : Nat) (e : Element) :
    claim s written p (placed id e) = claim s written p e := by
  unfold claim
  rw [written?_placed]

theorem location_placed (id : Nat) (e : Element) : (placed id e).location = e.location := by
  unfold placed
  split <;> rfl

/-- The walk over the views of a forest gives the tokens of the forest. -/
theorem assignAll_views (s : Scheme) (written : List String) (around : Span) (p : Progress) (lo : Nat)
    (f : Forest) :
    assignAll s written around p (f.views lo) =
      ((named s written around p lo f).1.map Named.assignment, (named s written around p lo f).2) := by
  induction f generalizing around p lo with
  | nil => rfl
  | text t rest ih => simp only [Forest.views, assignAll, assignIn, named, ih, List.nil_append]
  | comment t rest ih => simp only [Forest.views, assignAll, assignIn, named, ih, List.nil_append]
  | element e inside rest ihi ihr =>
    have hbox := Forest.boxOf_eq lo e
    by_cases ht : isTemplate e
    · have hboxOf : boxOf lo e = lo + 1 := if_pos ht
      simp only [Forest.views, ht, if_true, assignAll, assignIn, named, ihi, ihr, claim_placed,
        location_placed, hboxOf, List.append_nil, List.map_cons, List.map_append, List.cons_append]
      rfl
    · have hboxOf : boxOf lo e = lo := if_neg ht
      simp only [Forest.views, ht, assignAll, assignIn, named, ihi, ihr, claim_placed,
        location_placed, hboxOf, List.nil_append, List.map_cons, List.map_append, List.cons_append,
        Bool.false_eq_true, if_false]
      rfl

theorem writtenIn_views (s : Scheme) (lo : Nat) (f : Forest) :
    (View.elementsOf (f.views lo)).filterMap (fun x => written? s x.2) = writtenIn s f := by
  rw [elementsOf_views, writtenIn, Forest.elements, Forest.nodes_eq_spots lo, List.map_map, List.filterMap_map,
    List.filterMap_map]
  simp only [Function.comp_def, written?_placed]

/-- **The tokens of a tree are those of the forest that it shows.** -/
theorem assign_of_depicts {t : Tree} {f : Forest} (h : Depicts t f) (s : Scheme) (length : Nat) :
    assign t s length = (nameAll s length f).map Named.assignment := by
  rw [assign, view?_of_depicts h]
  simp only [View.elements, View.elementsOf, List.nil_append, View.children]
  rw [writtenIn_views, assignAll_views]
  rfl

/-! ## The element that a token names -/

/-- An element with its place and what is inside it. -/
def Named.spot (n : Named) : Nat × Element × Forest := (n.place, n.element, n.inside)

theorem spots_named (s : Scheme) (written : List String) (around : Span) (p : Progress) (lo : Nat) (f : Forest) :
    (named s written around p lo f).1.map Named.spot = f.spots lo := by
  induction f generalizing around p lo with
  | nil => rfl
  | text t rest ih => exact ih around p (lo + 1)
  | comment t rest ih => exact ih around p (lo + 1)
  | element e inside rest ihi ihr =>
    simp only [named, List.map_cons, List.map_append, ihi, ihr, Forest.spots]
    rfl

theorem spot_of_nameAll {s : Scheme} {length : Nat} {f : Forest} {n : Named} (hn : n ∈ nameAll s length f) :
    n.spot ∈ f.spots 1 := by
  rw [← spots_named s (writtenIn s f) ⟨0, length⟩ ⟨[], 0⟩]
  exact List.mem_map_of_mem hn

/-- The element of a forest that a token names. -/
def seek? (s : Scheme) (length : Nat) (f : Forest) (token : String) : Option Named :=
  (nameAll s length f).find? fun n => n.token == token

end LiveMarkup.Identity

namespace LiveMarkup.Source

open Html Identity

/-- Whether all outermost nodes of a forest can stand in text that is edited as a whole. -/
def flat : Forest → Bool
  | .nil => true
  | .text _ rest => flat rest
  | .comment _ rest => flat rest
  | .element e _ rest => isFlat (.element e) && flat rest

theorem isFlat_placed (id : Nat) (e : Element) : isFlat (.element (placed id e)) = isFlat (.element e) := by
  unfold placed
  split <;> rfl

theorem any_isFlat {t : Tree} {id : Nat} {c : Core} (hc : t.core? id = some c) :
    ((t.get? id).any fun node => isFlat node.kind) = isFlat c.kind := by
  obtain ⟨node, hnode, rfl⟩ := Option.map_eq_some_iff.1 hc
  rw [hnode]
  rfl

theorem all_flat {t : Tree} {parent lo : Nat} {f : Forest} (hf : Shows t parent lo f) :
    ((f.places lo).all fun child => (t.get? child).any (isFlat ·.kind)) = flat f := by
  induction f generalizing parent lo with
  | nil => rfl
  | text s rest ih =>
    rw [Forest.places, List.all_cons, any_isFlat hf.1, ih hf.2]
    rfl
  | comment s rest ih =>
    rw [Forest.places, List.all_cons, any_isFlat hf.1, ih hf.2]
    rfl
  | element e inside rest _ ih =>
    obtain ⟨-, hh, -, hr⟩ := hf
    have hplaced : ((t.get? lo).any fun node => isFlat node.kind) = isFlat (.element e) := by
      rw [← isFlat_placed lo e]
      unfold Holds at hh
      split at hh
      · exact any_isFlat hh.1
      · exact any_isFlat hh
    rw [Forest.places, List.all_cons, hplaced, ih hr, flat]

theorem locate?_eq {s : Scheme} {source token : String} {t : Tree} {f : Forest} (hp : Html.parse source = .ok t)
    (hd : Depicts t f) :
    locate? s source token =
      (seek? s source.utf8ByteSize f token).map fun n => (t, n.place, placed n.place n.element) := by
  have hfind : find? t s source.utf8ByteSize token
      = (seek? s source.utf8ByteSize f token).map Named.assignment := by
    rw [find?, assign_of_depicts hd, List.find?_map]
    rfl
  unfold locate?
  simp only [hp, Except.toOption, Option.bind_eq_bind, Option.bind_some, hfind]
  cases hn : seek? s source.utf8ByteSize f token with
  | none => rfl
  | some n =>
    obtain ⟨-, ⟨parent, hh⟩, -⟩ := holds_of_spot hd.shows (spot_of_nameAll (List.mem_of_find?_eq_some hn))
    have helement : t.element? n.assignment.node = some (placed n.place n.element) := element?_of_holds hh
    simp only [Option.map_some, Option.bind_some, helement]
    rfl

/-- The text of an element of a forest, when it can be edited. -/
def textOf? (source : String) (n : Named) : Option Span := do
  if n.element.isVoid then none
  let span ← innerSpan? source n.element.name (← n.element.location)
  if flat n.inside ∧ span.fits source.toList then some span else none

/-- The start tag of an element of a forest, taken apart. -/
def tagOf? (s : Scheme) (n : Named) : Option (Span × Bool × OpeningTag) :=
  n.element.location.map fun l =>
    (l.startTag, n.element.isVoid,
      ⟨n.element.name, n.element.attributes.filter fun a => !Text.eqIgnoreCase a.name s.key,
        n.element.attributes.find? fun a => Text.eqIgnoreCase a.name s.key, l.selfClosing⟩)

theorem children_content {t : Tree} {parent id : Nat} {e : Element} {kids : List Nat}
    (hc : e.contents = none) (hh : Holds t parent id e kids) :
    t.children ((t.contents? id).getD id) = kids := by
  have helement := element?_of_holds hh
  unfold Holds at hh
  rw [Tree.contents?, helement, Option.bind_some]
  split at hh
  · rename_i ht
    rw [placed, if_pos ht]
    exact Tree.children_of_core hh.2
  · rename_i ht
    rw [placed, if_neg ht, hc]
    exact Tree.children_of_core hh

/-- **The text that can be edited is read from the forest of the source.** -/
theorem textSpan?_eq {s : Scheme} {source token : String} {t : Tree} {f : Forest}
    (hp : Html.parse source = .ok t) (hd : Depicts t f) :
    textSpan? s source token = (seek? s source.utf8ByteSize f token).bind (textOf? source) := by
  unfold textSpan?
  rw [locate?_eq hp hd]
  cases hn : seek? s source.utf8ByteSize f token with
  | none => rfl
  | some n =>
    obtain ⟨hc, ⟨parent, hh⟩, hi⟩ := holds_of_spot hd.shows (spot_of_nameAll (List.mem_of_find?_eq_some hn))
    -- the tree and the forest agree on whether the element holds nothing but text
    have hflat : ((t.children ((t.contents? n.place).getD n.place)).all fun child =>
        (t.get? child).any (isFlat ·.kind)) = flat n.inside := by
      have hkids : t.children ((t.contents? n.place).getD n.place)
          = n.inside.places (boxOf n.place n.element + 1) := children_content hc hh
      rw [hkids]
      exact all_flat hi
    simp only [Option.map_some, Option.bind_eq_bind, Option.bind_some, textOf?, isVoid_placed, name_placed,
      location_placed, hflat]
    by_cases hv : n.element.isVoid
    · rw [if_pos hv, if_pos hv]
      rfl
    · rw [if_neg hv, if_neg hv]
      by_cases hflat : flat n.inside
      · simp only [hflat, if_true, true_and]
      · simp only [hflat, if_false, false_and, Bool.false_eq_true]

/-- **The start tag that can be edited is read from the forest of the source.** -/
theorem openingTag?_eq {s : Scheme} {source token : String} {t : Tree} {f : Forest}
    (hp : Html.parse source = .ok t) (hd : Depicts t f) :
    openingTag? s source token = (seek? s source.utf8ByteSize f token).bind (tagOf? s) := by
  unfold openingTag?
  rw [locate?_eq hp hd]
  cases seek? s source.utf8ByteSize f token with
  | none => rfl
  | some n =>
    simp only [Option.map_some, Option.bind_eq_bind, Option.bind_some, tagOf?, isVoid_placed, name_placed,
      location_placed, attributes_placed]
    cases n.element.location with
    | none => rfl
    | some l => rfl

end LiveMarkup.Source
