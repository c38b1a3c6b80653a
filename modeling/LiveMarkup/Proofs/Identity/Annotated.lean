/-
A tree with its tokens written into it.

Writing the tokens changes one attribute of every element and nothing else, so the tree then shows the
forest whose elements carry their tokens (`depicts_annotate`). Main fact: every element gets one token, as
`Assigned` says, all tokens are distinct, and the tree with its tokens written into it gets the same tokens
again (`assign_distinct_and_kept`).
-/
import LiveMarkup.Proofs.Identity.Named
import LiveMarkup.Proofs.Identity.Tokens

set_option autoImplicit false

namespace LiveMarkup.Identity

open Html

variable {s : Scheme}

/-! ## Carried tokens -/

theorem find?_setIn (name value : String) (attributes : List Attribute) :
    ((Element.setIn name value attributes).find? fun a => Text.eqIgnoreCase a.name name).map (·.value)
      = some value := by
  induction attributes with
  | nil =>
    have hname : Text.eqIgnoreCase name name = true := beq_self_eq_true _
    simp only [Element.setIn, List.find?_cons, hname, Option.map_some]
  | cons a rest ih =>
    rw [Element.setIn]
    by_cases hname : Text.eqIgnoreCase a.name name = true
    · simp only [hname, if_true, List.find?_cons, Option.map_some]
    · simp only [hname, Bool.false_eq_true, if_false, List.find?_cons]
      exact ih

/-- An element carries the token that is written into it. -/
theorem written?_setAttribute (e : Element) {token : String} (h : token ≠ "") :
    written? s (e.setAttribute s.key token) = some token := by
  have hvalue : (e.setAttribute s.key token).attribute? s.key = some token := find?_setIn _ _ _
  have hne : token.isEmpty = false := by
    rw [← Bool.not_eq_true, String.isEmpty_iff]
    exact h
  rw [written?, hvalue, Option.filter_some, hne]
  rfl

/-! ## The forest with its tokens -/

/-- A forest with the tokens of its elements written into them. -/
def label (s : Scheme) (written : List String) : Progress → Forest → Forest × Progress
  | p, .nil => (.nil, p)
  | p, .text t rest =>
    let after := label s written p rest
    (.text t after.1, after.2)
  | p, .comment t rest =>
    let after := label s written p rest
    (.comment t after.1, after.2)
  | p, .element e inside rest =>
    let here := claim s written p e
    let under := label s written here.2 inside
    let after := label s written under.2 rest
    (.element (e.setAttribute s.key here.1) under.1 after.1, after.2)

/-- The forest of a source with all its tokens. -/
def labelAll (s : Scheme) (f : Forest) : Forest := (label s (writtenIn s f) ⟨[], 0⟩ f).1

/-- The tokens of the elements of a forest. -/
def tokensOf (s : Scheme) (f : Forest) : List String :=
  (claimAll s (writtenIn s f) ⟨[], 0⟩ f.elements).1

theorem label_progress (s : Scheme) (written : List String) (p : Progress) (f : Forest) :
    (label s written p f).2 = (claimAll s written p f.elements).2 := by
  induction f generalizing p with
  | nil => rfl
  | text t rest ih => exact ih p
  | comment t rest ih => exact ih p
  | element e inside rest ihi ihr =>
    rw [label, ihr, ihi, Forest.elements_element, claimAll, claimAll_append]

/-- The walk over a forest gives the tokens of its elements. -/
theorem tokens_named (s : Scheme) (written : List String) (around : Span) (p : Progress) (lo : Nat) (f : Forest) :
    (named s written around p lo f).1.map (·.token) = (claimAll s written p f.elements).1 ∧
      (named s written around p lo f).2 = (claimAll s written p f.elements).2 := by
  induction f generalizing around p lo with
  | nil => exact ⟨rfl, rfl⟩
  | text t rest ih => exact ih around p (lo + 1)
  | comment t rest ih => exact ih around p (lo + 1)
  | element e inside rest ihi ihr =>
    simp only [named, Forest.elements_element, claimAll, claimAll_append, List.map_cons, List.map_append,
      (ihi _ _ _).1, (ihi _ _ _).2, (ihr _ _ _).1, (ihr _ _ _).2, and_self]

/-- The elements of the labelled forest are those of the forest, each with its token. -/
theorem elements_label (s : Scheme) (written : List String) (p : Progress) (f : Forest) :
    (label s written p f).1.elements =
      List.zipWith (fun e token => e.setAttribute s.key token) f.elements (claimAll s written p f.elements).1 := by
  induction f generalizing p with
  | nil => rfl
  | text t rest ih => exact ih p
  | comment t rest ih => exact ih p
  | element e inside rest ihi ihr =>
    have hlength := (length_claimAll s written (claim s written p e).2 inside.elements).symm
    simp only [label, Forest.elements_element, claimAll, claimAll_append, List.zipWith_cons_cons]
    rw [List.zipWith_append hlength, ihi, ihr, label_progress]

/-- Every element of the labelled forest carries its token. -/
theorem written_labelAll (s : Scheme) (f : Forest) :
    (labelAll s f).elements.map (written? s) = (tokensOf s f).map some := by
  unfold labelAll tokensOf
  rw [elements_label]
  have hlength := length_claimAll s (writtenIn s f) ⟨[], 0⟩ f.elements
  have hne := claimAll_ne_empty s (writtenIn s f) ⟨[], 0⟩ f.elements
  revert hlength hne
  generalize (claimAll s (writtenIn s f) ⟨[], 0⟩ f.elements).1 = tokens
  generalize f.elements = es
  intro hlength hne
  induction es generalizing tokens with
  | nil => rw [List.length_eq_zero_iff.1 hlength]; rfl
  | cons e rest ih =>
    obtain _ | ⟨token, tokens⟩ := tokens
    · exact absurd hlength nofun
    · rw [List.mem_cons, not_or] at hne
      rw [List.zipWith_cons_cons, List.map_cons, List.map_cons, ih tokens (Nat.succ.inj hlength) hne.2,
        written?_setAttribute e (Ne.symm hne.1)]

/-- **The labelled forest gets the same tokens again.** -/
theorem tokensOf_labelAll (s : Scheme) (f : Forest) : tokensOf s (labelAll s f) = tokensOf s f := by
  have hnodup := (nodup_claimAll s (writtenIn s f) ⟨[], 0⟩ f.elements).1
  exact claimAll_of_written (written_labelAll s f) hnodup fun token _ => List.not_mem_nil

/-! ## The tree with its tokens -/

theorem boxOf_setAttribute (lo : Nat) (e : Element) (name value : String) :
    boxOf lo (e.setAttribute name value) = boxOf lo e := rfl

theorem size_label (s : Scheme) (written : List String) (p : Progress) (f : Forest) :
    (label s written p f).1.size = f.size := by
  induction f generalizing p with
  | nil => rfl
  | text t rest ih => exact congrArg (· + 1) (ih p)
  | comment t rest ih => exact congrArg (· + 1) (ih p)
  | element e inside rest ihi ihr => simp only [label, Forest.size, ihi, ihr, boxOf_setAttribute]

theorem places_label (s : Scheme) (written : List String) (p : Progress) (lo : Nat) (f : Forest) :
    (label s written p f).1.places lo = f.places lo := by
  induction f generalizing p lo with
  | nil => rfl
  | text t rest ih => exact congrArg (lo :: ·) (ih p (lo + 1))
  | comment t rest ih => exact congrArg (lo :: ·) (ih p (lo + 1))
  | element e inside rest _ ihr =>
    simp only [label, Forest.places, ihr, size_label, boxOf_setAttribute]

theorem annotate_append (t : Tree) (s : Scheme) (first second : List Assignment) :
    annotate t s (first ++ second) = annotate (annotate t s first) s second := List.foldl_append

theorem size_annotate (t : Tree) (s : Scheme) (as : List Assignment) : (annotate t s as).size = t.size := by
  induction as generalizing t with
  | nil => rfl
  | cons a rest ih => exact (ih _).trans (Tree.size_modifyElement _ _ _)

/-- Writing tokens changes the elements that get them only. -/
theorem core?_annotate {t : Tree} {as : List Assignment} {i : Nat}
    (h : ∀ a ∈ as, i < a.node ∨ i > a.node) : (annotate t s as).core? i = t.core? i := by
  induction as generalizing t with
  | nil => rfl
  | cons a rest ih =>
    refine (ih fun b hb => h b (List.mem_cons_of_mem a hb)).trans ?_
    refine Tree.core?_modifyElement_ne _ ?_
    rcases h a List.mem_cons_self with hlt | hlt
    · exact Nat.ne_of_lt hlt
    · exact Nat.ne_of_gt hlt

/-- The elements that get tokens stand at places of the forest. -/
theorem node_bounds (written : List String) (around : Span) (p : Progress) (lo : Nat) (f : Forest)
    {a : Assignment} (h : a ∈ (named s written around p lo f).1.map Named.assignment) :
    lo ≤ a.node ∧ lo + f.size > a.node := by
  obtain ⟨n, hn, rfl⟩ := List.mem_map.1 h
  change lo ≤ n.place ∧ lo + f.size > n.place
  have hspot : n.spot ∈ f.spots lo := by
    rw [← spots_named s written around p lo f]
    exact List.mem_map_of_mem hn
  have hbounds := Forest.spot_bounds hspot
  have hbox := Forest.boxOf_eq n.place n.element
  change lo ≤ n.place ∧ boxOf n.place n.element + 1 + n.inside.size ≤ lo + f.size at hbounds
  omega

/-- **Writing the tokens of a forest into a tree that shows it makes the tree show the labelled forest.** -/
theorem shows_annotate {t : Tree} {parent lo : Nat} {f : Forest} (written : List String) (around : Span)
    (p : Progress) (hf : Shows t parent lo f) :
    Shows (annotate t s ((named s written around p lo f).1.map Named.assignment)) parent lo
      (label s written p f).1 := by
  induction f generalizing t parent lo around p with
  | nil => trivial
  | text text rest ih =>
    refine ⟨?_, ih around p hf.2⟩
    rw [core?_annotate]
    · exact hf.1
    · intro a ha
      have := node_bounds written around p (lo + 1) rest ha
      omega
  | comment text rest ih =>
    refine ⟨?_, ih around p hf.2⟩
    rw [core?_annotate]
    · exact hf.1
    · intro a ha
      have := node_bounds written around p (lo + 1) rest ha
      omega
  | element e inside rest ihi ihr =>
    obtain ⟨hc, hh, hi, hr⟩ := hf
    have hbox := Forest.boxOf_eq lo e
    let here := claim s written p e
    let span := e.location.elim around (·.span)
    let under := named s written span here.2 (boxOf lo e + 1) inside
    let after := named s written around under.2 (boxOf lo e + 1 + inside.size) rest
    have hunder : under.2 = (label s written here.2 inside).2 := by
      rw [label_progress]
      exact (tokens_named s written span here.2 (boxOf lo e + 1) inside).2
    -- first the element, then those inside it, then those after it
    let first := t.modifyElement lo (·.setAttribute s.key here.1)
    let second := annotate first s (under.1.map Named.assignment)
    let third := annotate second s (after.1.map Named.assignment)
    have hwhole : annotate t s ((named s written around p lo (.element e inside rest)).1.map Named.assignment)
        = third := by
      simp only [named, List.map_cons, List.map_append]
      exact annotate_append first s _ _
    have hfirst : ∀ i, i ≠ lo → first.core? i = t.core? i := fun i hne => Tree.core?_modifyElement_ne _ hne
    have hsecond : ∀ i, i < boxOf lo e + 1 ∨ boxOf lo e + 1 + inside.size ≤ i →
        second.core? i = first.core? i := by
      intro i hi
      refine core?_annotate fun a ha => ?_
      have := node_bounds written span here.2 (boxOf lo e + 1) inside ha
      omega
    have hthird : ∀ i, i < boxOf lo e + 1 + inside.size → third.core? i = second.core? i := by
      intro i hi
      refine core?_annotate fun a ha => ?_
      have := node_bounds written around under.2 (boxOf lo e + 1 + inside.size) rest ha
      omega
    rw [hwhole]
    have hplaces := places_label s written here.2 (boxOf lo e + 1) inside
    have hsize := size_label s written here.2 inside
    refine ⟨hc, ?_, ?_, ?_⟩
    · rw [boxOf_setAttribute, hplaces]
      have hset : Holds first parent lo (e.setAttribute s.key here.1) (inside.places (boxOf lo e + 1)) := by
        refine holds_modifyElement rfl ?_ hh
        unfold placed
        rw [show isTemplate (e.setAttribute s.key here.1) = isTemplate e from rfl]
        split <;> rfl
      refine holds_congr ?_ hset
      intro i hlo hhi
      rw [boxOf_setAttribute] at hhi
      rw [hthird i (by omega), hsecond i (by omega)]
    · rw [boxOf_setAttribute]
      have hinside : Shows first (boxOf lo e) (boxOf lo e + 1) inside :=
        shows_congr (fun i hlo _ => hfirst i (by omega)) hi
      refine shows_congr ?_ (ihi span here.2 hinside)
      intro i _ hhi
      exact hthird i (by rw [← hsize]; exact hhi)
    · rw [boxOf_setAttribute, hsize, ← hunder]
      have hrest : Shows second parent (boxOf lo e + 1 + inside.size) rest := by
        refine shows_congr ?_ hr
        intro i hlo _
        rw [hsecond i (by omega), hfirst i (by omega)]
      exact ihr around under.2 hrest

/-- **A tree with its tokens written into it shows the labelled forest.** -/
theorem depicts_annotate {t : Tree} {f : Forest} (h : Depicts t f) (s : Scheme) (length : Nat) :
    Depicts (annotate t s (assign t s length)) (labelAll s f) := by
  rw [assign_of_depicts h]
  refine ⟨?_, shows_annotate _ _ _ h.shows, ?_⟩
  · unfold nameAll labelAll
    rw [places_label, core?_annotate]
    · exact h.document
    · intro a ha
      have := node_bounds (writtenIn s f) ⟨0, length⟩ ⟨[], 0⟩ 1 f ha
      unfold Tree.root
      omega
  · unfold labelAll
    rw [size_annotate, size_label, h.size]

/-! ## Tokens of a tree -/

theorem tokens_assign {t : Tree} {f : Forest} (h : Depicts t f) (s : Scheme) (length : Nat) :
    (assign t s length).map (·.token) = tokensOf s f := by
  rw [assign_of_depicts h, List.map_map]
  exact (tokens_named s (writtenIn s f) ⟨0, length⟩ ⟨[], 0⟩ 1 f).1

/-- The elements that get tokens are those of the tree, in document order. -/
theorem nodes_assign {t : Tree} {f : Forest} (h : Depicts t f) (s : Scheme) (length : Nat) :
    (assign t s length).map (·.node) = (f.spots 1).map (·.1) := by
  rw [assign_of_depicts h, List.map_map, ← spots_named s (writtenIn s f) ⟨0, length⟩ ⟨[], 0⟩ 1 f, List.map_map]
  rfl

theorem spots_label (s : Scheme) (written : List String) (p : Progress) (lo : Nat) (f : Forest) :
    ((label s written p f).1.spots lo).map (·.1) = (f.spots lo).map (·.1) := by
  induction f generalizing p lo with
  | nil => rfl
  | text t rest ih => exact ih p (lo + 1)
  | comment t rest ih => exact ih p (lo + 1)
  | element e inside rest ihi ihr =>
    simp only [label, Forest.spots, List.map_cons, List.map_append, ihi, ihr, size_label, boxOf_setAttribute]

theorem isElement_of_core {t : Tree} {id : Nat} {c : Core} (h : t.core? id = some c) :
    t.isElement id = match c.kind with | .element _ => true | _ => false := by
  rw [Tree.isElement, Tree.element?_eq, h, Option.map_some]
  cases c.kind <;> rfl

/-- The elements among the places of a forest. -/
theorem filter_isElement {t : Tree} {parent lo : Nat} {f : Forest} (hf : Shows t parent lo f) :
    (List.range' lo f.size).filter t.isElement = (f.spots lo).map (·.1) := by
  induction f generalizing parent lo with
  | nil => rfl
  | text text rest ih =>
    have hhere : ¬ t.isElement lo = true := by rw [isElement_of_core hf.1]; exact Bool.false_ne_true
    rw [Forest.size, List.range'_succ, List.filter_cons_of_neg hhere, ih hf.2, Forest.spots]
  | comment text rest ih =>
    have hhere : ¬ t.isElement lo = true := by rw [isElement_of_core hf.1]; exact Bool.false_ne_true
    rw [Forest.size, List.range'_succ, List.filter_cons_of_neg hhere, ih hf.2, Forest.spots]
  | element e inside rest ihi ihr =>
    obtain ⟨-, hh, hi, hr⟩ := hf
    have hbox := Forest.boxOf_eq lo e
    -- the place of the element, with that of the contents of a template
    have hhere : (List.range' lo (boxOf 0 e + 1)).filter t.isElement = [lo] := by
      unfold Holds at hh
      by_cases ht : isTemplate e
      · rw [if_pos ht] at hh
        have helement : t.isElement lo = true := by rw [isElement_of_core hh.1]
        have hcontents : ¬ t.isElement (lo + 1) = true := by
          rw [isElement_of_core hh.2]
          exact Bool.false_ne_true
        rw [boxOf, if_pos ht, List.range'_succ, List.range'_succ, List.range'_zero,
          List.filter_cons_of_pos helement, List.filter_cons_of_neg hcontents, List.filter_nil]
      · rw [if_neg ht] at hh
        have helement : t.isElement lo = true := by rw [isElement_of_core hh]
        rw [boxOf, if_neg ht, List.range'_succ, List.range'_zero, List.filter_cons_of_pos helement,
          List.filter_nil]
    have hsplit : List.range' lo (Forest.element e inside rest).size
        = List.range' lo (boxOf 0 e + 1) ++ (List.range' (boxOf lo e + 1) inside.size
          ++ List.range' (boxOf lo e + 1 + inside.size) rest.size) := by
      rw [List.range'_append_1, hbox, Nat.add_assoc lo, List.range'_append_1, Forest.size, Nat.add_assoc]
    rw [hsplit, List.filter_append, List.filter_append, hhere, ihi hi, ihr hr, Forest.spots, List.map_cons,
      List.map_append]
    rfl

/-- Every element of a tree that shows a forest is one of the forest. -/
theorem filter_isElement_of_depicts {t : Tree} {f : Forest} (h : Depicts t f) :
    (List.range t.size).filter t.isElement = (f.spots 1).map (·.1) := by
  have hroot : ¬ t.isElement 0 = true := by
    rw [show (0 : NodeId) = Tree.root from rfl, isElement_of_core h.document]
    exact Bool.false_ne_true
  rw [h.size, List.range_eq_range', Nat.add_comm, List.range'_succ, List.filter_cons_of_neg hroot,
    filter_isElement h.shows]

/-- **Every element gets one token, all tokens are distinct, and they stay.** The elements of the tree get
their tokens in document order: the elements at all places of the tree, the contents of a template after
the template. An element keeps the token that it carries, unless an element before it carries the same;
any other one gets a new token that no element carries. In the tree with all tokens written into it every
element gets its token again. -/
theorem assign_distinct_and_kept {source : String} {t : Tree} (h : Html.parse source = .ok t) (s : Scheme)
    (length : Nat) :
    (assign t s length).map (·.node) = t.allElements.map (·.1) ∧
      (assign t s length).map (·.node) = (List.range t.size).filter t.isElement ∧
      Assigned s (t.allElements.map (·.2)) [] 0 (t.allElements.map (·.2)) ((assign t s length).map (·.token)) ∧
      ((assign t s length).map (·.token)).Nodup ∧ "" ∉ (assign t s length).map (·.token) ∧
      (assign (annotate t s (assign t s length)) s length).map (fun a => (a.node, a.token)) =
        (assign t s length).map fun a => (a.node, a.token) := by
  obtain ⟨f, -, hd⟩ : ∃ f, forestOf source = .ok f ∧ Depicts t f := by
    rcases parse_cases source with ⟨e, hp, -⟩ | ⟨t', f, hp, hf, hd⟩
    · rw [h] at hp
      cases hp
    · rw [h] at hp
      obtain rfl := Except.ok.inj hp
      exact ⟨f, hf, hd⟩
  have hspots : (f.spots 1).map (·.1) = t.allElements.map (·.1) := by
    rw [allElements_of_depicts hd, List.map_map]
    rfl
  -- the tokens that the elements of the tree carry are those of the forest
  have hcarry : (t.allElements.map (·.2)).map (written? s) = f.elements.map (written? s) := by
    rw [allElements_of_depicts hd, Forest.elements, Forest.nodes_eq_spots 1]
    simp only [List.map_map, Function.comp_def, written?_placed]
  have hagain := depicts_annotate hd s length
  rw [nodes_assign hd, tokens_assign hd]
  refine ⟨hspots, (filter_isElement_of_depicts hd).symm, ?_, ?_, ?_, ?_⟩
  · unfold tokensOf
    rw [writtenIn, claimAll_congr hcarry.symm, ← filterMap_written hcarry]
    have hstart : Claimed s (t.allElements.map (·.2)) [] ⟨[], 0⟩ := by
      intro token _
      constructor
      · intro h
        exact absurd h List.not_mem_nil
      · rintro ⟨e, he, -⟩
        exact absurd he List.not_mem_nil
    exact assigned_claimAll (fun e he => he) hstart
  · exact (nodup_claimAll s _ _ _).1
  · exact claimAll_ne_empty s _ _ _
  · have hnodes : ((labelAll s f).spots 1).map (·.1) = (f.spots 1).map (·.1) := spots_label s _ _ 1 f
    rw [← List.zip_map', ← List.zip_map', nodes_assign hagain, nodes_assign hd, tokens_assign hagain,
      tokens_assign hd, tokensOf_labelAll, hnodes]

/-- A template holds an element with a token that would be the first new one, and one that carries the same
token again. -/
theorem assign_of_template :
    ∃ t, Html.parse "<p></p><template><b data-vellum-id=v1></b><i data-vellum-id=v1></i></template>" = .ok t ∧
      (assign t .default 79).map (fun a => (a.node, a.token)) = [(1, "v2"), (2, "v3"), (4, "v1"), (5, "v4")] ∧
      ((assign t .default 79).map (·.token)).Nodup ∧
      (assign (annotate t .default (assign t .default 79)) .default 79).map (fun a => (a.node, a.token)) =
        [(1, "v2"), (2, "v3"), (4, "v1"), (5, "v4")] := by
  have hseen :
      (Html.parse "<p></p><template><b data-vellum-id=v1></b><i data-vellum-id=v1></i></template>").map
        (fun t => (assign t .default 79).map fun a => (a.node, a.token))
      = .ok [(1, "v2"), (2, "v3"), (4, "v1"), (5, "v4")] := by cbv
  cases hp : Html.parse "<p></p><template><b data-vellum-id=v1></b><i data-vellum-id=v1></i></template>" with
  | error e =>
    rw [hp] at hseen
    cases hseen
  | ok t =>
    rw [hp] at hseen
    have hgiven := Except.ok.inj hseen
    obtain ⟨-, -, -, hnodup, -, hagain⟩ := assign_distinct_and_kept hp .default 79
    exact ⟨t, rfl, hgiven, hnodup, hagain.trans hgiven⟩

end LiveMarkup.Identity
