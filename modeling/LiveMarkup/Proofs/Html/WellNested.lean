/-
Elements that are well nested.

A start tag that leaves out end tags closes what it cannot stand in. Every element of a text stands where its tag
closes nothing more (`settled_of_spot`), so in the tree no paragraph is inside another unless an element between
the two ends the search for an open one, and likewise for links and buttons; headings and options are not
children of their like, and the parts of a table stand in one another as they should (`wellNested_of_parse`).
-/
import LiveMarkup.Proofs.Html.Ancestry
import LiveMarkup.Proofs.Html.Grown

set_option autoImplicit false

namespace LiveMarkup.Html

open Plan Spot

/-! ## The statement -/

/-- Whether an element ends the search for an open element: an element of HTML of one of some names, or one of
another language that holds HTML. -/
def Key.endsScope (barriers : List String) (k : Key) : Bool :=
  if k.space == .html then barriers.contains k.name
  else isIntegrationPoint k.space k.name || k.name == "annotation-xml"

/-- The elements of HTML of some names in a tree. -/
def htmlNamed (t : Tree) (names : List String) : List (NodeId × Element) :=
  t.allElements.filter fun x => (keyOf x.2).isHtml names

/-- Between a node and one inside it stands an element that satisfies `f`. -/
def Separated (t : Tree) (f : Key → Bool) (outer inner : NodeId) : Prop :=
  ∃ z ∈ t.allElements, f (keyOf z.2) = true ∧ t.Descends outer z.1 ∧ t.Descends z.1 inner

/-- A tree in which elements do not stand where their start tags would have closed something. -/
structure WellNested (t : Tree) : Prop where
  paragraph : ∀ x ∈ htmlNamed t ["p"], ∀ y ∈ htmlNamed t ["p"], t.Descends x.1 y.1 →
    Separated t (Key.endsScope buttonScopeNames) x.1 y.1
  link : ∀ x ∈ htmlNamed t ["a"], ∀ y ∈ htmlNamed t ["a"], t.Descends x.1 y.1 →
    Separated t (Key.endsScope scopeNames) x.1 y.1
  button : ∀ x ∈ htmlNamed t ["button"], ∀ y ∈ htmlNamed t ["button"], t.Descends x.1 y.1 →
    Separated t (Key.endsScope scopeNames) x.1 y.1
  heading : ∀ x ∈ htmlNamed t headings, ∀ y ∈ htmlNamed t headings, y.1 ∉ t.children x.1
  option : ∀ x ∈ htmlNamed t ["option"], ∀ y ∈ htmlNamed t ["option", "optgroup"], y.1 ∉ t.children x.1
  tablePart : ∀ y ∈ htmlNamed t tablePartNames,
    ∃ x ∈ htmlNamed t (tableParents y.2.name), t.parent? y.1 = some x.1

/-! ## Elements among those around them -/

/-- What is searched for and not found in scope is behind an element that ends the search. -/
theorem endsScope_of_inScopeOf {name : String} {barriers : List String} {above below : List Key} {k : Key}
    (h : inScopeOf name barriers true (above ++ k :: below) = false) (hk : k.isHtml [name] = true) :
    ∃ z ∈ above, z.endsScope barriers = true := by
  induction above with
  | nil =>
    obtain ⟨hspace, hname⟩ := isHtml_iff.1 hk
    rw [List.nil_append, inScopeOf_html hspace, List.mem_singleton.1 hname, beq_self_eq_true, Bool.true_or] at h
    exact absurd h nofun
  | cons a above ih =>
    cases hends : a.endsScope barriers with
    | true => exact ⟨a, List.mem_cons_self, hends⟩
    | false =>
      rw [Key.endsScope] at hends
      -- the search goes on past an element that does not end it
      have hnext : inScopeOf name barriers true (above ++ k :: below) = false := by
        rw [List.cons_append, inScopeOf] at h
        split at h
        · rename_i hspace
          rw [if_pos hspace] at hends
          rw [hends, Bool.not_false, Bool.true_and, Bool.or_eq_false_iff] at h
          exact h.2
        · rename_i hspace
          rw [if_neg hspace] at hends
          rw [hends, Bool.and_false, Bool.not_false, Bool.true_and] at h
          exact h
      obtain ⟨z, hz, hzends⟩ := ih hnext
      exact ⟨z, List.mem_cons_of_mem _ hz, hzends⟩

/-- **An element stands among those around it as its start tag puts it there.** -/
theorem stands_of_spot {opened : List Key} {lo : Nat} {f : Forest} (hf : f.Grown opened) {y : Spot}
    (hy : y ∈ f.spots lo) : ∃ tag, Stands ((f.around lo y).map key ++ opened) tag y.2.1 := by
  induction f generalizing opened lo with
  | nil => exact absurd hy List.not_mem_nil
  | text s rest ih => exact ih hf.2.2 hy
  | comment s rest ih => exact ih hf.2 hy
  | element e inside rest ihi ihr =>
    obtain ⟨hstands, -, hinside, hrest⟩ := hf
    rcases Forest.spots_element.1 hy with rfl | hy | hy
    · rw [Forest.around_self]
      exact hstands
    · rw [Forest.around_inside hy, List.map_append, List.append_assoc]
      exact ihi hinside hy
    · rw [Forest.around_rest hy]
      exact ihr hrest hy

/-- An element of HTML is settled among those around it. -/
theorem settled_of_spot {f : Forest} (hf : f.Grown []) {y : Spot} (hy : y ∈ f.spots 1) (hspace : y.2.1.space = .html) :
    Settled ((f.around 1 y).map key) y.2.1.name := by
  obtain ⟨tag, hstands⟩ := stands_of_spot hf hy
  rw [List.append_nil] at hstands
  have hname : y.2.1.name = tag.name := by
    rw [hstands.name, hspace]
    rfl
  rw [hname]
  exact hstands.html hspace

/-! ## In the tree -/

section Tree

variable {t : Tree} {f : Forest} {names : List String} {y : Spot}

theorem mem_htmlNamed (hd : Depicts t f) {x : NodeId × Element} : x ∈ htmlNamed t names ↔
    ∃ s ∈ f.spots 1, (key s).isHtml names = true ∧ x = (s.1, placed s.1 s.2.1) := by
  rw [htmlNamed, List.mem_filter, allElements_of_depicts hd, List.mem_map]
  constructor
  · rintro ⟨⟨s, hs, rfl⟩, hnames⟩
    rw [keyOf_placed] at hnames
    exact ⟨s, hs, hnames, rfl⟩
  · rintro ⟨s, hs, hnames, rfl⟩
    refine ⟨⟨s, hs, rfl⟩, ?_⟩
    rw [keyOf_placed]
    exact hnames

/-- An element around another one is separated from it when elements around that one satisfy `f` first. -/
theorem separated_of_around (hd : Depicts t f) {g : Key → Bool} {x : Spot} (hx : x ∈ f.spots 1) (hy : y ∈ f.spots 1)
    {above below : List Spot} (haround : f.around 1 y = above ++ x :: below)
    (h : ∃ k ∈ above.map key, g k = true) : Separated t g x.1 y.1 := by
  obtain ⟨k, hk, hg⟩ := h
  obtain ⟨z, hz, rfl⟩ := List.mem_map.1 hk
  obtain ⟨hspot, hxz, hzy⟩ := Forest.between_of_around haround hz
  refine ⟨(z.1, placed z.1 z.2.1), ?_, ?_, (descends_iff_encloses hd hx hspot).2 hxz,
    (descends_iff_encloses hd hspot hy).2 hzy⟩
  · rw [allElements_of_depicts hd]
    exact List.mem_map_of_mem hspot
  · rw [keyOf_placed]
    exact hg

/-- Elements of a name that are not open in scope where others of the name are added are separated from them. -/
theorem separated_of_scope (hd : Depicts t f) {name : String} {barriers : List String}
    (hscope : ∀ y ∈ f.spots 1, (key y).isHtml [name] = true →
      inScopeOf name barriers true ((f.around 1 y).map key) = false) :
    ∀ x ∈ htmlNamed t [name], ∀ y ∈ htmlNamed t [name], t.Descends x.1 y.1 →
      Separated t (Key.endsScope barriers) x.1 y.1 := by
  intro x hx y hy hdesc
  obtain ⟨sx, hsx, hxname, rfl⟩ := (mem_htmlNamed hd).1 hx
  obtain ⟨sy, hsy, hyname, rfl⟩ := (mem_htmlNamed hd).1 hy
  have hmem : sx ∈ f.around 1 sy := Forest.mem_around.2 ⟨hsx, (descends_iff_encloses hd hsx hsy).1 hdesc⟩
  -- what is around the inner element is what was open when it was added, the outer one among it
  obtain ⟨above, below, haround⟩ := List.append_of_mem hmem
  have hnone := hscope sy hsy hyname
  rw [haround, List.map_append, List.map_cons] at hnone
  exact separated_of_around hd hsx hsy haround (endsScope_of_inScopeOf hnone hxname)

/-- Elements that are not added while certain others are innermost are no children of those. -/
theorem not_child_of_notIn (hd : Depicts t f) {parents : List String}
    (hnot : ∀ y ∈ f.spots 1, (key y).isHtml names = true → NotIn parents ((f.around 1 y).map key)) :
    ∀ x ∈ htmlNamed t parents, ∀ y ∈ htmlNamed t names, y.1 ∉ t.children x.1 := by
  intro x hx y hy hchild
  obtain ⟨sx, hsx, hxname, rfl⟩ := (mem_htmlNamed hd).1 hx
  obtain ⟨sy, hsy, hyname, rfl⟩ := (mem_htmlNamed hd).1 hy
  obtain ⟨hhead, -⟩ := (parent_iff hd hsx hsy).1 (parent_of_child hd hsx hchild)
  have hnone := hnot sy hsy hyname
  rw [NotIn, List.head?_map, hhead, Option.map_some, Option.any_some, hxname] at hnone
  exact absurd hnone nofun

/-- The innermost element around another one is its parent, unless it is a template. -/
theorem parent_of_head (hd : Depicts t f) (hy : y ∈ f.spots 1) {parents : List String}
    (hparents : "template" ∉ parents) (h : ((f.around 1 y).map key).head?.any (Key.isHtml parents) = true) :
    ∃ x ∈ htmlNamed t parents, t.parent? y.1 = some x.1 := by
  rw [List.head?_map, Option.any_map, Option.any_eq_true] at h
  obtain ⟨x, hhead, hnames⟩ := h
  have hx := (Forest.mem_around.1 (List.mem_of_mem_head? hhead)).1
  have htemplate : isTemplate x.2.1 = false := by
    rw [Bool.eq_false_iff]
    intro ht
    rw [isTemplate, Bool.and_eq_true] at ht
    have hname : x.2.1.name ∈ parents := (isHtml_iff.1 hnames).2
    rw [eq_of_beq ht.2] at hname
    exact hparents hname
  exact ⟨(x.1, placed x.1 x.2.1), (mem_htmlNamed hd).2 ⟨x, hx, hnames, rfl⟩, (parent_iff hd hx hy).2 ⟨hhead, htemplate⟩⟩

end Tree

/-! ## What settled elements say -/

section Settled

variable {opened : List Key} {name : String}

theorem notIn_of_heading (h : Settled opened name) (hname : name ∈ headings) : NotIn headings opened := by
  have hby := h.byName
  simp only [headings, List.mem_cons, List.not_mem_nil, or_false] at hname
  rcases hname with rfl | rfl | rfl | rfl | rfl | rfl <;> exact hby.2

theorem notIn_of_option (h : Settled opened name) (hname : name ∈ ["option", "optgroup"]) : NotIn ["option"] opened := by
  have hby := h.byName
  simp only [List.mem_cons, List.not_mem_nil, or_false] at hname
  rcases hname with rfl | rfl <;> exact hby

theorem head_of_tablePart (h : Settled opened name) (hname : name ∈ tablePartNames) :
    opened.head?.any (Key.isHtml (tableParents name)) = true := by
  have hby := h.byName
  simp only [tablePartNames, List.mem_cons, List.not_mem_nil, or_false] at hname
  rcases hname with rfl | rfl | rfl | rfl | rfl | rfl | rfl | rfl | rfl <;> exact hby.2

end Settled

theorem template_not_parent (name : String) : "template" ∉ tableParents name := by
  unfold tableParents
  split
  · decide
  split
  · decide
  split <;> decide

/-- **Implied end tags keep the tree of a text well nested.** -/
theorem wellNested_of_parse {source : String} {t : Tree} (h : parse source = .ok t) : WellNested t := by
  obtain ⟨f, hf, hd⟩ := forest_of_parse h
  have hgrown := grown_of_text hf
  have hsettled : ∀ {names : List String} {y : Spot}, y ∈ f.spots 1 → (key y).isHtml names = true →
      Settled ((f.around 1 y).map key) y.2.1.name ∧ y.2.1.name ∈ names := by
    intro names y hy hnames
    obtain ⟨hspace, hname⟩ := isHtml_iff.1 hnames
    exact ⟨settled_of_spot hgrown hy hspace, hname⟩
  -- the rule of a single name
  have hrule : ∀ {name : String} {y : Spot}, y ∈ f.spots 1 → (key y).isHtml [name] = true →
      SettledBy ((f.around 1 y).map key) name := by
    intro name y hy hnames
    obtain ⟨hset, hname⟩ := hsettled hy hnames
    rw [← List.mem_singleton.1 hname]
    exact hset.byName
  refine ⟨?_, ?_, ?_, ?_, ?_, ?_⟩
  · exact separated_of_scope hd fun y hy hname => hrule hy hname
  · exact separated_of_scope hd fun y hy hname => hrule hy hname
  · exact separated_of_scope hd fun y hy hname => hrule hy hname
  · exact not_child_of_notIn hd fun y hy hname => notIn_of_heading (hsettled hy hname).1 (hsettled hy hname).2
  · exact not_child_of_notIn hd fun y hy hname => notIn_of_option (hsettled hy hname).1 (hsettled hy hname).2
  · intro y hy
    obtain ⟨sy, hsy, hyname, rfl⟩ := (mem_htmlNamed hd).1 hy
    obtain ⟨hset, hname⟩ := hsettled hsy hyname
    rw [name_placed]
    exact parent_of_head hd hsy (template_not_parent _) (head_of_tablePart hset hname)

/-- A paragraph in a button that stands in a paragraph, and a cell that the text leaves the row out of. -/
theorem wellNested_of_button :
    ∃ t, parse "<p><button><p>a</button><table><td>b" = .ok t ∧
      (t.allElements.map fun x => (x.1, x.2.name, t.parent? x.1)) =
        [(1, "p", some 0), (2, "button", some 1), (3, "p", some 2), (5, "table", some 0), (6, "tbody", some 5),
          (7, "tr", some 6), (8, "td", some 7)] ∧
      WellNested t := by
  have hseen : (parse "<p><button><p>a</button><table><td>b").map
        (fun t => t.allElements.map fun x => (x.1, x.2.name, t.parent? x.1))
      = .ok [(1, "p", some 0), (2, "button", some 1), (3, "p", some 2), (5, "table", some 0), (6, "tbody", some 5),
          (7, "tr", some 6), (8, "td", some 7)] := by
    cbv
  cases hp : parse "<p><button><p>a</button><table><td>b" with
  | error e =>
    rw [hp] at hseen
    cases hseen
  | ok t =>
    rw [hp] at hseen
    exact ⟨t, rfl, Except.ok.inj hseen, wellNested_of_parse hp⟩

end LiveMarkup.Html
