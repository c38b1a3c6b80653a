/-
The order of the map.

The entries of the map are sorted by their bytes. An element stands in the bytes of those around it, and starts
after them, so it comes after them in the map. Parts of a table that the text leaves out have no bytes of their own
and stand in those of the element around them: such an element and the one around it are told apart by the text of
their tokens only, which says nothing of what is inside what. Main fact: `outer_first_iff`.
-/
import LiveMarkup.Proofs.Html.Grown
import LiveMarkup.Proofs.Html.WellNested
import LiveMarkup.Proofs.Identity.Annotated
import LiveMarkup.Proofs.Identity.Kept
import Mathlib.Data.Prod.Lex
import Mathlib.Data.String.Basic

set_option autoImplicit false

namespace LiveMarkup

/-- Whether the text leaves out all elements inside `outer`, down to `inner`. -/
def Tree.LeftOutBetween (t : Tree) (outer inner : NodeId) : Prop :=
  ∀ x ∈ t.allElements, t.Descends outer x.1 → (x.1 = inner ∨ t.Descends x.1 inner) → x.2.location = none

namespace Html

open Spot

/-! ## The elements around an element -/

/-- What is around an element that stands around another one is around that one too, farther out. -/
theorem Forest.around_of_around {lo : Nat} {f : Forest} {x y : Spot} (hy : y ∈ f.spots lo) (h : x ∈ f.around lo y) :
    ∃ above, f.around lo y = above ++ x :: f.around lo x := by
  induction f generalizing lo with
  | nil => exact absurd hy List.not_mem_nil
  | text s rest ih => exact ih hy h
  | comment s rest ih => exact ih hy h
  | element e inside rest ihi ihr =>
    rcases spots_element.1 hy with rfl | hy | hy
    · rw [around_self] at h
      exact absurd h List.not_mem_nil
    · rw [around_inside hy, List.mem_append, List.mem_singleton] at h
      rcases h with h | rfl
      · obtain ⟨above, habove⟩ := ihi hy h
        exact ⟨above, by rw [around_inside hy, around_inside (mem_around.1 h).1, habove, List.append_assoc,
          List.cons_append]⟩
      · exact ⟨inside.around _ y, by rw [around_inside hy, around_self]⟩
    · rw [around_rest hy] at h
      obtain ⟨above, habove⟩ := ihr hy h
      exact ⟨above, by rw [around_rest hy, around_rest (mem_around.1 h).1, habove]⟩

/-! ## Elements that the text leaves out -/

section LeftOut

variable {source : String} {f : Forest}

/-- An element without a place in the text is a part of a table that the text leaves out. -/
theorem leftOut_of_text (h : forestOf source = .ok f) :
    ∀ e ∈ f.elements, e.location = none → e.space = .html ∧ e.name ∈ leftOutNames := by
  have kept : ∀ (record : Location → Location) (e : Element),
      (e.location = none → e.space = .html ∧ e.name ∈ leftOutNames) →
      (relocate record e).location = none → e.space = .html ∧ e.name ∈ leftOutNames := by
    intro record e he hl
    exact he (Option.map_eq_none_iff.1 hl)
  refine each_grow (laid_tokenize source) h ?_ ?_ ?_ ?_
  · exact fun name hname _ => ⟨rfl, hname⟩
  · intro token _ tag e _ hown hl
    rw [location_of_own hown] at hl
    exact absurd hl (Option.some_ne_none _)
  · exact fun offset _ => kept (·.closedAt offset)
  · exact fun name span _ e _ => kept (·.closedBy span) e

/-- A left-out element stands in an element of a table. -/
theorem around_of_leftOut (h : forestOf source = .ok f) {y : Spot} (hy : y ∈ f.spots 1)
    (hl : y.2.1.location = none) :
    ∃ x ∈ f.around 1 y, x.2.1.space = .html ∧ x.2.1.name ∈ Plan.tableParents y.2.1.name := by
  obtain ⟨hspace, hname⟩ := leftOut_of_text h y.2.1 (List.mem_map_of_mem (Forest.node_of_spot hy)) hl
  have hpart : ∀ name ∈ leftOutNames, name ∈ tablePartNames := by decide
  have hhead := head_of_tablePart (settled_of_spot (grown_of_text h) hy hspace) (hpart _ hname)
  rw [List.head?_map, Option.any_map, Option.any_eq_true] at hhead
  obtain ⟨x, hx, hparent⟩ := hhead
  exact ⟨x, List.mem_of_mem_head? hx, Plan.isHtml_iff.1 hparent⟩

/-- **Every element has bytes in the text, or one around it has.** -/
theorem located_of_text (h : forestOf source = .ok f) {y : Spot} (hy : y ∈ f.spots 1) :
    ∃ x ∈ y :: f.around 1 y, x.2.1.location.isSome = true := by
  -- a left-out row may stand in a left-out group of rows, which stands in a table; no table is left out
  have htable : ∀ name ∈ leftOutNames, ∀ parent ∈ Plan.tableParents name, parent ∈ leftOutNames →
      ∀ above ∈ Plan.tableParents parent, above ∉ leftOutNames := by decide
  have located : ∀ {x : Spot}, x ∈ f.spots 1 → x.2.1.name ∉ leftOutNames → x.2.1.location.isSome = true := by
    intro x hx hname
    rw [Option.isSome_iff_ne_none]
    intro hl
    exact hname (leftOut_of_text h x.2.1 (List.mem_map_of_mem (Forest.node_of_spot hx)) hl).2
  by_cases hname : y.2.1.name ∈ leftOutNames
  · cases hl : y.2.1.location with
    | some l => exact ⟨y, List.mem_cons_self, by rw [hl, Option.isSome_some]⟩
    | none =>
      obtain ⟨x, hx, -, hparent⟩ := around_of_leftOut h hy hl
      have hxspot := (Forest.mem_around.1 hx).1
      cases hxl : x.2.1.location with
      | some l => exact ⟨x, List.mem_cons_of_mem _ hx, by rw [hxl, Option.isSome_some]⟩
      | none =>
        have hxname := (leftOut_of_text h x.2.1 (List.mem_map_of_mem (Forest.node_of_spot hxspot)) hxl).2
        obtain ⟨w, hw, -, habove⟩ := around_of_leftOut h hxspot hxl
        obtain ⟨above, haround⟩ := Forest.around_of_around hy hx
        refine ⟨w, ?_, located (Forest.mem_around.1 hw).1 (htable _ hname _ hparent hxname _ habove)⟩
        rw [haround]
        exact List.mem_cons_of_mem _ (List.mem_append_right _ (List.mem_cons_of_mem _ hw))
  · exact ⟨y, List.mem_cons_self, located hy hname⟩

end LeftOut

end Html

namespace Identity

open Html Spot

/-! ## What tokens stand for -/

/-- The bytes of an element that has a place in the text. -/
def ownSpan? (x : Spot) : Option Span := x.2.1.location.map (·.span)

/-- A token stands for the bytes of its element, or of the nearest one around it that has a place. -/
theorem span_eq_findSome? {s : Scheme} {written : List String} {outer : Span} {p : Progress} {lo : Nat} {f : Forest}
    {n : Named} (hn : n ∈ (named s written outer p lo f).1) :
    n.span = ((n.spot :: f.around lo n.spot).findSome? ownSpan?).getD outer := by
  -- the walk hands the bytes of an element to what is inside it
  induction f generalizing outer p lo with
  | nil => exact absurd hn List.not_mem_nil
  | text t rest ih => exact ih hn
  | comment t rest ih => exact ih hn
  | element e inside rest ihi ihr =>
    have hself : e.location.elim outer (·.span) = ([(lo, e, inside)].findSome? ownSpan?).getD outer := by
      rw [List.findSome?_singleton, ownSpan?]
      cases e.location <;> rfl
    simp only [named] at hn
    rcases List.mem_cons.1 hn with rfl | hn
    · change e.location.elim outer (·.span) = _
      rw [hself]
      change _ = (((lo, e, inside) :: (Forest.element e inside rest).around lo (lo, e, inside)).findSome?
        ownSpan?).getD outer
      rw [Forest.around_self]
    rcases List.mem_append.1 hn with hn | hn
    · have hspot : n.spot ∈ inside.spots (boxOf lo e + 1) := by
        rw [← spots_named]
        exact List.mem_map_of_mem hn
      rw [ihi hn, Forest.around_inside hspot, ← List.cons_append, List.findSome?_append, hself]
      cases (n.spot :: inside.around (boxOf lo e + 1) n.spot).findSome? ownSpan? <;> rfl
    · have hspot : n.spot ∈ rest.spots (boxOf lo e + 1 + inside.size) := by
        rw [← spots_named]
        exact List.mem_map_of_mem hn
      rw [ihr hn, Forest.around_rest hspot]

/-- **What is inside an element starts after it, or the text leaves it out and it stands for the same bytes.** -/
theorem starts_or_leftOut {s : Scheme} {source : String} {length : Nat} {f : Forest} (h : forestOf source = .ok f)
    {m n : Named} (hm : m ∈ nameAll s length f) (hn : n ∈ nameAll s length f) {above : List Spot}
    (haround : f.around 1 n.spot = above ++ m.spot :: f.around 1 m.spot) :
    (∀ x ∈ n.spot :: above, x.2.1.location = none) ∧ m.span = n.span ∨
      (∃ x ∈ n.spot :: above, x.2.1.location ≠ none) ∧ m.span.start < n.span.start := by
  have hchain : (n.spot :: f.around 1 n.spot).findSome? ownSpan?
      = ((n.spot :: above).findSome? ownSpan?).or ((m.spot :: f.around 1 m.spot).findSome? ownSpan?) := by
    rw [haround, ← List.cons_append, List.findSome?_append]
  have hmspan := span_eq_findSome? hm
  have hnspan := span_eq_findSome? hn
  rw [hchain] at hnspan
  cases hown : (n.spot :: above).findSome? ownSpan? with
  | none =>
    rw [hown, Option.none_or] at hnspan
    refine .inl ⟨?_, hmspan.trans hnspan.symm⟩
    intro x hx
    exact Option.map_eq_none_iff.1 (List.findSome?_eq_none_iff.1 hown x hx)
  | some span =>
    rw [hown, Option.some_or, Option.getD_some] at hnspan
    obtain ⟨z, hz, hzspan⟩ := List.exists_of_findSome?_eq_some hown
    obtain ⟨lz, hlz, rfl⟩ := Option.map_eq_some_iff.1 hzspan
    refine .inr ⟨⟨z, hz, by rw [hlz]; exact Option.some_ne_none _⟩, ?_⟩
    -- the outer element stands for the bytes of an element that has a place, and `z` is inside that one
    have hlocated : ((m.spot :: f.around 1 m.spot).findSome? ownSpan?).isSome = true := by
      obtain ⟨x, hx, hxl⟩ := located_of_text h (spot_of_nameAll hm)
      rw [List.findSome?_isSome_iff]
      exact ⟨x, hx, by rw [ownSpan?, Option.isSome_map, hxl]⟩
    obtain ⟨outer, houter⟩ := Option.isSome_iff_exists.1 hlocated
    rw [houter, Option.getD_some] at hmspan
    obtain ⟨w, hw, hwspan⟩ := List.exists_of_findSome?_eq_some houter
    obtain ⟨lw, hlw, rfl⟩ := Option.map_eq_some_iff.1 hwspan
    obtain ⟨hzspot, hmz⟩ : z ∈ f.spots 1 ∧ Encloses m.spot z := by
      rcases List.mem_cons.1 hz with rfl | hz
      · have hmem : m.spot ∈ f.around 1 n.spot := haround ▸ List.mem_append_right _ List.mem_cons_self
        exact ⟨spot_of_nameAll hn, (Forest.mem_around.1 hmem).2⟩
      · obtain ⟨hspot, henc, -⟩ := Forest.between_of_around haround hz
        exact ⟨hspot, henc⟩
    obtain ⟨hwspot, hwz⟩ : w ∈ f.spots 1 ∧ Encloses w z := by
      obtain ⟨between, hbetween⟩ :=
        Forest.around_of_around hzspot (Forest.mem_around.2 ⟨spot_of_nameAll hm, hmz⟩)
      rw [← Forest.mem_around, hbetween]
      exact List.mem_append_right _ hw
    have hinside : z ∈ w.2.2.spots (boxOf w.1 w.2.1 + 1) := spot_of_bounds hwspot hzspot hwz.1 hwz.2
    obtain ⟨-, hwplaced, hwnested, -⟩ := Forest.bounds_of_nested (nested_of_text h) (Forest.node_of_spot hwspot) hlw
    obtain ⟨hstart, hzplaced, -, -⟩ := Forest.bounds_of_nested hwnested (Forest.node_of_spot hinside) hlz
    rw [hmspan, hnspan, hwplaced.start, hzplaced.start]
    exact Nat.lt_of_lt_of_le hwplaced.opening hstart

/-! ## Sorted entries -/

/-- What the entries of the map are sorted by. -/
def sortKey (x : String × Span) : Nat ×ₗ Natᵒᵈ ×ₗ String :=
  toLex (x.2.start, toLex (OrderDual.toDual x.2.stop, x.1))

theorem precedes_iff {x y : String × Span} : Canonical.precedes x y = true ↔ sortKey x ≤ sortKey y := by
  simp only [Canonical.precedes, sortKey, Prod.Lex.toLex_le_toLex, Bool.or_eq_true, Bool.and_eq_true,
    decide_eq_true_eq, beq_iff_eq, OrderDual.toDual_lt_toDual, OrderDual.toDual_inj]

theorem sortKey_inj {x y : String × Span} (h : sortKey x = sortKey y) : x = y := by
  obtain ⟨token, start, stop⟩ := x
  obtain ⟨token', start', stop'⟩ := y
  simp only [sortKey, toLex_inj, Prod.mk.injEq, OrderDual.toDual_inj] at h
  obtain ⟨rfl, rfl, rfl⟩ := h
  rfl

/-- The entries of the map are sorted. -/
theorem pairwise_entriesByOffset (c : Canonical) :
    c.entriesByOffset.Pairwise fun x y => sortKey x ≤ sortKey y := by
  refine (List.pairwise_mergeSort ?_ ?_ c.map).imp precedes_iff.1
  · intro x y z hxy hyz
    exact precedes_iff.2 (le_trans (precedes_iff.1 hxy) (precedes_iff.1 hyz))
  · intro x y
    rw [Bool.or_eq_true, precedes_iff, precedes_iff]
    exact le_total _ _

/-- Of two entries with different tokens, the one with the smaller key is listed first. -/
theorem sublist_iff_sortKey {c : Canonical} (hnodup : (c.map.map (·.1)).Nodup) {x y : String × Span} (hx : x ∈ c.map)
    (hy : y ∈ c.map) (hne : x.1 ≠ y.1) :
    [x.1, y.1].Sublist (c.entriesByOffset.map (·.1)) ↔ sortKey x < sortKey y := by
  have hperm : c.entriesByOffset.Perm c.map := List.mergeSort_perm _ _
  have hsorted := pairwise_entriesByOffset c
  -- a token stands in the list with its own bytes only
  have hentry : ∀ {z w : String × Span}, z ∈ c.map → w ∈ c.entriesByOffset → w.1 = z.1 → w = z :=
    fun hz hw heq => List.inj_on_of_nodup_map hnodup (hperm.subset hw) hz heq
  constructor
  · intro hsub
    obtain ⟨entries, hentries, hmap⟩ := List.sublist_map_iff.1 hsub
    obtain ⟨x', rest, rfl, hx', hrest⟩ := List.map_eq_cons_iff.1 hmap.symm
    obtain ⟨y', nothing, rfl, hy', hnothing⟩ := List.map_eq_cons_iff.1 hrest
    obtain rfl := List.map_eq_nil_iff.1 hnothing
    obtain rfl := hentry hx (hentries.subset List.mem_cons_self) hx'
    obtain rfl := hentry hy (hentries.subset (List.mem_cons_of_mem _ List.mem_cons_self)) hy'
    refine lt_of_le_of_ne (List.pairwise_iff_forall_sublist.1 hsorted hentries) ?_
    intro heq
    exact hne (congrArg _ (sortKey_inj heq))
  · intro hlt
    have hxy : x ≠ y := fun heq => hne (congrArg _ heq)
    exact (sublist_of_sorted hsorted (hperm.mem_iff.2 hx) (hperm.mem_iff.2 hy) hxy (not_le_of_gt hlt)).map _

/-- Of two entries with the same bytes, the one with the smaller token has the smaller key. -/
theorem sortKey_lt_of_span {token token' : String} {span : Span} :
    sortKey (token, span) < sortKey (token', span) ↔ token < token' := by
  simp only [sortKey, Prod.Lex.toLex_lt_toLex, lt_irrefl, false_or, true_and]

theorem sortKey_lt_of_start {x y : String × Span} (h : x.2.start < y.2.start) : sortKey x < sortKey y :=
  Prod.Lex.toLex_lt_toLex.2 (.inl h)

/-! ## Outer elements first -/

theorem leftOutBetween_iff {t : Tree} {f : Forest} (hd : Depicts t f) {x y : Spot} (hx : x ∈ f.spots 1)
    (hy : y ∈ f.spots 1) {above : List Spot} (haround : f.around 1 y = above ++ x :: f.around 1 x) :
    t.LeftOutBetween x.1 y.1 ↔ ∀ z ∈ y :: above, z.2.1.location = none := by
  have hxy : Encloses x y := (Forest.mem_around.1 (haround ▸ List.mem_append_right _ List.mem_cons_self)).2
  constructor
  · intro h z hz
    obtain ⟨hspot, hxz, hzy⟩ : z ∈ f.spots 1 ∧ Encloses x z ∧ (z.1 = y.1 ∨ Encloses z y) := by
      rcases List.mem_cons.1 hz with rfl | hz
      · exact ⟨hy, hxy, .inl rfl⟩
      · obtain ⟨hspot, hxz, hzy⟩ := Forest.between_of_around haround hz
        exact ⟨hspot, hxz, .inr hzy⟩
    have hmem : (z.1, placed z.1 z.2.1) ∈ t.allElements := by
      rw [allElements_of_depicts hd]
      exact List.mem_map_of_mem hspot
    rw [← location_placed z.1]
    exact h _ hmem ((descends_iff_encloses hd hx hspot).2 hxz)
      (hzy.imp_right (descends_iff_encloses hd hspot hy).2)
  · intro h v hv hxv hvy
    rw [allElements_of_depicts hd] at hv
    obtain ⟨z, hz, rfl⟩ := List.mem_map.1 hv
    have hxz := (descends_iff_encloses hd hx hz).1 hxv
    rw [location_placed]
    refine h z ?_
    rcases hvy with heq | hvy
    · rw [Forest.eq_of_place hz hy heq]
      exact List.mem_cons_self
    · -- an element around `y` that is inside `x` is neither `x` nor around `x`
      have hmem := Forest.mem_around.2 ⟨hz, (descends_iff_encloses hd hz hy).1 hvy⟩
      rw [haround] at hmem
      rcases List.mem_append.1 hmem with hmem | hmem
      · exact List.mem_cons_of_mem _ hmem
      · have hlt := hxz.1
        rcases List.mem_cons.1 hmem with rfl | hmem
        · omega
        · have := (Forest.mem_around.1 hmem).2.1
          omega

/-- **Of two elements inside one another, the map lists the outer one first, unless the text leaves out the inner
one and all between them.** Those stand for the same bytes, and the one with the smaller token is listed first. -/
theorem outer_first_iff {s : Scheme} {source : String} (h : (canonicalize s source).isDegraded = false) :
    ∃ t, Html.parse source = .ok t ∧
      ∀ outer ∈ assign t s source.utf8ByteSize, ∀ inner ∈ assign t s source.utf8ByteSize,
        t.Descends outer.node inner.node →
          ([outer.token, inner.token].Sublist ((canonicalize s source).entriesByOffset.map (·.1)) ↔
            (t.LeftOutBetween outer.node inner.node → outer.token < inner.token)) := by
  rcases parse_cases source with ⟨e, hp, -⟩ | ⟨t, f, hp, hf, hd⟩
  · rw [canonicalize, canonicalize?, hp] at h
    exact absurd h nofun
  refine ⟨t, hp, ?_⟩
  obtain ⟨-, hmap⟩ := canonicalize_of_depicts (s := s) hp hd
  have htokens : ((nameAll s source.utf8ByteSize f).map (·.token)).Nodup := by
    rw [nameAll, (tokens_named s _ _ _ _ f).1]
    exact (nodup_claimAll s _ _ _).1
  have hnodup : ((canonicalize s source).map.map (·.1)).Nodup := by
    rw [hmap, List.map_map]
    exact htokens
  intro outer houter inner hinner hinside
  rw [assign_of_depicts hd] at houter hinner
  obtain ⟨m, hm, rfl⟩ := List.mem_map.1 houter
  obtain ⟨n, hn, rfl⟩ := List.mem_map.1 hinner
  have hmspot := spot_of_nameAll hm
  have hnspot := spot_of_nameAll hn
  have hencloses : Encloses m.spot n.spot := (descends_iff_encloses hd hmspot hnspot).1 hinside
  obtain ⟨above, haround⟩ := Forest.around_of_around hnspot (Forest.mem_around.2 ⟨hmspot, hencloses⟩)
  have hne : m.token ≠ n.token := by
    intro heq
    rw [List.inj_on_of_nodup_map htokens hm hn heq] at hencloses
    exact Nat.lt_irrefl _ hencloses.1
  have hentry : ∀ {x : Named}, x ∈ nameAll s source.utf8ByteSize f →
      (x.token, x.span) ∈ (canonicalize s source).map := by
    intro x hx
    rw [hmap]
    exact List.mem_map_of_mem hx
  have hbetween := leftOutBetween_iff hd hmspot hnspot haround
  change t.LeftOutBetween m.place n.place ↔ _ at hbetween
  have hlisted := sublist_iff_sortKey hnodup (hentry hm) (hentry hn) hne
  change [m.token, n.token].Sublist _ ↔ (t.LeftOutBetween m.place n.place → m.token < n.token)
  rw [hlisted, hbetween]
  rcases starts_or_leftOut hf hm hn haround with ⟨hall, hspan⟩ | ⟨⟨x, hx, hxl⟩, hstart⟩
  · rw [hspan, sortKey_lt_of_span]
    exact ⟨fun hlt _ => hlt, fun himp => himp hall⟩
  · refine ⟨fun _ hall => absurd (hall x hx) hxl, fun _ => sortKey_lt_of_start hstart⟩

/-- A table stands around the group of rows that its text leaves out, and has the smaller token. -/
theorem outer_first_of_table :
    (canonicalize .default "<table><tr>").isDegraded = false ∧
      ["v1", "v2"].Sublist ((canonicalize .default "<table><tr>").entriesByOffset.map (·.1)) := by
  have hread : (canonicalize .default "<table><tr>").isDegraded = false := by cbv
  have hseen : (Html.parse "<table><tr>").map (fun t => (assign t .default 11, t.children 1))
      = .ok ([⟨1, "v1", ⟨0, 11⟩⟩, ⟨2, "v2", ⟨0, 11⟩⟩, ⟨3, "v3", ⟨7, 11⟩⟩], [2]) := by cbv
  obtain ⟨t, hp, hfirst⟩ := outer_first_iff (s := .default) hread
  rw [hp] at hseen
  obtain ⟨hassign, hchildren⟩ := Prod.mk.inj (Except.ok.inj hseen)
  have hinside : t.Descends 1 2 := .child (by rw [hchildren]; exact List.mem_singleton_self 2)
  have houter : (⟨1, "v1", ⟨0, 11⟩⟩ : Assignment) ∈ assign t .default 11 := by rw [hassign]; decide
  have hinner : (⟨2, "v2", ⟨0, 11⟩⟩ : Assignment) ∈ assign t .default 11 := by rw [hassign]; decide
  exact ⟨hread, (hfirst _ houter _ hinner hinside).2 fun _ => by decide⟩

/-- A table that carries a token of its own is listed after the group of rows that its text leaves out. -/
theorem exists_inner_first :
    ∃ t, Html.parse "<table data-vellum-id=w><tr>" = .ok t ∧
      (canonicalize .default "<table data-vellum-id=w><tr>").isDegraded = false ∧
      ∃ outer ∈ assign t .default 28, ∃ inner ∈ assign t .default 28, t.Descends outer.node inner.node ∧
        ¬ [outer.token, inner.token].Sublist
          ((canonicalize .default "<table data-vellum-id=w><tr>").entriesByOffset.map (·.1)) := by
  have hcanonical : (fun c : Canonical => (c.isDegraded, c.entriesByOffset.map (·.1)))
      (canonicalize .default "<table data-vellum-id=w><tr>") = (false, ["v1", "w", "v2"]) := by cbv
  obtain ⟨hread, hentries⟩ := Prod.mk.inj hcanonical
  have hseen : (Html.parse "<table data-vellum-id=w><tr>").map (fun t => (assign t .default 28, t.children 1))
      = .ok ([⟨1, "w", ⟨0, 28⟩⟩, ⟨2, "v1", ⟨0, 28⟩⟩, ⟨3, "v2", ⟨24, 28⟩⟩], [2]) := by cbv
  cases hp : Html.parse "<table data-vellum-id=w><tr>" with
  | error e =>
    rw [hp] at hseen
    cases hseen
  | ok t =>
    rw [hp] at hseen
    obtain ⟨hassign, hchildren⟩ := Prod.mk.inj (Except.ok.inj hseen)
    refine ⟨t, rfl, hread, ⟨1, "w", ⟨0, 28⟩⟩, by rw [hassign]; decide, ⟨2, "v1", ⟨0, 28⟩⟩, by rw [hassign]; decide, ?_⟩
    rw [hentries]
    exact ⟨.child (by rw [hchildren]; exact List.mem_singleton_self 2), by decide⟩

end Identity

end LiveMarkup
