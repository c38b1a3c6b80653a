/-
What the text of an element covers.

The text of an element is replaced as a whole, so the start tags in it should be those of elements inside
it. That is so when the parser has an end tag for the element. When it has none, the end tag is searched
for in the source, and the search may go past the place where the element ends: a start tag that it
passes belongs to an element inside exactly when it stands before that place
(`textSpan?_covers_inside_iff`).
-/
import LiveMarkup.Proofs.Html.Descent
import LiveMarkup.Proofs.Html.Nesting
import LiveMarkup.Proofs.Identity.Named

set_option autoImplicit false

namespace LiveMarkup.Source

open Html Identity

/-- The start tag of an element stands in a part of the source. -/
def Covers (r : Span) (e : Element) : Prop :=
  ∃ l, e.location = some l ∧ r.start ≤ l.startTag.start ∧ l.startTag.stop ≤ r.stop

/-- Where a start tag stands, if there is one, it starts before an offset. -/
def StartsBefore (offset : Nat) (e : Element) : Prop := ∀ l, e.location = some l → l.startTag.start < offset

/-- What can be edited of an element starts after its start tag, and ends before its end tag. -/
theorem textOf?_eq_some {source : String} {n : Named} {r : Span} (h : textOf? source n = some r) :
    n.element.isVoid = false ∧ flat n.inside ∧ r.fits source.toList ∧
      ∃ l, n.element.location = some l ∧ innerSpan? source n.element.name l = some r := by
  unfold textOf? at h
  by_cases hv : n.element.isVoid
  · rw [if_pos hv] at h
    exact absurd h nofun
  · rw [if_neg hv] at h
    cases hl : n.element.location with
    | none =>
      rw [hl] at h
      exact absurd h nofun
    | some l =>
      rw [hl] at h
      simp only [Option.bind_eq_bind, Option.bind_some] at h
      obtain ⟨span, hspan, h⟩ := Option.bind_eq_some_iff.1 h
      split at h
      · rename_i hok
        obtain rfl := Option.some.inj h
        exact ⟨Bool.eq_false_iff.2 hv, hok.1, hok.2, l, rfl, hspan⟩
      · exact absurd h nofun

theorem innerSpan?_eq_some {source name : String} {l : Location} {r : Span}
    (h : innerSpan? source name l = some r) :
    r.start = l.startTag.stop ∧ r.start ≤ r.stop ∧ ∀ endTag, l.endTag = some endTag → r.stop = endTag.start := by
  obtain ⟨stop, hstop, h⟩ : ∃ stop, (∀ endTag, l.endTag = some endTag → stop = endTag.start) ∧
      (Span.ofBounds? l.startTag.stop stop).filter (fun s => s.stop ≤ source.utf8ByteSize) = some r := by
    unfold innerSpan? at h
    cases hend : l.endTag with
    | some endTag =>
      rw [hend] at h
      exact ⟨endTag.start, fun t ht => by rw [Option.some.inj ht], h⟩
    | none =>
      rw [hend] at h
      obtain ⟨stop, -, h⟩ := Option.bind_eq_some_iff.1 h
      exact ⟨stop, fun t ht => absurd ht nofun, h⟩
  obtain ⟨h, -⟩ := Option.filter_eq_some_iff.1 h
  unfold Span.ofBounds? at h
  split at h
  · exact absurd h nofun
  · rename_i hle
    obtain rfl := Option.some.inj h
    exact ⟨rfl, Nat.not_lt.1 hle, hstop⟩

/-- The element that a token names, in the forest of the source, when its text can be edited. -/
theorem seek?_of_textSpan? {s : Scheme} {source token : String} {r : Span}
    (h : textSpan? s source token = some r) :
    ∃ t f n, Html.parse source = .ok t ∧ forestOf source = .ok f ∧ Depicts t f ∧
      seek? s source.utf8ByteSize f token = some n ∧ textOf? source n = some r := by
  rcases parse_cases source with ⟨e, hp, -⟩ | ⟨t, f, hp, hf, hd⟩
  · unfold textSpan? locate? at h
    rw [hp] at h
    exact absurd h nofun
  · rw [textSpan?_eq hp hd] at h
    obtain ⟨n, hn, h⟩ := Option.bind_eq_some_iff.1 h
    exact ⟨t, f, n, hp, hf, hd, hn, h⟩

/-- An element whose start tag stands in the text of another is inside it exactly when it starts before
the other one ends. -/
theorem descends_iff_startsBefore {s : Scheme} {source token : String} {r : Span}
    (h : textSpan? s source token = some r) :
    ∃ t id e l, locate? s source token = some (t, id, e) ∧ e.location = some l ∧
      (l.endTag.isSome → ∀ x ∈ t.allElements, Covers r x.2 → StartsBefore l.span.stop x.2) ∧
      ∀ x ∈ t.allElements, Covers r x.2 → (t.Descends id x.1 ↔ StartsBefore l.span.stop x.2) := by
  obtain ⟨t, f, n, hp, hf, hd, hn, htext⟩ := seek?_of_textSpan? h
  obtain ⟨-, -, -, l, hl, hinner⟩ := textOf?_eq_some htext
  obtain ⟨hstart, -, hend⟩ := innerSpan?_eq_some hinner
  have hspot := spot_of_nameAll (List.mem_of_find?_eq_some hn)
  have hnested := nested_of_text hf
  obtain ⟨-, hplaced, hinside, -⟩ := Forest.bounds_of_nested hnested (Forest.node_of_spot hspot) hl
  refine ⟨t, n.place, placed n.place n.element, l, ?_, ?_, ?_, ?_⟩
  · rw [locate?_eq hp hd, hn]
    rfl
  · rw [location_placed]
    exact hl
  · intro hsome x hx hcovers l' hl'
    obtain ⟨endTag, hsome⟩ := Option.isSome_iff_exists.1 hsome
    obtain ⟨hlt, hstop⟩ := hplaced.ending endTag hsome
    rw [allElements_of_depicts hd] at hx
    obtain ⟨y, hy, rfl⟩ := List.mem_map.1 hx
    obtain ⟨l'', hl'', -, hle⟩ := hcovers
    obtain rfl := Option.some.inj (hl'.symm.trans hl'')
    rw [location_placed] at hl'
    have := (Forest.bounds_of_nested hnested (Forest.node_of_spot hy) hl').2.1.opening
    have := hend endTag hsome
    omega
  · intro x hx hcovers
    rw [allElements_of_depicts hd] at hx
    obtain ⟨y, hy, rfl⟩ := List.mem_map.1 hx
    obtain ⟨l', hl', hlo, -⟩ := hcovers
    rw [location_placed] at hl'
    have hopening := hplaced.opening
    constructor
    · intro hdesc l'' hl''
      rw [location_placed] at hl''
      obtain rfl := Option.some.inj (hl'.symm.trans hl'')
      have hmem := (descends_iff hd hspot hy).1 hdesc
      obtain ⟨-, hplaced', -, hstop⟩ := Forest.bounds_of_nested hinside (Forest.node_of_spot hmem) hl'
      have := hplaced'.opening
      have := hplaced'.inner
      have := hplaced'.closing
      have := hplaced.closing
      omega
    · intro hbefore
      have hbefore := hbefore l' (by rw [location_placed]; exact hl')
      refine (descends_iff hd hspot hy).2 ?_
      refine (Forest.inside_or_after hnested hspot hy hl hl' (by omega)).resolve_right ?_
      omega

/-- **An edit of text changes the elements inside an element only, as far as the element reaches.** Every
start tag in the text of an element belongs to an element inside it when the parser has the end tag of
the element. When it has none, exactly those start tags do that stand before the end of the element. -/
theorem textSpan?_covers_inside_iff {s : Scheme} {source token : String} {r : Span}
    (h : textSpan? s source token = some r) :
    ∃ t id e l, locate? s source token = some (t, id, e) ∧ e.location = some l ∧
      (l.endTag.isSome → ∀ x ∈ t.allElements, Covers r x.2 → t.Descends id x.1) ∧
      ∀ x ∈ t.allElements, Covers r x.2 → (t.Descends id x.1 ↔ StartsBefore l.span.stop x.2) := by
  obtain ⟨t, id, e, l, hlocate, hl, hreach, hiff⟩ := descends_iff_startsBefore h
  refine ⟨t, id, e, l, hlocate, hl, ?_, hiff⟩
  intro hend x hx hcovers
  exact (hiff x hx hcovers).2 (hreach hend x hx hcovers)

/-- The paragraph ends where the block starts, and its end tag is searched for after the block. -/
theorem textSpan?_of_cut_paragraph :
    textSpan? .default "<p>a<div>b</div></p>" "v1" = some ⟨3, 16⟩ ∧
      ∃ t id e l, locate? .default "<p>a<div>b</div></p>" "v1" = some (t, id, e) ∧ e.location = some l ∧
        (l.endTag.isSome → ∀ x ∈ t.allElements, Covers ⟨3, 16⟩ x.2 → t.Descends id x.1) ∧
        ∀ x ∈ t.allElements, Covers ⟨3, 16⟩ x.2 → (t.Descends id x.1 ↔ StartsBefore l.span.stop x.2) :=
  have h : textSpan? .default "<p>a<div>b</div></p>" "v1" = some ⟨3, 16⟩ := by cbv
  ⟨h, textSpan?_covers_inside_iff h⟩

/-- **The text of an element can cover a start tag that is not inside it.** The text of the paragraph
covers the start tag of the block after it. -/
theorem exists_covers_outside :
    ¬ ∀ (s : Scheme) (source token : String) (r : Span), textSpan? s source token = some r →
      ∀ t id e, locate? s source token = some (t, id, e) →
        ∀ x ∈ t.allElements, Covers r x.2 → t.Descends id x.1 := by
  intro hall
  have h : textSpan? .default "<p>a<div>b</div></p>" "v1" = some ⟨3, 16⟩ := by cbv
  obtain ⟨t, id, e, l, hlocate, hl, -, hiff⟩ := descends_iff_startsBefore h
  have hseen : (locate? .default "<p>a<div>b</div></p>" "v1").map (fun x =>
        (x.2.2.location.map (·.span), x.1.allElements.map fun y => y.2.location.map (·.startTag)))
      = some (some ⟨0, 4⟩, [some ⟨0, 3⟩, some ⟨4, 9⟩]) := by cbv
  rw [hlocate, Option.map_some, hl] at hseen
  obtain ⟨hspan, hstarts⟩ := Prod.mk.inj (Option.some.inj hseen)
  have hspan : l.span = ⟨0, 4⟩ := Option.some.inj hspan
  -- the block is the second element
  have hblock : some ⟨4, 9⟩ ∈ t.allElements.map fun y => y.2.location.map (·.startTag) := by
    rw [hstarts]
    exact List.mem_cons_of_mem _ List.mem_cons_self
  obtain ⟨x, hx, hx'⟩ := List.mem_map.1 hblock
  obtain ⟨l', hl', htag⟩ := Option.map_eq_some_iff.1 hx'
  have hcovers : Covers ⟨3, 16⟩ x.2 := ⟨l', hl', by rw [htag]; decide, by rw [htag]; decide⟩
  have hbefore := (hiff x hx hcovers).1 (hall _ _ _ _ h t id e hlocate x hx hcovers) l' hl'
  rw [htag, hspan] at hbefore
  exact absurd hbefore (by decide)

end LiveMarkup.Source
