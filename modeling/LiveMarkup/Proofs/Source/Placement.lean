/-
Where elements are recorded to stand.

An element is closed by its end tag, by another tag, or by the end of the text, each time at an offset at
which the text can be cut (`bounded_of_text`). So what is recorded of every element is a part of the text,
and the parts of the elements are inside one another exactly as the elements are
(`locations_mirror_tree`).
-/
import LiveMarkup.Proofs.Html.Descent
import LiveMarkup.Proofs.Html.Nesting
import LiveMarkup.Proofs.Source.Cut

set_option autoImplicit false

namespace LiveMarkup.Source

open Html Html.Plan Text

/-! ## Offsets at which a text can be cut -/

/-- A text can be cut at an offset. -/
def Boundary (source : String) (n : Nat) : Prop :=
  ∃ head tail, source.toList = head ++ tail ∧ byteLength head = n

variable {source : String}

theorem fits_of_boundaries {r : Span} (hstart : Boundary source r.start) (hstop : Boundary source r.stop)
    (hle : r.start ≤ r.stop) : r.fits source.toList = true := by
  obtain ⟨head, tail, hwhole, hhead⟩ := hstart
  obtain ⟨head', tail', hwhole', hhead'⟩ := hstop
  rw [hwhole] at hwhole'
  -- the shorter of the two heads begins the longer one
  rcases List.append_eq_append_iff.1 hwhole' with ⟨middle, hheads, htails⟩ | ⟨middle, hheads, htails⟩
  · have hcut : Cut source r head middle tail' := by
      refine ⟨?_, hhead, ?_⟩
      · rw [hwhole, htails]
      · rw [← byteLength_append, ← hheads, hhead']
    exact fits_of_cut hcut
  · have hlength : byteLength head = byteLength head' + byteLength middle := by
      rw [hheads, byteLength_append]
    have hcut : Cut source r head [] tail := by
      refine ⟨hwhole, hhead, ?_⟩
      rw [show byteLength ([] : List Char) = 0 from rfl]
      omega
    exact fits_of_cut hcut

theorem boundary_of_tag {token : Token} (htoken : token ∈ tokenize source) (htag : token.isTag = true)
    {span : Span} (hspan : token.span? = some span) : Boundary source span.start ∧ Boundary source span.stop := by
  obtain ⟨before, after, htokens⟩ := List.append_of_mem htoken
  rw [tokenize_eq] at htokens
  obtain ⟨m, k, n, hocc, -⟩ := Lexer.occurs_of_tokens rfl htokens htag
  obtain rfl := Option.some.inj (hspan.symm.trans hocc.span)
  -- the lexer is in front of the tag, and behind it after one more step
  have hbehind : Moves (.start source.toList) n :=
    (hocc.reads.moves.trans hocc.inside.moves).trans (Lexer.moves_step hocc.next)
  obtain ⟨eaten, hwhole, hoffset⟩ := reads_start hocc.reads
  obtain ⟨eaten', hwhole', hoffset'⟩ := hbehind
  refine ⟨⟨eaten, _, hwhole, hoffset.symm⟩, eaten', _, hwhole', ?_⟩
  rw [hoffset']
  exact (Nat.zero_add _).symm

theorem boundary_of_anchor {offset : Nat} (h : Anchor (tokenize source) offset) : Boundary source offset := by
  obtain ⟨token, htoken, hkind, span, hspan, rfl⟩ := h
  cases htag : token.isTag with
  | true => exact (boundary_of_tag htoken htag hspan).1
  | false =>
    rw [htag, Bool.false_or] at hkind
    -- the only token that ends the text stands behind all of it
    obtain ⟨ts, hts, hnone⟩ := tokenize_end source
    cases token with
    | endOfFile n =>
      rw [hts] at htoken
      have hn := (List.mem_append.1 htoken).resolve_left (hnone n)
      rw [Token.endOfFile.inj (List.mem_singleton.1 hn)] at hspan
      rw [← Option.some.inj hspan]
      exact ⟨source.toList, [], (List.append_nil _).symm, rfl⟩
    | _ => exact absurd hkind Bool.false_ne_true

/-- **Everything that is recorded of an element is an offset at which the text can be cut.** -/
theorem bounded_of_text {f : Forest} (hf : forestOf source = .ok f) :
    ∀ e ∈ f.elements, ∀ l, e.location = some l →
      Boundary source l.startTag.start ∧ Boundary source l.startTag.stop ∧ Boundary source l.span.stop ∧
        ∀ endTag, l.endTag = some endTag → Boundary source endTag.start := by
  refine each_grow (laid_tokenize source) hf ?_ ?_ ?_ ?_
  · exact fun name _ l hl => absurd hl nofun
  · intro token htoken tag e hopens he l hl
    obtain ⟨hspan, htag⟩ := span?_of_opens hopens
    obtain ⟨hstart, hstop⟩ := boundary_of_tag htoken htag hspan
    obtain rfl := Option.some.inj ((location_of_own he).symm.trans hl)
    exact ⟨hstart, hstop, hstop, nofun⟩
  · intro offset hanchor e he l hl
    obtain ⟨l', hl', rfl⟩ := Option.map_eq_some_iff.1 hl
    obtain ⟨hstart, hstop, -, hend⟩ := he l' hl'
    refine ⟨hstart, hstop, ?_, hend⟩
    -- an element does not end before its start tag does
    rcases Nat.le_total l'.startTag.stop offset with hle | hle
    · rw [Location.closedAt, Nat.max_eq_left hle]
      exact boundary_of_anchor hanchor
    · rw [Location.closedAt, Nat.max_eq_right hle]
      exact hstop
  · intro name span htoken e _ he l hl
    obtain ⟨l', hl', rfl⟩ := Option.map_eq_some_iff.1 hl
    obtain ⟨hstart, hstop, -, -⟩ := he l' hl'
    obtain ⟨hbegins, hends⟩ := boundary_of_tag htoken rfl rfl
    refine ⟨hstart, hstop, hends, ?_⟩
    intro endTag hend
    rw [← Option.some.inj hend]
    exact hbegins

/-! ## Locations and the tree -/

/-- What is recorded of where an element stands in a text. -/
structure Recorded (source : String) (e : Element) (l : Location) : Prop where
  startTag : l.startTag.fits source.toList = true
  whole : l.span.fits source.toList = true
  start : l.span.start = l.startTag.start
  stop : l.startTag.stop ≤ l.span.stop
  endTag : ∀ endTag, l.endTag = some endTag →
    endTag.fits source.toList = true ∧ l.startTag.stop ≤ endTag.start ∧ endTag.stop = l.span.stop ∧
      ∃ name, .endTag name endTag ∈ tokenize source ∧
        (eqIgnoreCase e.name name = true ∨ name ∈ headings ∧ e.name ∈ headings)

theorem recorded_of_text {f : Forest} (hf : forestOf source = .ok f) {x : Element × Forest} (hx : x ∈ f.nodes)
    {l : Location} (hl : x.1.location = some l) : Recorded source x.1 l := by
  have he : x.1 ∈ f.elements := List.mem_map_of_mem hx
  obtain ⟨hstart, hstop, hwhole, hbegins⟩ := bounded_of_text hf x.1 he l hl
  obtain ⟨-, hplaced, -, -⟩ := Forest.bounds_of_nested (nested_of_text hf) hx hl
  have hle : l.startTag.stop ≤ l.span.stop := Nat.le_trans hplaced.inner hplaced.closing
  refine ⟨?_, ?_, hplaced.start, hle, ?_⟩
  · exact fits_of_boundaries hstart hstop (Nat.le_of_lt hplaced.opening)
  · rw [← hplaced.start] at hstart
    refine fits_of_boundaries hstart hwhole ?_
    rw [hplaced.start]
    exact Nat.le_trans (Nat.le_of_lt hplaced.opening) hle
  · intro endTag hend
    obtain ⟨hlt, hends⟩ := hplaced.ending endTag hend
    obtain ⟨name, hname, hnamed⟩ := endTag_of_text hf x.1 he l endTag hl hend
    refine ⟨fits_of_boundaries (hbegins endTag hend) ?_ (Nat.le_of_lt hlt), ?_, hends, name, hname, hnamed⟩
    · rw [hends]
      exact hwhole
    · have hinner := hplaced.inner
      rwa [innerStop, hend] at hinner

/-- **Recorded locations mirror the tree.** Every location is a part of the text that begins with the start
tag and ends with the end tag, when there is one; an element inside another one, in the contents of a
template too, stands between its tags, and any other element after it in document order stands behind it. -/
theorem locations_mirror_tree {t : Tree} (h : Html.parse source = .ok t) :
    (∀ x ∈ t.allElements, ∀ l, x.2.location = some l → Recorded source x.2 l) ∧
      (∀ x ∈ t.allElements, ∀ y ∈ t.allElements, ∀ l l', x.2.location = some l → y.2.location = some l' →
        t.Descends x.1 y.1 → l.startTag.stop ≤ l'.span.start ∧ l'.span.stop ≤ innerStop l) ∧
      t.allElements.Pairwise fun x y => ∀ l l', x.2.location = some l → y.2.location = some l' →
        ¬ t.Descends x.1 y.1 → l.span.before l'.span := by
  obtain ⟨f, hf, hd⟩ : ∃ f, forestOf source = .ok f ∧ Depicts t f := by
    rcases parse_cases source with ⟨e, hp, -⟩ | ⟨t', f, hp, hf, hd⟩
    · rw [h] at hp
      exact absurd hp nofun
    · rw [h] at hp
      obtain rfl := Except.ok.inj hp
      exact ⟨f, hf, hd⟩
  have hnested := nested_of_text hf
  have hspan : ∀ {x : Nat × Element × Forest} {l : Location}, x ∈ f.spots 1 → x.2.1.location = some l →
      l.span.start = l.startTag.start := by
    intro x l hx hl
    obtain ⟨-, hplaced, -, -⟩ := Forest.bounds_of_nested hnested (Forest.node_of_spot hx) hl
    exact hplaced.start
  have hlocation : ∀ id e, (placed id e).location = e.location := by
    intro id e
    unfold placed
    split <;> rfl
  rw [allElements_of_depicts hd]
  refine ⟨?_, ?_, ?_⟩
  · intro x hx l hl
    obtain ⟨y, hy, rfl⟩ := List.mem_map.1 hx
    rw [hlocation] at hl
    have hrecorded := recorded_of_text hf (Forest.node_of_spot hy) hl
    exact ⟨hrecorded.startTag, hrecorded.whole, hrecorded.start, hrecorded.stop,
      by rw [name_placed]; exact hrecorded.endTag⟩
  · intro x hx y hy l l' hl hl' hdesc
    obtain ⟨sx, hsx, rfl⟩ := List.mem_map.1 hx
    obtain ⟨sy, hsy, rfl⟩ := List.mem_map.1 hy
    rw [hlocation] at hl hl'
    have hmem := (descends_iff hd hsx hsy).1 hdesc
    obtain ⟨-, -, hinside, -⟩ := Forest.bounds_of_nested hnested (Forest.node_of_spot hsx) hl
    obtain ⟨hlo, -, -, hhi⟩ := Forest.bounds_of_nested hinside (Forest.node_of_spot hmem) hl'
    rw [hspan hsy hl']
    exact ⟨hlo, hhi⟩
  · rw [List.pairwise_map]
    refine (Forest.pairwise_of_nested hnested 1).imp_of_mem ?_
    intro x y hx hy hxy l l' hl hl' hdesc
    rw [hlocation] at hl hl'
    rw [Span.before, hspan hy hl']
    refine (hxy l l' hl hl').resolve_left ?_
    intro hmem
    exact hdesc ((descends_iff hd hx hy).2 hmem)

/-- A list item that the next one closes, and an element in a template. -/
theorem locations_of_list :
    ∃ t, Html.parse "<ul><li>a<li>b</ul><template><b></template>" = .ok t ∧
      (t.allElements.map fun x => (x.1, x.2.location.map (·.span))) =
        [(1, some ⟨0, 19⟩), (2, some ⟨4, 9⟩), (4, some ⟨9, 14⟩), (6, some ⟨19, 43⟩), (8, some ⟨29, 32⟩)] ∧
      t.allElements.Pairwise fun x y => ∀ l l', x.2.location = some l → y.2.location = some l' →
        ¬ t.Descends x.1 y.1 → l.span.before l'.span := by
  have hseen : (Html.parse "<ul><li>a<li>b</ul><template><b></template>").map
        (fun t => t.allElements.map fun x => (x.1, x.2.location.map (·.span)))
      = .ok [(1, some ⟨0, 19⟩), (2, some ⟨4, 9⟩), (4, some ⟨9, 14⟩), (6, some ⟨19, 43⟩), (8, some ⟨29, 32⟩)] := by
    cbv
  cases hp : Html.parse "<ul><li>a<li>b</ul><template><b></template>" with
  | error e =>
    rw [hp] at hseen
    cases hseen
  | ok t =>
    rw [hp] at hseen
    exact ⟨t, rfl, Except.ok.inj hseen, (locations_mirror_tree hp).2.2⟩

end LiveMarkup.Source
