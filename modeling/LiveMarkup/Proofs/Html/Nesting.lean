/-
Where the elements of a text stand.

The elements of a text are nested as their markup is: siblings follow one another, and what is inside an
element stands between its tags (`nested_of_text`). So of two elements the later one stands in the earlier
one or after it (`pairwise_of_nested`).
-/
import LiveMarkup.Proofs.Html.Reading
import Mathlib.Data.List.Pairwise
import Mathlib.Tactic.ByContra

set_option autoImplicit false

namespace LiveMarkup.Html

open Plan

/-! ## Nesting -/

/-- Where what is inside an element ends: at its end tag, or where the element ends. -/
def innerStop (l : Location) : Nat := l.endTag.elim l.span.stop (·.start)

/-- The parts of a location follow one another. -/
structure Placed (l : Location) : Prop where
  start : l.span.start = l.startTag.start
  opening : l.startTag.start < l.startTag.stop
  inner : l.startTag.stop ≤ innerStop l
  closing : innerStop l ≤ l.span.stop
  ending : ∀ endTag, l.endTag = some endTag → endTag.start < endTag.stop ∧ endTag.stop = l.span.stop

/-- A forest stands between two offsets of the text. Its elements follow one another, and what is inside an
element stands between its tags; what is inside a left-out element stands where the element does. -/
def Forest.Nested : Nat → Nat → Forest → Prop
  | lo, hi, .nil => lo ≤ hi
  | lo, hi, .text _ rest => rest.Nested lo hi
  | lo, hi, .comment _ rest => rest.Nested lo hi
  | lo, hi, .element e inside rest =>
    match e.location with
    | none => ∃ mid, inside.Nested lo mid ∧ rest.Nested mid hi
    | some l => lo ≤ l.startTag.start ∧ Placed l ∧ inside.Nested l.startTag.stop (innerStop l) ∧
        rest.Nested l.span.stop hi

namespace Forest

theorem nested_some {e : Element} {l : Location} (hl : e.location = some l) {lo hi : Nat} {inside rest : Forest} :
    (element e inside rest).Nested lo hi ↔ lo ≤ l.startTag.start ∧ Placed l ∧
      inside.Nested l.startTag.stop (innerStop l) ∧ rest.Nested l.span.stop hi := by
  rw [Nested, hl]

theorem nested_none {e : Element} (hl : e.location = none) {lo hi : Nat} {inside rest : Forest} :
    (element e inside rest).Nested lo hi ↔ ∃ mid, inside.Nested lo mid ∧ rest.Nested mid hi := by
  rw [Nested, hl]

theorem nested_le {lo hi : Nat} {f : Forest} (h : f.Nested lo hi) : lo ≤ hi := by
  induction f generalizing lo hi with
  | nil => exact h
  | text s rest ih => exact ih h
  | comment s rest ih => exact ih h
  | element e inside rest ihi ihr =>
    cases hl : e.location with
    | none =>
      obtain ⟨mid, hi, hr⟩ := (nested_none hl).1 h
      exact Nat.le_trans (ihi hi) (ihr hr)
    | some l =>
      obtain ⟨hlo, hp, -, hr⟩ := (nested_some hl).1 h
      have := hp.opening
      have := hp.inner
      have := hp.closing
      have := ihr hr
      omega

theorem nested_mono {lo lo' hi hi' : Nat} {f : Forest} (hlo : lo' ≤ lo) (hhi : hi ≤ hi') (h : f.Nested lo hi) :
    f.Nested lo' hi' := by
  induction f generalizing lo lo' hi hi' with
  | nil => exact Nat.le_trans hlo (Nat.le_trans h hhi)
  | text s rest ih => exact ih hlo hhi h
  | comment s rest ih => exact ih hlo hhi h
  | element e inside rest ihi ihr =>
    cases hl : e.location with
    | none =>
      obtain ⟨mid, hi, hr⟩ := (nested_none hl).1 h
      exact (nested_none hl).2 ⟨mid, ihi hlo (Nat.le_refl _) hi, ihr (Nat.le_refl _) hhi hr⟩
    | some l =>
      obtain ⟨hl', hp, hi, hr⟩ := (nested_some hl).1 h
      exact (nested_some hl).2 ⟨Nat.le_trans hlo hl', hp, hi, ihr (Nat.le_refl _) hhi hr⟩

theorem nested_append {lo mid hi : Nat} {f g : Forest} (hf : f.Nested lo mid) (hg : g.Nested mid hi) :
    (f ++ g).Nested lo hi := by
  induction f generalizing lo with
  | nil => exact nested_mono hf (Nat.le_refl _) hg
  | text s rest ih => exact ih hf
  | comment s rest ih => exact ih hf
  | element e inside rest _ ih =>
    rw [element_append]
    cases hl : e.location with
    | none =>
      obtain ⟨m, hi, hr⟩ := (nested_none hl).1 hf
      exact (nested_none hl).2 ⟨m, hi, ih hr⟩
    | some l =>
      obtain ⟨hlo, hp, hi, hr⟩ := (nested_some hl).1 hf
      exact (nested_some hl).2 ⟨hlo, hp, hi, ih hr⟩

theorem nested_pushChar {lo hi : Nat} {f : Forest} (c : Char) (hf : f.Nested lo hi) :
    (f.pushChar c).Nested lo hi := by
  induction f, c using pushChar.induct generalizing lo with
  | case1 c => exact hf
  | case2 s c => exact hf
  | case3 s rest c hne ih =>
    rw [pushChar]
    · exact ih hf
    · exact hne
  | case4 s rest c ih => exact ih hf
  | case5 e inside rest c ih =>
    rw [pushChar]
    cases hl : e.location with
    | none =>
      obtain ⟨m, hi, hr⟩ := (nested_none hl).1 hf
      exact (nested_none hl).2 ⟨m, hi, ih hr⟩
    | some l =>
      obtain ⟨hlo, hp, hi, hr⟩ := (nested_some hl).1 hf
      exact (nested_some hl).2 ⟨hlo, hp, hi, ih hr⟩

end Forest

/-- What was read of a text up to an offset, element by element from the outside in. -/
def Nests (done : Forest) : List Frame → Nat → Prop
  | [], pos => done.Nested 0 pos
  | f :: frames, pos =>
    match f.element.location with
    | none => ∃ mid, Nests done frames mid ∧ f.inside.Nested mid pos
    | some l => l = .opened l.startTag l.selfClosing ∧ l.startTag.start < l.startTag.stop ∧
        Nests done frames l.startTag.start ∧ f.inside.Nested l.startTag.stop pos

theorem nests_mono {done : Forest} {frames : List Frame} {pos pos' : Nat} (hle : pos ≤ pos')
    (h : Nests done frames pos) : Nests done frames pos' := by
  cases frames with
  | nil => exact Forest.nested_mono (Nat.le_refl _) hle h
  | cons f frames =>
    rw [Nests] at h ⊢
    split
    · rename_i hl
      rw [hl] at h
      obtain ⟨mid, hd, hi⟩ := h
      exact ⟨mid, hd, Forest.nested_mono (Nat.le_refl _) hle hi⟩
    · rename_i l hl
      rw [hl] at h
      obtain ⟨ho, hlt, hd, hi⟩ := h
      exact ⟨ho, hlt, hd, Forest.nested_mono (Nat.le_refl _) hle hi⟩

/-- Reading on inside the innermost open element. -/
theorem nests_mapCurrent {d : Draft} {g : Forest → Forest} {pos pos' : Nat} (h : Nests d.done d.opened pos)
    (hg : ∀ lo f, Forest.Nested lo pos f → Forest.Nested lo pos' (g f)) :
    Nests (d.mapCurrent g).done (d.mapCurrent g).opened pos' := by
  obtain ⟨done, opened⟩ := d
  cases opened with
  | nil => exact hg 0 done h
  | cons f frames =>
    simp only [Draft.mapCurrent, Nests] at h ⊢
    split
    · rename_i hl
      rw [hl] at h
      obtain ⟨mid, hd, hi⟩ := h
      exact ⟨mid, hd, hg _ _ hi⟩
    · rename_i l hl
      rw [hl] at h
      obtain ⟨ho, hlt, hd, hi⟩ := h
      exact ⟨ho, hlt, hd, hg _ _ hi⟩

theorem nests_add {d : Draft} {new : Forest} {pos pos' : Nat} (h : Nests d.done d.opened pos)
    (hn : new.Nested pos pos') : Nests (d.add new).done (d.add new).opened pos' :=
  nests_mapCurrent h fun _ _ hf => Forest.nested_append hf hn

/-- Closing the innermost open element, where the record says that it ends at `stop`. -/
theorem nests_close {d : Draft} {record : Location → Location} {pos stop : Nat} (h : Nests d.done d.opened pos)
    (hle : pos ≤ stop)
    (hrecord : ∀ tag sc, tag.start < tag.stop → tag.stop ≤ pos →
      Placed (record (.opened tag sc)) ∧ (record (.opened tag sc)).startTag = tag ∧
        pos ≤ innerStop (record (.opened tag sc)) ∧ (record (.opened tag sc)).span.stop ≤ stop) :
    Nests (d.close record).done (d.close record).opened stop := by
  obtain ⟨done, opened⟩ := d
  cases opened with
  | nil => exact nests_mono hle h
  | cons f frames =>
    rw [Nests] at h
    -- an element that is not located ends where the text was read to
    cases hl : f.element.location with
    | none =>
      rw [hl] at h
      obtain ⟨mid, hd, hi⟩ := h
      have hnone : (relocate record f.element).location = none := by rw [relocate, hl, Option.map_none]
      exact nests_add hd ((Forest.nested_none hnone).2 ⟨pos, hi, hle⟩)
    | some l =>
      rw [hl] at h
      obtain ⟨ho, hlt, hd, hi⟩ := h
      have hsome : (relocate record f.element).location = some (record l) := by
        rw [relocate, hl, Option.map_some]
      obtain ⟨hp, hstart, hpos, hstop⟩ := hrecord l.startTag l.selfClosing hlt (Forest.nested_le hi)
      rw [← ho] at hp hstart hpos hstop
      refine nests_add hd ((Forest.nested_some hsome).2 ⟨?_, hp, ?_, hstop⟩)
      · exact Nat.le_of_eq (congrArg Span.start hstart).symm
      · rw [hstart]
        exact Forest.nested_mono (Nat.le_refl _) hpos hi

theorem nests_closedAt {d : Draft} {offset : Nat} (h : Nests d.done d.opened offset) :
    Nests (d.close (·.closedAt offset)).done (d.close (·.closedAt offset)).opened offset := by
  refine nests_close h (Nat.le_refl _) ?_
  intro tag sc hlt hle
  have hmax : max offset tag.stop = offset := Nat.max_eq_left hle
  simp only [Location.closedAt, Location.opened, hmax]
  exact ⟨⟨rfl, hlt, hle, Nat.le_refl _, nofun⟩, trivial, Nat.le_refl _, Nat.le_refl _⟩

theorem nests_closedBy {d : Draft} {span : Span} (hspan : span.start < span.stop)
    (h : Nests d.done d.opened span.start) :
    Nests (d.close (·.closedBy span)).done (d.close (·.closedBy span)).opened span.stop := by
  refine nests_close h (Nat.le_of_lt hspan) ?_
  intro tag sc hlt hle
  refine ⟨⟨rfl, hlt, hle, Nat.le_of_lt hspan, ?_⟩, rfl, Nat.le_refl _, Nat.le_refl _⟩
  intro endTag hend
  rw [← Option.some.inj hend]
  exact ⟨hspan, rfl⟩

/-- Adding an element that a tag stands for. -/
theorem nests_insert {limit offset : Nat} {d d' : Draft} {e : Element} {stays : Bool} {tag : Span} {sc : Bool}
    (hl : e.location = some (.opened tag sc)) (htag : tag.start < tag.stop)
    (h : Nests d.done d.opened tag.start) (hp : d.perform limit offset (.insert e stays) = .ok d') :
    Nests d'.done d'.opened tag.stop := by
  rw [Draft.perform] at hp
  split at hp
  · cases hp
  · split at hp
    · obtain rfl := Except.ok.inj hp
      rw [Nests, hl]
      exact ⟨rfl, htag, h, Nat.le_refl _⟩
    · obtain rfl := Except.ok.inj hp
      refine nests_add h ((Forest.nested_some hl).2 ⟨Nat.le_refl _, ⟨rfl, htag, ?_, ?_, ?_⟩, ?_, ?_⟩)
      · exact Nat.le_refl _
      · exact Nat.le_refl _
      · rintro _ ⟨⟩
      · exact Nat.le_refl _
      · exact Nat.le_refl _

theorem nests_insertImplied {limit offset : Nat} {d d' : Draft} {name : String} {pos : Nat}
    (h : Nests d.done d.opened pos) (hp : d.perform limit offset (.insert (.ofName name) true) = .ok d') :
    Nests d'.done d'.opened pos := by
  rw [Draft.perform] at hp
  split at hp
  · cases hp
  · obtain rfl := Except.ok.inj hp
    exact ⟨pos, h, Nat.le_refl _⟩

theorem invariant_nests (limit : Nat) (tokens : List Token) :
    Invariant limit tokens fun pos d => Nests d.done d.opened pos where
  mono hle h := nests_mono hle h
  character c h := nests_mapCurrent h fun _ _ hf => Forest.nested_pushChar c hf
  comment data h := nests_add h (Nat.le_refl _)
  soft _ ha h hp := by
    cases ha with
    | note => exact Except.ok.inj hp ▸ h
    | close => exact Except.ok.inj hp ▸ nests_closedAt h
    | implied name => exact nests_insertImplied h hp
  own _ _ he hlt h hp := nests_insert (location_of_own he) hlt h hp
  closeBy _ hlt _ h hp := Except.ok.inj hp ▸ nests_closedBy hlt h

/-- **The elements of a text are nested as their markup is.** -/
theorem nested_grow {limit n : Nat} {tokens : List Token} {f : Forest}
    (hlaid : Lexer.Laid 0 (tokens ++ [.endOfFile n])) (h : grow limit (tokens ++ [.endOfFile n]) = .ok f) :
    f.Nested 0 n := by
  obtain ⟨d, hd, rfl⟩ := readAll_of_grow h
  have hnests := invariant_readAll (invariant_nests limit _) (fun t ht => ht) hlaid
    (show Nests Draft.start.done Draft.start.opened 0 from Nat.le_refl 0) hd
  rw [Draft.opened_of_readAll hd, List.foldl_append] at hnests
  exact hnests

/-! ## Elements that stand in each other -/

namespace Forest

theorem nodes_element {e : Element} {inside rest : Forest} {x : Element × Forest} :
    x ∈ (element e inside rest).nodes ↔ x = (e, inside) ∨ x ∈ inside.nodes ∨ x ∈ rest.nodes := by
  rw [nodes, List.mem_cons, List.mem_append]

/-- An element of a forest stands between the offsets between which the forest stands. -/
theorem bounds_of_nested {lo hi : Nat} {f : Forest} (h : f.Nested lo hi) {x : Element × Forest}
    (hx : x ∈ f.nodes) {l : Location} (hl : x.1.location = some l) :
    lo ≤ l.startTag.start ∧ Placed l ∧ x.2.Nested l.startTag.stop (innerStop l) ∧ l.span.stop ≤ hi := by
  induction f generalizing lo hi with
  | nil => exact absurd hx List.not_mem_nil
  | text s rest ih => exact ih h hx
  | comment s rest ih => exact ih h hx
  | element e inside rest ihi ihr =>
    rcases nodes_element.1 hx with rfl | hx | hx
    · obtain ⟨hlo, hp, hi, hr⟩ := (nested_some hl).1 h
      exact ⟨hlo, hp, hi, nested_le hr⟩
    -- an element that is not located does not bound what is inside it
    · cases he : e.location with
      | none =>
        obtain ⟨mid, hi, hr⟩ := (nested_none he).1 h
        obtain ⟨h1, h2, h3, h4⟩ := ihi hi hx
        exact ⟨h1, h2, h3, Nat.le_trans h4 (nested_le hr)⟩
      | some l' =>
        obtain ⟨hlo, hp, hi, hr⟩ := (nested_some he).1 h
        obtain ⟨h1, h2, h3, h4⟩ := ihi hi hx
        have := hp.opening
        have := hp.closing
        have := nested_le hr
        exact ⟨by omega, h2, h3, by omega⟩
    · cases he : e.location with
      | none =>
        obtain ⟨mid, hi, hr⟩ := (nested_none he).1 h
        obtain ⟨h1, h2, h3, h4⟩ := ihr hr hx
        exact ⟨Nat.le_trans (nested_le hi) h1, h2, h3, h4⟩
      | some l' =>
        obtain ⟨hlo, hp, hi, hr⟩ := (nested_some he).1 h
        obtain ⟨h1, h2, h3, h4⟩ := ihr hr hx
        have := hp.opening
        have := hp.inner
        have := hp.closing
        exact ⟨by omega, h2, h3, h4⟩

/-- **Of two elements in document order, the later one stands in the earlier one or after it.** -/
theorem pairwise_of_nested {lo hi : Nat} {f : Forest} (h : f.Nested lo hi) (p : Nat) :
    (f.spots p).Pairwise fun x y => ∀ l l', x.2.1.location = some l → y.2.1.location = some l' →
      y ∈ x.2.2.spots (boxOf x.1 x.2.1 + 1) ∨ l.span.stop ≤ l'.startTag.start := by
  induction f generalizing lo hi p with
  | nil => exact .nil
  | text s rest ih => exact ih h (p + 1)
  | comment s rest ih => exact ih h (p + 1)
  | element e inside rest ihi ihr =>
    -- where what is inside `e` ends, and what follows `e` begins
    obtain ⟨lo', mid, mid', hi, hr, hmid⟩ :
        ∃ lo' mid mid', inside.Nested lo' mid ∧ rest.Nested mid' hi ∧ mid ≤ mid' := by
      cases he : e.location with
      | none =>
        obtain ⟨mid, hi, hr⟩ := (nested_none he).1 h
        exact ⟨_, mid, mid, hi, hr, Nat.le_refl _⟩
      | some le =>
        obtain ⟨-, hp, hi, hr⟩ := (nested_some he).1 h
        exact ⟨_, _, _, hi, hr, hp.closing⟩
    rw [spots, List.pairwise_cons, List.pairwise_append]
    refine ⟨?_, ihi hi _, ihr hr _, ?_⟩
    · intro y hy l l' hl hl'
      rcases List.mem_append.1 hy with hy | hy
      · exact .inl hy
      · obtain ⟨-, -, -, hr⟩ := (nested_some hl).1 h
        exact .inr (bounds_of_nested hr (node_of_spot hy) hl').1
    · intro x hx y hy l l' hl hl'
      obtain ⟨-, -, -, hstop⟩ := bounds_of_nested hi (node_of_spot hx) hl
      have hstart := (bounds_of_nested hr (node_of_spot hy) hl').1
      exact .inr (Nat.le_trans hstop (Nat.le_trans hmid hstart))

/-- Of two different elements, one stands in the other one or after it, and starts after it. -/
theorem inside_or_after_or {lo hi : Nat} {p : Nat} {f : Forest} (h : f.Nested lo hi)
    {x y : Nat × Element × Forest} (hx : x ∈ f.spots p) (hy : y ∈ f.spots p) (hne : x ≠ y) {l l' : Location}
    (hl : x.2.1.location = some l) (hl' : y.2.1.location = some l') :
    l.startTag.start < l'.startTag.start ∧
        (y ∈ x.2.2.spots (boxOf x.1 x.2.1 + 1) ∨ l.span.stop ≤ l'.startTag.start) ∨
      l'.startTag.start < l.startTag.start ∧
        (x ∈ y.2.2.spots (boxOf y.1 y.2.1 + 1) ∨ l'.span.stop ≤ l.startTag.start) := by
  -- what stands in an element or after it starts after it
  have starts : ∀ {a b : Nat × Element × Forest} {la lb}, a ∈ f.spots p → a.2.1.location = some la →
      b.2.1.location = some lb → b ∈ a.2.2.spots (boxOf a.1 a.2.1 + 1) ∨ la.span.stop ≤ lb.startTag.start →
      la.startTag.start < lb.startTag.start := by
    intro a b la lb ha hla hlb hab
    obtain ⟨-, hp, hin, -⟩ := bounds_of_nested h (node_of_spot ha) hla
    have := hp.opening
    have := hp.inner
    have := hp.closing
    rcases hab with hab | hab
    · have := (bounds_of_nested hin (node_of_spot hab) hlb).1
      omega
    · omega
  let R (x y : Nat × Element × Forest) : Prop := ∀ l l', x.2.1.location = some l → y.2.1.location = some l' →
    y ∈ x.2.2.spots (boxOf x.1 x.2.1 + 1) ∨ l.span.stop ≤ l'.startTag.start
  have hsymm : Std.Symm fun x y => R x y ∨ R y x := ⟨fun _ _ => Or.symm⟩
  have hpairs : (f.spots p).Pairwise fun x y => R x y ∨ R y x := (pairwise_of_nested h p).imp .inl
  have heither := hpairs.forall hx hy hne
  rcases heither with hR | hR
  · have hxy := hR l l' hl hl'
    exact .inl ⟨starts hx hl hl' hxy, hxy⟩
  · have hyx := hR l' l hl' hl
    exact .inr ⟨starts hy hl' hl hyx, hyx⟩

/-- Of two elements, the one that starts later stands in the other one or after it. -/
theorem inside_or_after {lo hi : Nat} {p : Nat} {f : Forest} (h : f.Nested lo hi) {x y : Nat × Element × Forest}
    (hx : x ∈ f.spots p) (hy : y ∈ f.spots p) {l l' : Location} (hl : x.2.1.location = some l)
    (hl' : y.2.1.location = some l') (hlt : l.startTag.start < l'.startTag.start) :
    y ∈ x.2.2.spots (boxOf x.1 x.2.1 + 1) ∨ l.span.stop ≤ l'.startTag.start := by
  have hne : x ≠ y := by
    rintro rfl
    rw [Option.some.inj (hl.symm.trans hl')] at hlt
    exact Nat.lt_irrefl _ hlt
  rcases inside_or_after_or h hx hy hne hl hl' with ⟨-, hxy⟩ | ⟨hgt, -⟩
  · exact hxy
  · exact absurd hlt (Nat.lt_asymm hgt)

/-- Different elements start at different offsets. -/
theorem eq_of_start {lo hi : Nat} {f : Forest} (h : f.Nested lo hi) {x y : Element × Forest}
    (hx : x ∈ f.nodes) (hy : y ∈ f.nodes) {l l' : Location} (hl : x.1.location = some l)
    (hl' : y.1.location = some l') (heq : l.startTag.start = l'.startTag.start) : x = y := by
  rw [nodes_eq_spots 0] at hx hy
  obtain ⟨sx, hsx, rfl⟩ := List.mem_map.1 hx
  obtain ⟨sy, hsy, rfl⟩ := List.mem_map.1 hy
  by_contra hne
  rcases inside_or_after_or h hsx hsy (fun hs => hne (congrArg _ hs)) hl hl' with ⟨hlt, -⟩ | ⟨hlt, -⟩
  · exact absurd heq (Nat.ne_of_lt hlt)
  · exact absurd heq.symm (Nat.ne_of_lt hlt)

end Forest

theorem nested_of_text {text : String} {f : Forest} (h : forestOf text = .ok f) :
    f.Nested 0 (Text.byteLength text.toList) := by
  obtain ⟨ts, hts, -⟩ := tokenize_end text
  have hlaid := laid_tokenize text
  unfold forestOf at h
  rw [hts] at h hlaid
  exact nested_grow hlaid h

end LiveMarkup.Html
