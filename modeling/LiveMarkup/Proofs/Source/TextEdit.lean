/-
Editing the text of an element.

The text of an element whose end tag the parser knows is a piece of the source that ends at a `<`. When
it holds no markup, the lexer reads it as characters, whatever it is (`tokenize_text`), and the tags
around it stay the same. So an edit that writes escaped text there keeps every token, moves the bytes
that come after it, and can be undone (`editText_keeps_tokens`).
-/
import LiveMarkup.Proofs.Html.Lexing.Text
import LiveMarkup.Proofs.Identity.Kept
import LiveMarkup.Proofs.Source.Cut
import LiveMarkup.Proofs.Source.Region

set_option autoImplicit false

namespace LiveMarkup.Source

open Html Html.Plan Identity Text

/-! ## Reading other text in the same place -/

theorem flatMap_unmarked {text : List Char} {escape : Char → String}
    (h : ∀ c ∈ text, '<' ∉ (escape c).toList) : '<' ∉ text.flatMap fun c => (escape c).toList := by
  intro hmem
  obtain ⟨c, hc, hmem⟩ := List.mem_flatMap.1 hmem
  exact h c hc hmem

/-- Escaped text holds no markup. -/
theorem escapeText_unmarked (text : String) : '<' ∉ (escapeText text).toList := by
  have hescape : (escapeText text).toList = text.toList.flatMap fun c => (escapeInText c).toList := by
    simp [escapeText, String.toList_join, List.flatMap_map]
  rw [hescape]
  apply flatMap_unmarked
  intro c _
  unfold escapeInText
  split
  · decide
  · decide
  · decide
  · decide
  · rename_i hlt _
    rw [show c.toString.toList = [c] from String.toList_singleton c, List.mem_singleton]
    exact fun h => hlt h.symm

/-- **Text after a tag is read as characters, and the tokens after it only move.** -/
theorem tokenize_text {source : String} {before : List Token} {token : Token} {m k n : Lexer}
    (hocc : Lexer.Occurs (.start source.toList) before token m k n) {head middle tail : List Char}
    (hwhole : source.toList = head ++ (middle ++ '<' :: tail)) (hhead : byteLength head = n.offset) :
    ∃ after : List Token, ∀ text : List Char, '<' ∉ text → ∃ cs : List Char,
      tokenize (String.ofList (head ++ (text ++ '<' :: tail)))
        = (before ++ [token]) ++ (cs.map .character ++ after.map (.shift (n.offset + byteLength text))) := by
  -- what follows the text is read as if it stood alone
  refine ⟨(⟨'<' :: tail, 0, n.lastStart, .text n.state.content⟩ : Lexer).tokens, ?_⟩
  intro text htext
  have hreads := hocc.reads.trans (hocc.inside.trans (.one hocc.next hocc.reports))
  obtain ⟨eaten, heaten, hoffset⟩ := reads_start hreads
  obtain ⟨rfl, hrest⟩ := append_inj_of_byteLength (hwhole.symm.trans heaten) (hhead.trans hoffset)
  have hreplaced := hocc.replace (text ++ '<' :: tail) heaten
  have hstate : n.state.start? = none := by
    rw [hocc.state]
    rfl
  obtain ⟨cs, hcs⟩ := Lexer.reads_text
    (l := ⟨text ++ '<' :: tail, n.offset, n.lastStart, n.state⟩) hstate rfl htext
  refine ⟨cs, ?_⟩
  rw [tokenize_eq, String.toList_ofList]
  have hall : Lexer.Reads (.start (head ++ (text ++ '<' :: tail))) _ _ := hreplaced.trans hcs
  rw [Lexer.tokens_of_reads hall, List.append_assoc, ← Lexer.tokens_shift]
  have hshift : (⟨'<' :: tail, n.offset + byteLength text, n.lastStart, .text n.state.content⟩ : Lexer)
      = Lexer.shift (n.offset + byteLength text) ⟨'<' :: tail, 0, n.lastStart, .text n.state.content⟩ := by
    rw [Lexer.shift, Nat.zero_add]
    rfl
  rw [hshift]

/-! ## The change that an edit of text is -/

/-- Other text of a length in the place of a span. -/
def textChange (r : Span) (length : Nat) : Change := ⟨r.start, r.stop, r.start + length, Element.attributes⟩

theorem sound_textChange {r : Span} (hr : r.start ≤ r.stop) (length : Nat) : (textChange r length).Sound where
  le := hr
  le' := Nat.le_add_right _ _
  implied _ _ := rfl
  outside _ _ _ _ := rfl
  relocate _ _ _ := rfl

theorem written?_like {r : Span} {length : Nat} {s : Scheme} {e e' : Element}
    (h : (textChange r length).Like e e') : written? s e' = written? s e := by
  have hattributes : e'.attributes = e.attributes := h.attributes
  unfold written? Element.attribute?
  rw [hattributes]

theorem flat_like {c : Change} {f f' : Forest} (h : c.Alike f f') : flat f' = flat f := by
  induction h with
  | nil => rfl
  | textLeft t _ ih => exact ih
  | textRight t _ ih => exact ih
  | commentLeft t _ ih => exact ih
  | commentRight t _ ih => exact ih
  | element he _ _ _ ih => rw [flat, flat, ih, isFlat, isFlat, he.name, he.space]

/-- The tags of the element whose text is edited: the start tag stays, and the end tag moves. -/
theorem tags_like {r : Span} {length : Nat} {l l' : Location} {endTag : Span}
    (h : (textChange r length).MovedLocation l l') (hplaced : Placed l) (hend : l.endTag = some endTag)
    (hstart : l.startTag.stop = r.start) (hstop : endTag.start = r.stop) :
    l'.startTag = l.startTag ∧ ∃ endTag', l'.endTag = some endTag' ∧ endTag'.start = r.start + length := by
  have hopening := hplaced.opening
  have hinner := hplaced.inner
  rw [innerStop, hend, Option.elim_some] at hinner
  obtain ⟨hclosing, -⟩ := hplaced.ending endTag hend
  have hle : r.start ≤ r.stop := by
    rw [← hstart, ← hstop]
    exact hinner
  constructor
  · have htag := h.startTag
    generalize l.startTag = tag at htag hstart hopening
    generalize l'.startTag = tag' at htag
    cases htag with
    | before => rfl
    | edited =>
      -- the bytes of the text start after the start tag
      change r.start < r.stop at hopening
      change r.stop = r.start at hstart
      omega
    | after s =>
      change s.stop + r.stop = r.start at hstart
      change s.start + r.stop < s.stop + r.stop at hopening
      omega
  · have htag := h.endTag
    rw [hend] at htag
    generalize l'.endTag = found at htag
    cases htag with
    | some htag =>
      refine ⟨_, rfl, ?_⟩
      cases htag with
      | before hlo hhi =>
        change endTag.stop ≤ r.start at hhi
        omega
      | edited =>
        change r.start < r.stop at hclosing
        change r.start = r.stop at hstop
        omega
      | after s =>
        change s.start + r.stop = r.stop at hstop
        change s.start + (r.start + length) = r.start + length
        omega

/-- Nothing begins or ends in an empty text. -/
theorem nonempty_of_bound {s : Scheme} {length : Nat} {f : Forest} (hnested : f.Nested 0 length) {n : Named}
    (hn : n ∈ nameAll s length f) {l : Location} (hl : n.element.location = some l) {endTag : Span}
    (hend : l.endTag = some endTag) {n' : Named} (hn' : n' ∈ nameAll s length f)
    (h : n'.span.start = l.startTag.stop ∨ n'.span.stop = l.startTag.stop) :
    l.startTag.stop < endTag.start := by
  have hspot := spot_of_nameAll hn
  obtain ⟨-, hplaced, hinside, hbound⟩ := Forest.bounds_of_nested hnested (Forest.node_of_spot hspot) hl
  have hstart := hplaced.start
  have hopening := hplaced.opening
  have hinner := hplaced.inner
  rw [innerStop, hend, Option.elim_some] at hinner hinside
  obtain ⟨hclosing, hstop⟩ := hplaced.ending endTag hend
  rcases span_of_named hn' with hspan | ⟨x, hx, lx, hlx, hspan⟩
  · rw [hspan] at h
    change 0 = l.startTag.stop ∨ length = l.startTag.stop at h
    omega
  · rw [hspan] at h
    obtain ⟨-, hplacedx, -, hboundx⟩ := Forest.bounds_of_nested hnested hx hlx
    have hstartx := hplacedx.start
    have hopeningx := hplacedx.opening
    have hinnerx := hplacedx.inner
    have hclosingx := hplacedx.closing
    rw [Forest.nodes_eq_spots 1] at hx
    obtain ⟨y, hy, rfl⟩ := List.mem_map.1 hx
    rcases Nat.lt_trichotomy l.startTag.start lx.startTag.start with hlt | heq | hlt
    · -- the other element is inside this one, or after it
      rcases Forest.inside_or_after hnested hspot hy hl hlx hlt with hin | hafter
      · have := (Forest.bounds_of_nested hinside (Forest.node_of_spot hin) hlx).1
        have := (Forest.bounds_of_nested hinside (Forest.node_of_spot hin) hlx).2.2.2
        omega
      · omega
    · have hsame := Forest.eq_of_start hnested (Forest.node_of_spot hspot) (Forest.node_of_spot hy) hl hlx heq
      have hl' := hl
      rw [show n.element = y.2.1 from congrArg Prod.fst hsame, hlx] at hl'
      obtain rfl := Option.some.inj hl'
      omega
    · rcases Forest.inside_or_after hnested hy hspot hlx hl hlt with hin | hafter
      · have hboundy := (Forest.bounds_of_nested hnested (Forest.node_of_spot hy) hlx).2.2.1
        obtain ⟨-, -, -, hle⟩ := Forest.bounds_of_nested hboundy (Forest.node_of_spot hin) hl
        omega
      · omega

/-! ## Editing text -/

/-- Whether the parser has an end tag for the element that a token names. -/
def hasEndTag (s : Scheme) (source token : String) : Bool :=
  (locate? s source token).any fun x => x.2.2.location.any (·.endTag.isSome)

theorem endTag_of_hasEndTag {s : Scheme} {source token : String} {t : Tree} {f : Forest} {n : Named}
    {l : Location} (hp : Html.parse source = .ok t) (hd : Depicts t f)
    (hn : seek? s source.utf8ByteSize f token = some n) (hl : n.element.location = some l)
    (h : hasEndTag s source token) : ∃ endTag, l.endTag = some endTag := by
  rw [hasEndTag, locate?_eq hp hd, hn, Option.map_some, Option.any_some, location_placed, hl,
    Option.any_some] at h
  exact Option.isSome_iff_exists.1 h

/-- The text of the element that a token names can be edited again. -/
theorem textOf?_like {r : Span} {edited : String} {head text tail : List Char} {n n' : Named} {l : Location}
    {endTag : Span} (hlike : LikeNamed (textChange r (byteLength text)) n n')
    (hplaced : Placed l) (hl : n.element.location = some l) (hend : l.endTag = some endTag)
    (hstart : l.startTag.stop = r.start) (hstop : endTag.start = r.stop) (hvoid : n.element.isVoid = false)
    (hflat : flat n.inside)
    (hcut : Cut edited ⟨r.start, r.start + byteLength text⟩ head text tail) :
    textOf? edited n' = some ⟨r.start, r.start + byteLength text⟩ := by
  have hlocation := hlike.element.location
  rw [hl] at hlocation
  generalize hl' : n'.element.location = location' at hlocation
  cases hlocation with
  | @some _ l' hlocation =>
    obtain ⟨htag, endTag', hend', hstop'⟩ := tags_like hlocation hplaced hend hstart hstop
    have hle : ¬ r.start + byteLength text < r.start := by omega
    have hsize : r.start + byteLength text ≤ edited.utf8ByteSize := by
      have := hcut.start
      rw [utf8ByteSize_eq, hcut.whole, byteLength_append, byteLength_append]
      change byteLength head = r.start at this
      omega
    -- the new text stands between the tags, as the old one did
    have hinner : innerSpan? edited n'.element.name l' = some ⟨r.start, r.start + byteLength text⟩ := by
      unfold innerSpan?
      rw [hend', htag, hstart]
      change (Span.ofBounds? r.start endTag'.start).filter _ = _
      rw [hstop', Span.ofBounds?, if_neg hle, Option.filter_some, if_pos (decide_eq_true hsize)]
    have hfits := fits_of_cut hcut
    have hok : flat n'.inside = true ∧ Span.fits ⟨r.start, r.start + byteLength text⟩ edited.toList = true := by
      rw [flat_like hlike.inside]
      exact ⟨hflat, hfits⟩
    unfold textOf?
    rw [isVoid_like hlike.element, hvoid, if_neg Bool.false_ne_true, hl']
    change (innerSpan? edited n'.element.name l').bind _ = _
    rw [hinner, Option.bind_some, if_pos hok]

/-- **An edit that writes escaped text keeps every token.** When the parser has the end tag of an element
and its text holds no markup, the text is replaced; every token of the source is one of the edited source,
and its bytes are the same up to where the text starts and move with the text after it; and the text of
the element is now the one that was written. -/
theorem editText_keeps_tokens {s : Scheme} {source token text : String} {r : Span}
    (h : textSpan? s source token = some r) (hend : hasEndTag s source token)
    (htext : r.slice? source = some text) (hplain : '<' ∉ text.toList) (new : String) :
    ∃ edited, editText s source token (escapeText new) = .ok edited ∧
      (canonicalize s edited).isDegraded = false ∧
      (canonicalize s edited).map = (canonicalize s source).map.map (fun x =>
        (x.1, shiftSpanAfter r.start text.utf8ByteSize (escapeText new).utf8ByteSize x.2)) ∧
      textSpan? s edited token = some ⟨r.start, r.start + (escapeText new).utf8ByteSize⟩ ∧
      Span.slice? ⟨r.start, r.start + (escapeText new).utf8ByteSize⟩ edited = some (escapeText new) := by
  obtain ⟨t, f, n, hp, hf, hd, hn, htextOf⟩ := seek?_of_textSpan? h
  obtain ⟨hvoid, hflat, -, l, hl, hinner⟩ := textOf?_eq_some htextOf
  obtain ⟨hstart, hle, hstop⟩ := innerSpan?_eq_some hinner
  obtain ⟨endTag, hendTag⟩ := endTag_of_hasEndTag hp hd hn hl hend
  have hstop := hstop endTag hendTag
  have hnamed := List.mem_of_find?_eq_some hn
  have hnode := Forest.node_of_spot (spot_of_nameAll hnamed)
  have hnested := nested_of_text hf
  obtain ⟨-, hplaced, -, -⟩ := Forest.bounds_of_nested hnested hnode hl
  have helement : n.element ∈ f.elements := List.mem_map_of_mem hnode
  -- the source is cut before and after the text, and the end tag follows
  obtain ⟨head, tail, hcut⟩ := cut_of_slice? htext
  obtain ⟨upTo, rest, hupTo, hlength⟩ := occurs_endTag hf helement hl hendTag
  have htail : tail = '<' :: rest := by
    have hsame : (head ++ text.toList) ++ tail = upTo ++ '<' :: rest := by
      rw [List.append_assoc, ← hcut.whole, hupTo]
    refine (append_inj_of_byteLength hsame ?_).2
    rw [byteLength_append, hcut.stop, hlength, hstop]
  subst htail
  obtain ⟨before, token', m, k, x, tag, hocc, -, -, -, -, -, -, hoffset⟩ := occurs_startTag hf helement hl
  have hhead : byteLength head = x.offset := by
    rw [hcut.start, hstart, hoffset]
  obtain ⟨after, hafter⟩ := tokenize_text hocc hcut.whole hhead
  rw [← hhead, hcut.start] at hafter
  let written := (escapeText new).toList
  let edited := String.ofList (head ++ (written ++ '<' :: rest))
  have hedited : Cut edited ⟨r.start, r.start + byteLength written⟩ head written ('<' :: rest) :=
    cut_edited hcut written
  have hc := sound_textChange hle (byteLength written)
  -- both texts are read as characters between the same tokens
  obtain ⟨cs, hcs⟩ := hafter text.toList hplain
  obtain ⟨cs', hcs'⟩ := hafter written (escapeText_unmarked new)
  rw [← hcut.whole, String.ofList_toList] at hcs
  have hhi : r.start + byteLength text.toList = r.stop := by
    rw [← hcut.start, hcut.stop]
  rw [hhi] at hcs
  have hfirst : (before ++ [token']).foldl endAt 0 ≤ (textChange r (byteLength written)).lo := by
    rw [List.foldl_append, List.foldl_cons, List.foldl_nil, endAt, hocc.span, Option.elim_some, hoffset, ← hstart]
    exact Nat.le_refl _
  obtain ⟨f', hf', halike⟩ := Change.forestOf_like hc hcs hcs' hfirst hf (by
    intro offset d d' _ hlike hd'
    exact Change.like_characters_right cs' (Change.like_characters_left cs hlike hd'))
  have hw : ∀ e ∈ f.elements, ∀ e', (textChange r (byteLength written)).Like e e' →
      written? s e' = written? s e := fun _ _ _ he => written?_like he
  have hmoved : (textChange r (byteLength written)).Moved source.utf8ByteSize edited.utf8ByteSize := by
    refine .inr ⟨byteLength ('<' :: rest), ?_, ?_⟩
    · rw [utf8ByteSize_eq, hcut.whole, byteLength_append, byteLength_append, ← Nat.add_assoc, hcut.stop]
      exact Nat.add_comm _ _
    · rw [utf8ByteSize_eq, hedited.whole, byteLength_append, byteLength_append, ← Nat.add_assoc, hedited.stop]
      exact Nat.add_comm _ _
  rw [← utf8ByteSize_eq] at hnested
  obtain ⟨hdegraded, hmap⟩ := canonicalize_like hc.le hc.le' hf hf' halike hw hmoved (by
    intro n' hn' hbound
    have := nonempty_of_bound hnested hnamed hl hendTag hn' (by rw [← hstart]; exact hbound)
    rw [← hstart, ← hstop] at this
    exact this)
  obtain ⟨n', hn', hlike⟩ := seek?_like halike hw hmoved hn
  obtain ⟨t', hp', hd'⟩ := parse_of_forest hf'
  have hspan := textOf?_like hlike hplaced hl hendTag hstart.symm hstop.symm hvoid hflat hedited
  have hold : (textChange r (byteLength written)).hi - (textChange r (byteLength written)).lo = text.utf8ByteSize := by
    rw [utf8ByteSize_eq]
    exact Nat.sub_eq_of_eq_add (by rw [Nat.add_comm]; exact hhi.symm)
  have hnew : (textChange r (byteLength written)).hi' - (textChange r (byteLength written)).lo
      = (escapeText new).utf8ByteSize := by
    rw [utf8ByteSize_eq]
    exact Nat.add_sub_cancel_left _ _
  rw [hold, hnew] at hmap
  refine ⟨edited, ?_, hdegraded, hmap, ?_, ?_⟩
  · rw [editText, h, Option.bind_some, splice?_of_cut hcut]
  · rw [textSpan?_eq hp' hd', hn', Option.bind_some, hspan, utf8ByteSize_eq]
  · rw [utf8ByteSize_eq, slice?_of_cut hedited, String.ofList_toList]

/-- The first item of a list is written anew. -/
theorem editText_of_item :
    textSpan? .default "<ul><li>one</li><li>two</ul>" "v2" = some ⟨8, 11⟩ ∧
      ∃ edited, editText .default "<ul><li>one</li><li>two</ul>" "v2" (escapeText "1 < 2") = .ok edited ∧
        (canonicalize .default edited).isDegraded = false ∧
        (canonicalize .default edited).map =
          (canonicalize .default "<ul><li>one</li><li>two</ul>").map.map (fun x =>
            (x.1, shiftSpanAfter 8 "one".utf8ByteSize (escapeText "1 < 2").utf8ByteSize x.2)) ∧
        textSpan? .default edited "v2" = some ⟨8, 8 + (escapeText "1 < 2").utf8ByteSize⟩ ∧
        Span.slice? ⟨8, 8 + (escapeText "1 < 2").utf8ByteSize⟩ edited = some (escapeText "1 < 2") := by
  have h : textSpan? .default "<ul><li>one</li><li>two</ul>" "v2" = some ⟨8, 11⟩ := by cbv
  have hend : hasEndTag .default "<ul><li>one</li><li>two</ul>" "v2" = true := by cbv
  have htext : Span.slice? ⟨8, 11⟩ "<ul><li>one</li><li>two</ul>" = some "one" := by cbv
  exact ⟨h, editText_keeps_tokens h hend htext (by decide) "1 < 2"⟩

end LiveMarkup.Source
