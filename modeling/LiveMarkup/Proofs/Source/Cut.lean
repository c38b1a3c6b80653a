/-
Cutting a source.

A part of a source that can be edited is a piece of its text, with a piece before it and one after it
(`cut_of_slice?`), and an edit writes another piece in its place (`splice?_of_cut`). The tags of an
element are such pieces: the lexer comes to each of them in text (`occurs_startTag`, `occurs_endTag`).
-/
import LiveMarkup.Proofs.Html.Reading
import LiveMarkup.Source.Edit

set_option autoImplicit false

namespace LiveMarkup.Source

open Html Html.Plan Text

/-! ## Pieces of a text -/

/-- A text is a piece before a span, the piece that the span covers, and a piece after it. -/
structure Cut (source : String) (r : Span) (head middle tail : List Char) : Prop where
  whole : source.toList = head ++ (middle ++ tail)
  start : byteLength head = r.start
  stop : byteLength head + byteLength middle = r.stop

section Cut

variable {source : String} {r : Span} {head middle tail : List Char}

theorem slice_of_cut (h : Cut source r head middle tail) :
    Text.slice? source.toList r.start r.stop = some middle := by
  rw [h.whole, ← h.start, ← h.stop, slice?_append]

theorem cut_of_slice (h : Text.slice? source.toList r.start r.stop = some middle) :
    ∃ head tail, Cut source r head middle tail := by
  unfold Text.slice? at h
  split at h
  · exact absurd h nofun
  · rename_i hle
    obtain ⟨⟨head, rest⟩, hhead, h⟩ := Option.bind_eq_some_iff.1 h
    obtain ⟨⟨middle', tail⟩, hmiddle, h⟩ := Option.bind_eq_some_iff.1 h
    obtain rfl := Option.some.inj h
    have hstart := byteLength_of_splitAt? hhead
    have hlength := byteLength_of_splitAt? hmiddle
    refine ⟨head, tail, ?_, hstart, ?_⟩
    · rw [← splitAt?_append hhead, ← splitAt?_append hmiddle]
    · omega

theorem fits_of_cut (h : Cut source r head middle tail) : r.fits source.toList := by
  rw [Span.fits, slice_of_cut h]
  rfl

/-- **What a span covers is a piece of the text.** -/
theorem cut_of_slice? {text : String} (h : r.slice? source = some text) :
    ∃ head tail, Cut source r head text.toList tail := by
  obtain ⟨cs, hcs, rfl⟩ := Option.map_eq_some_iff.1 h
  rw [String.toList_ofList]
  exact cut_of_slice hcs

theorem slice?_of_cut (h : Cut source r head middle tail) : r.slice? source = some (String.ofList middle) := by
  rw [Span.slice?, slice_of_cut h]
  rfl

/-- **An edit replaces a piece of the text.** -/
theorem splice?_of_cut (h : Cut source r head middle tail) (text : String) :
    r.splice? source text = some (String.ofList (head ++ (text.toList ++ tail))) := by
  have hle : ¬ r.stop < r.start := by
    have := h.start
    have := h.stop
    omega
  have hlength : r.stop - r.start = byteLength middle := by
    have := h.start
    have := h.stop
    omega
  rw [Span.splice?, if_neg hle, hlength, h.whole, ← h.start, splitAt?_byteLength]
  change (splitAt? (middle ++ tail) (byteLength middle)).bind _ = _
  rw [splitAt?_byteLength, ← List.append_assoc]
  rfl

/-- A piece goes on with the text after it. -/
theorem cut_extend (more : List Char) (h : Cut source r head middle (more ++ tail)) :
    Cut source ⟨r.start, r.stop + byteLength more⟩ head (middle ++ more) tail := by
  refine ⟨?_, h.start, ?_⟩
  · rw [h.whole, List.append_assoc]
  · rw [byteLength_append, ← Nat.add_assoc, h.stop]

theorem stop_le_of_cut (h : Cut source r head middle tail) : r.stop ≤ source.utf8ByteSize := by
  have hstop := h.stop
  rw [utf8ByteSize_eq, h.whole, byteLength_append, byteLength_append]
  omega

theorem stop_eq_of_cut (h : Cut source r head middle []) : r.stop = source.utf8ByteSize := by
  rw [utf8ByteSize_eq, h.whole, List.append_nil, byteLength_append]
  exact h.stop.symm

/-- The text after an edit, cut at the same place. -/
theorem cut_edited (h : Cut source r head middle tail) (text : List Char) :
    Cut (String.ofList (head ++ (text ++ tail))) ⟨r.start, r.start + byteLength text⟩ head text tail := by
  refine ⟨String.toList_ofList, h.start, ?_⟩
  rw [h.start]

end Cut

/-! ## The tags of an element -/

variable {source : String} {f : Forest} {e : Element} {l : Location}

theorem reads_start {before : List Token} {m : Lexer} (h : Lexer.Reads (.start source.toList) before m) :
    ∃ eaten, source.toList = eaten ++ m.rest ∧ m.offset = byteLength eaten := by
  obtain ⟨eaten, hrest, hoffset⟩ := h.moves
  refine ⟨eaten, hrest, ?_⟩
  rw [hoffset]
  exact Nat.zero_add _

/-- **The lexer comes to the start tag of an element.** -/
theorem occurs_startTag (hf : forestOf source = .ok f) (he : e ∈ f.elements) (hl : e.location = some l) :
    ∃ before token m k n tag, Lexer.Occurs (.start source.toList) before token m k n ∧
      tokenize source = before ++ token :: n.tokens ∧ Opens token tag ∧ Own tag (reopened e) ∧
      tag.span = l.startTag ∧ tag.selfClosing = l.selfClosing ∧
      m.offset = l.startTag.start ∧ n.offset = l.startTag.stop := by
  obtain ⟨token, htoken, tag, hopens, hown, hspan, hsc⟩ := startTag_of_text hf he hl
  obtain ⟨before, after, htokens⟩ := List.append_of_mem htoken
  obtain ⟨htag, hkind⟩ := span?_of_opens hopens
  have htokens' := htokens
  rw [tokenize_eq] at htokens'
  obtain ⟨m, k, n, hocc, rfl⟩ := Lexer.occurs_of_tokens rfl htokens' hkind
  have hbounds := hocc.span
  rw [htag, hspan] at hbounds
  obtain hbounds := Option.some.inj hbounds
  refine ⟨before, token, m, k, n, tag, hocc, htokens, hopens, hown, hspan, hsc, ?_, ?_⟩
  · rw [hbounds]
  · rw [hbounds]

/-- **The end tag of an element begins at a `<`.** -/
theorem occurs_endTag (hf : forestOf source = .ok f) (he : e ∈ f.elements) (hl : e.location = some l)
    {endTag : Span} (hend : l.endTag = some endTag) :
    ∃ head tail, source.toList = head ++ '<' :: tail ∧ byteLength head = endTag.start := by
  obtain ⟨name, htoken, -⟩ := endTag_of_text hf e he l endTag hl hend
  obtain ⟨before, after, htokens⟩ := List.append_of_mem htoken
  rw [tokenize_eq] at htokens
  obtain ⟨m, k, n, hocc, -⟩ := Lexer.occurs_of_tokens rfl htokens rfl
  have hbounds := Option.some.inj hocc.span
  obtain ⟨head, hwhole, hoffset⟩ := reads_start hocc.reads
  obtain ⟨tail, htail⟩ := List.head?_eq_some_iff.1 hocc.begins.2
  refine ⟨head, tail, ?_, ?_⟩
  · rw [hwhole, htail]
  · rw [hbounds, ← hoffset]

end LiveMarkup.Source
