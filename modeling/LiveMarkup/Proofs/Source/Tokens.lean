/-
The tokens of a source as pieces of its text.

The offset of a tag, a comment or a declaration is taken at the `<` in text at which it may begin, and
kept through all the states in which it is read, however often they go back over what they read. So at
every step the text from that offset on is what was read of it (`begun_of_reads`), and the span that is
reported in the end covers it exactly (`occupies_of_step`). Main fact: `tokenize_occupies`.
-/
import LiveMarkup.Proofs.Html.Lexing.Valid
import LiveMarkup.Proofs.Html.Origin
import LiveMarkup.Proofs.Source.Cut

set_option autoImplicit false

namespace LiveMarkup.Source

open Html Text

/-! ## What was read of the source -/

/-- The lexer stands in the source after what it read of it, and what is being read is the piece from a
`<` to there. -/
structure Begun (source : String) (l : Lexer) : Prop where
  read : ∃ eaten, source.toList = eaten ++ l.rest ∧ l.offset = byteLength eaten
  piece : ∀ start, l.state.start? = some start →
    ∃ head inside, Cut source ⟨start, l.offset⟩ head ('<' :: inside) l.rest

variable {source : String} {l m : Lexer}

/-- **A step keeps the beginning of what is being read**, or it begins at the `<` that the step reads. -/
theorem begun_step (hl : Begun source l) (h : l.step.next = some m) : Begun source m := by
  obtain ⟨eaten, hwhole, hbytes⟩ := hl.read
  obtain ⟨more, hrest, hoffset⟩ := Lexer.moves_step h
  refine ⟨⟨eaten ++ more, ?_, ?_⟩, ?_⟩
  · rw [hwhole, hrest, List.append_assoc]
  · rw [hoffset, hbytes, byteLength_append]
  have ha := Lexer.step_anatomy l
  generalize l.step = s at h ha
  intro start hs
  cases ha with
  | finish => cases h
  | cut => cases h
  | draft start' n errors hs' hstart =>
    obtain rfl := Option.some.inj h
    obtain rfl := Option.some.inj (hs'.symm.trans hs)
    rcases hstart with hstart | ⟨hstart, hhead, -, hne⟩
    · obtain ⟨head, inside, hcut⟩ := hl.piece _ hstart
      rw [hrest] at hcut
      refine ⟨head, inside ++ more, ?_⟩
      rw [hoffset]
      exact cut_extend more hcut
    · -- the draft begins here, and something of it was read
      cases more with
      | nil => exact absurd hrest hne
      | cons c inside =>
        obtain ⟨tail, htail⟩ := List.head?_eq_some_iff.1 hhead
        obtain ⟨rfl, -⟩ := List.cons.inj (htail.symm.trans hrest)
        refine ⟨eaten, inside, ?_, ?_, ?_⟩
        · rw [hwhole, hrest]
        · rw [← hbytes, hstart]
        · rw [← hbytes, hoffset]
  | text cs n errors hs' =>
    obtain rfl := Option.some.inj h
    exact absurd (hs'.symm.trans hs) nofun
  | startTag =>
    obtain rfl := Option.some.inj h
    exact absurd hs nofun
  | other =>
    obtain rfl := Option.some.inj h
    exact absurd hs nofun

/-- **What is being read is a piece of the source.** -/
theorem begun_of_reads {ts : List Token} (h : Lexer.Reads (.start source.toList) ts l) : Begun source l :=
  h.invariant (fun _ _ hl hnext => begun_step hl hnext) ⟨⟨[], rfl, rfl⟩, fun _ hs => absurd hs nofun⟩

/-! ## The spans of tokens -/

/-- A token occupies a span of the source. The span lies in the source between characters, and it covers
what the token was read from, from a `<` to a `>`; the end of the source may cut off a comment or a
declaration instead. -/
structure Occupies (source : String) (t : Token) (span : Span) : Prop where
  nonempty : span.start < span.stop
  inside : span.stop ≤ source.utf8ByteSize
  written : ∃ text, span.slice? source = some text ∧ text.toList.head? = some '<' ∧
    (text.toList.getLast? = some '>' ∨ t.isAside = true ∧ span.stop = source.utf8ByteSize)

theorem occupies_of_cut {t : Token} {span : Span} {head inside tail : List Char}
    (h : Cut source span head ('<' :: inside) tail)
    (hend : ('<' :: inside).getLast? = some '>' ∨ t.isAside = true ∧ tail = []) : Occupies source t span := by
  refine ⟨?_, stop_le_of_cut h, _, slice?_of_cut h, ?_, ?_⟩
  · have hstop := h.stop
    have hsize := Char.utf8Size_pos '<'
    rw [byteLength, h.start] at hstop
    omega
  · rw [String.toList_ofList]
    rfl
  · rw [String.toList_ofList]
    rcases hend with hlast | ⟨haside, rfl⟩
    · exact .inl hlast
    · exact .inr ⟨haside, stop_eq_of_cut h⟩

/-- What ends at the next character, a `>`, is a piece of the source to there. -/
theorem occupies_closed (hl : Begun source l) {start : Nat} (hs : l.state.start? = some start)
    {rest : List Char} (hr : l.rest = '>' :: rest) (t : Token) : Occupies source t ⟨start, l.offset + 1⟩ := by
  obtain ⟨head, inside, hcut⟩ := hl.piece start hs
  rw [hr] at hcut
  have hclosed : Cut source ⟨start, l.offset + 1⟩ head ('<' :: (inside ++ ['>'])) rest := cut_extend ['>'] hcut
  refine occupies_of_cut hclosed (.inl ?_)
  rw [← List.cons_append, List.getLast?_concat]

/-- **A step reports what was read.** -/
theorem occupies_of_step (hl : Begun source l) {t : Token} (ht : t ∈ l.step.tokens)
    (hkind : t.isTag = true ∨ t.isAside = true) : ∃ span, t.span? = some span ∧ Occupies source t span := by
  have hcharacters : ∀ cs : List Char, t ∉ cs.map Token.character := by
    rintro cs hmem
    obtain ⟨c, -, rfl⟩ := List.mem_map.1 hmem
    exact hkind.elim nofun nofun
  have hend : ∀ n, t ≠ .endOfFile n := by
    rintro n rfl
    exact hkind.elim nofun nofun
  have ha := Lexer.step_anatomy l
  generalize l.step = s at ht ha
  cases ha with
  | finish cs errors hr =>
    rcases List.mem_append.1 ht with ht | ht
    · exact absurd ht (hcharacters cs)
    · exact absurd (List.mem_singleton.1 ht) (hend _)
  | cut start token errors hr hs hspan haside =>
    rcases List.mem_cons.1 ht with rfl | ht
    · obtain ⟨head, inside, hcut⟩ := hl.piece start hs
      exact ⟨_, hspan, occupies_of_cut hcut (.inr ⟨haside, hr⟩)⟩
    · exact absurd (List.mem_singleton.1 ht) (hend _)
  | draft => exact absurd ht List.not_mem_nil
  | text cs => exact absurd ht (hcharacters cs)
  | startTag start name selfClosing attributes rest errors hs hr =>
    obtain rfl := List.mem_singleton.1 ht
    exact ⟨_, rfl, occupies_closed hl hs hr _⟩
  | other start token rest errors hs hr hspan =>
    obtain rfl := List.mem_singleton.1 ht
    exact ⟨_, hspan, occupies_closed hl hs hr t⟩

/-- Tokens that are laid out in order have spans in order. -/
theorem pairwise_of_laid {lo : Nat} {ts : List Token} (h : Lexer.Laid lo ts) :
    (ts.filterMap Token.span?).Pairwise Span.before := by
  induction ts generalizing lo with
  | nil => exact .nil
  | cons token ts ih =>
    rw [Lexer.Laid] at h
    cases hs : token.span? with
    | none =>
      rw [hs] at h
      rw [List.filterMap_cons_none hs]
      exact ih h
    | some span =>
      rw [hs] at h
      obtain ⟨-, -, -, hrest⟩ := h
      rw [List.filterMap_cons_some hs]
      refine .cons ?_ (ih hrest)
      intro later hlater
      obtain ⟨t, ht, hspan⟩ := List.mem_filterMap.1 hlater
      exact laid_le hrest ht hspan

/-- **Tags, comments and declarations stand in the source where their spans say.** Each of them has a
span that covers it from its `<` to its `>`, except that the end of the source may cut off a comment or a
declaration; the spans follow one another without overlap; and a start tag has a name in lower case and
attributes with names of their own. -/
theorem tokenize_occupies (source : String) :
    (∀ t ∈ tokenize source, t.isTag = true ∨ t.isAside = true →
        ∃ span, t.span? = some span ∧ Occupies source t span) ∧
      ((tokenize source).filterMap Token.span?).Pairwise Span.before ∧
      ∀ name selfClosing attributes span, .startTag name selfClosing attributes span ∈ tokenize source →
        name ≠ "" ∧ (∀ c ∈ name.toList, c.isUpper = false) ∧ (∀ a ∈ attributes, a.name ≠ "") ∧
          (attributes.map (·.name)).Nodup := by
  refine ⟨?_, pairwise_of_laid (laid_tokenize source), ?_⟩
  · intro t ht hkind
    rw [tokenize_eq] at ht
    obtain ⟨ts, l, hreads, hreport⟩ := Lexer.reads_of_mem ht
    exact occupies_of_step (begun_of_reads hreads) hreport hkind
  · intro name selfClosing attributes span ht
    obtain ⟨hname, hattributes, hnodup⟩ := valid_tokenize ht
    refine ⟨ne_empty_of_tagName hname.chars, ?_, ?_, hnodup⟩
    · exact fun c hc => isUpper_of_toLower (hname.lower c hc)
    · exact fun a ha => ne_empty_of_attributeName (hattributes a ha).chars

end LiveMarkup.Source
