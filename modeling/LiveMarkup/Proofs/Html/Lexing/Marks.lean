/-
Marks in a text.

Every `<` of a text is consumed by a step of its own. That step is made in text, or in a tag, a comment or a
declaration that began before (`reads_mark`, `mark_cases`). What is being read for certain is reported from where it
began, unless the text ends in it (`reported_of_certain`). So what looks like an end tag in text is one, or it is text
(`reported_or_text`).
-/
import LiveMarkup.Proofs.Html.Lexing.Ending
import LiveMarkup.Proofs.Html.Lexing.Raw

set_option autoImplicit false

namespace LiveMarkup.Html

open Text

namespace State

/-- Whether a tag, a comment or a declaration is being read that can no longer turn out to be text. -/
def certain : State → Bool
  | text _ | tagOpen _ | endTagOpen _ | rawLessThan _ _ | rawEndTagOpen _ _ | rawEndTagName _ _ _ => false
  | reference site | namedReference site | ambiguousAmpersand site | numericReference site
  | numericStart site _ _ | numericDigits site _ _ | numericEnd site _ => site.inValue
  | _ => true

end State

namespace Lexer

variable {l m n : Lexer} {s : State} {c : Char} {rest : List Char} {ts : List Token} {errors : Nat}

/-! ## What is read for certain -/

/-- A step in what is being read for certain: it goes on, is reported, or the text ends in it. -/
inductive Keeps : Step → Prop
  | goes {m : Lexer} (errors : Nat) : m.state.certain = true → Keeps ⟨[], errors, some m⟩
  | reports (token : Token) (m : Lexer) (errors : Nat) : token.span?.isSome = true → Keeps ⟨[token], errors, some m⟩
  | ends (ts : List Token) (errors : Nat) : (∀ token ∈ ts, token.span?.isSome = true) → Keeps ⟨ts, errors, none⟩

theorem value_of_inValue {site : Site} (h : site.inValue = true) : ∃ tag quoting, site = .value tag quoting := by
  cases site with
  | text content => exact absurd h Bool.false_ne_true
  | value tag quoting => exact ⟨tag, quoting, rfl⟩

theorem keeps_stay (h : s.certain = true) : Keeps (l.stay s [] errors) := .goes errors h

theorem keeps_take (h : s.certain = true) : Keeps (l.take c rest s [] errors) := .goes errors h

theorem keeps_closeTag {tag : TagDraft} {selfClosing : Bool} : Keeps (l.closeTag rest tag selfClosing errors) := by
  unfold closeTag
  split
  · exact .reports _ _ _ rfl
  · exact .reports _ _ _ rfl

theorem keeps_finish (h : ∀ token ∈ ts, token.span?.isSome = true) : Keeps (l.finish ts errors) :=
  .ends _ _ (List.forall_mem_append.2 ⟨h, List.forall_mem_singleton.2 rfl⟩)

/-- The end of the text drops a tag. -/
theorem keeps_drop : Keeps (l.finish [] errors) :=
  keeps_finish (List.forall_mem_nil _)

theorem keeps_cut {token : Token} (h : token.span?.isSome = true) : Keeps (l.finish [token] errors) :=
  keeps_finish (List.forall_mem_singleton.2 h)

/-- **What is being read for certain goes on, or is reported.** -/
theorem keeps_step (h : l.state.certain = true) : Keeps l.step := by
  obtain ⟨rest, offset, last, state⟩ := l
  -- text, and what may turn out to be text, is not certain; references are so in the value of an attribute
  cases state with
  | text | tagOpen | endTagOpen | rawLessThan | rawEndTagOpen | rawEndTagName => exact absurd h Bool.false_ne_true
  | namedReference site =>
    obtain ⟨tag, quoting, rfl⟩ := value_of_inValue h
    simp only [step]
    unfold stepNamedReference
    cases longestEntity? rest with
    | none => exact keeps_stay rfl
    | some found => exact .goes _ rfl
  | reference site | ambiguousAmpersand site | numericReference site | numericStart site _ _ | numericDigits site _ _
  | numericEnd site _ =>
    obtain ⟨tag, quoting, rfl⟩ := value_of_inValue h
    simp only [step, stepReference, stepAmbiguousAmpersand, stepNumericReference, stepNumericStart, stepNumericDigits,
      stepNumericEnd, stayAt, Site.write, Site.resume]
    repeat' split
    all_goals
      first
      | exact keeps_stay rfl
      | exact keeps_take rfl
  | _ =>
    simp only [step, stepTagName, stepBeforeAttributeName, stepAttributeName, stepAfterAttributeName,
      stepBeforeAttributeValue, stepAttributeValue, stepAfterQuotedValue, stepSelfClosing, stepBogusComment,
      stepCommentStart, stepCommentStartDash, stepComment, stepCommentEndDash, stepCommentEnd, stepCommentEndBang,
      stepDoctype, stepBeforeDoctypeName, stepDoctypeName, stepAfterDoctypeName, stepMarkupDeclaration,
      takeAttributeName]
    repeat' split
    all_goals
      first
      | exact keeps_drop
      | exact keeps_stay rfl
      | exact keeps_take rfl
      | exact keeps_closeTag
      | exact keeps_cut rfl
      | exact .reports _ _ _ rfl
      | exact .goes _ rfl

/-! ## What a step consumes -/

/-- A step consumes nothing, one character, or a word without a mark. -/
def Eats (l : Lexer) (s : Step) : Prop :=
  ∀ m, s.next = some m → m.rest = l.rest ∨ (∃ c, l.rest = c :: m.rest) ∨ ∃ word, l.rest = word ++ m.rest ∧ '<' ∉ word

theorem eats_finish : Eats l (l.finish ts errors) := nofun

theorem eats_stay : Eats l (l.stay s ts errors) := by
  intro m hm
  obtain rfl := Option.some.inj hm
  exact .inl rfl

theorem eats_take {d : Char} (hr : l.rest = c :: rest) (last : Option String) :
    Eats l (take { l with lastStart := last } d rest s ts errors) := by
  intro m hm
  obtain rfl := Option.some.inj hm
  exact .inr (.inl ⟨c, hr⟩)

theorem eats_closeTag {tag : TagDraft} {selfClosing : Bool} (hr : l.rest = c :: rest) :
    Eats l (l.closeTag rest tag selfClosing errors) := by
  unfold closeTag
  split
  · exact eats_take hr l.lastStart
  · exact eats_take hr (some tag.name)

theorem eats_skip {word : List Char} (hr : l.rest = word ++ rest) {k : Nat} (hk : k = word.length) (hno : '<' ∉ word) :
    Eats l (l.skip k s ts errors) := by
  intro m hm
  obtain rfl := Option.some.inj hm
  refine .inr (.inr ⟨word, ?_, hno⟩)
  change l.rest = word ++ l.rest.drop k
  rw [hk, hr, List.drop_left]

/-- The name of a character holds no mark. -/
theorem unmarked_of_longestEntity? {cs : List Char} {found : EntityMatch} (h : longestEntity? cs = some found) :
    '<' ∉ cs.take found.length := by
  obtain ⟨entry, hentry, hspelling, -⟩ := spelling_of_longestEntity? h
  intro hmem
  rcases hspelling.mem hmem with hname | hsemicolon
  · exact (entityTable_unmarked entry hentry _ hname).1 rfl
  · exact absurd hsemicolon (by decide)

theorem eats_namedReference {site : Site} : Eats l (l.stepNamedReference site) := by
  unfold stepNamedReference
  cases hfound : longestEntity? l.rest with
  | none => exact eats_stay
  | some found =>
    have hlength : found.length = (l.rest.take found.length).length := by
      rw [List.length_take, Nat.min_eq_left (length_of_longestEntity? hfound).2]
    exact eats_skip (List.take_append_drop found.length l.rest).symm hlength (unmarked_of_longestEntity? hfound)

theorem eats_word {cs : List Char} {word : String} (h : beginsWith cs word = true) :
    ∃ rest, cs = word.toList ++ rest := by
  obtain ⟨rest, hr⟩ := Option.isSome_iff_exists.1 h
  exact ⟨rest, eq_append_of_dropWord? hr⟩

theorem eats_markupDeclaration {start : Nat} : Eats l (l.stepMarkupDeclaration start) := by
  unfold stepMarkupDeclaration
  split
  · obtain ⟨rest, hr⟩ := eats_word ‹beginsWith l.rest "--" = true›
    exact eats_skip hr rfl (by decide)
  split
  · rename_i h
    have hlower : (l.rest.take 7).map Char.toLower = "doctype".toList := eq_of_beq h
    have hlength : 7 = (l.rest.take 7).length := by
      rw [← List.length_map Char.toLower, hlower]
      rfl
    refine eats_skip (List.take_append_drop 7 l.rest).symm hlength fun hmem => ?_
    have hmark : '<'.toLower ∈ "doctype".toList := hlower ▸ List.mem_map_of_mem hmem
    exact absurd hmark (by decide)
  split
  · obtain ⟨rest, hr⟩ := eats_word ‹beginsWith l.rest "[CDATA[" = true›
    exact eats_skip hr rfl (by decide)
  · exact eats_stay

/-- **No step consumes a mark with something else.** -/
theorem eats_step (l : Lexer) : Eats l l.step := by
  obtain ⟨rest, offset, last, state⟩ := l
  cases state with
  | namedReference site =>
    simp only [step]
    exact eats_namedReference
  | markupDeclaration start =>
    simp only [step]
    exact eats_markupDeclaration
  | _ =>
    simp only [step, stepText, stepTagOpen, stepEndTagOpen, stepTagName, stepRawLessThan, stepRawEndTagOpen,
      stepRawEndTagName, stepBeforeAttributeName, stepAttributeName, stepAfterAttributeName, stepBeforeAttributeValue,
      stepAttributeValue, stepAfterQuotedValue, stepSelfClosing, stepBogusComment, stepCommentStart,
      stepCommentStartDash, stepComment, stepCommentEndDash, stepCommentEnd, stepCommentEndBang, stepDoctype,
      stepBeforeDoctypeName, stepDoctypeName, stepAfterDoctypeName, stepReference, stepAmbiguousAmpersand,
      stepNumericReference, stepNumericStart, stepNumericDigits, stepNumericEnd, takeAttributeName]
    repeat' split
    all_goals
      first
      | exact eats_finish
      | exact eats_stay
      | exact eats_take rfl last
      | exact eats_closeTag rfl

/-- **Every mark is consumed by a step of its own.** -/
theorem reads_mark {before tail : List Char} (hr : l.rest = before ++ '<' :: tail) :
    ∃ ts m n, Reads l ts m ∧ m.rest = '<' :: tail ∧ m.step.next = some n ∧ n.rest = tail := by
  -- by induction on the run: the mark is still ahead, or this step consumes it
  induction l using tokens.induct generalizing before with
  | case1 l hnext =>
    have hend := (getLast?_of_next_none hnext).2
    rw [hr] at hend
    exact absurd hend (List.append_ne_nil_of_right_ne_nil _ (List.cons_ne_nil _ _))
  | case2 l m hnext ih =>
    have hahead : ∀ {before'}, m.rest = before' ++ '<' :: tail →
        ∃ ts m n, Reads l ts m ∧ m.rest = '<' :: tail ∧ m.step.next = some n ∧ n.rest = tail := by
      intro before' hm
      obtain ⟨ts, k, n, hreads, hk, hn, htail⟩ := ih hm
      exact ⟨_, k, n, .step hnext hreads, hk, hn, htail⟩
    rcases eats_step l m hnext with hsame | ⟨c, hc⟩ | ⟨word, hword, hno⟩
    · exact hahead (hsame.trans hr)
    · cases before with
      | nil =>
        rw [hr, List.nil_append] at hc
        exact ⟨[], l, m, .refl l, hr, hnext, (List.cons.inj hc).2.symm⟩
      | cons b before =>
        rw [hr, List.cons_append] at hc
        exact hahead (List.cons.inj hc).2.symm
    · rw [hr] at hword
      rcases List.append_eq_append_iff.1 hword with ⟨more, rfl, hmore⟩ | ⟨more, -, hmore⟩
      · -- the word would reach over the mark
        cases more with
        | nil => exact @hahead [] hmore.symm
        | cons d more =>
          obtain ⟨rfl, -⟩ := List.cons.inj hmore
          exact absurd (List.mem_append_right _ List.mem_cons_self) hno
      · exact hahead hmore

theorem start?_of_certain (h : s.certain = true) : ∃ start, s.start? = some start := by
  cases s with
  | text | tagOpen | endTagOpen | rawLessThan | rawEndTagOpen | rawEndTagName => exact absurd h Bool.false_ne_true
  | reference site | namedReference site | ambiguousAmpersand site | numericReference site | numericStart site _ _
  | numericDigits site _ _ | numericEnd site _ =>
    obtain ⟨tag, quoting, rfl⟩ := value_of_inValue h
    exact ⟨_, rfl⟩
  | _ => exact ⟨_, rfl⟩

/-- **A mark is consumed in text, or in what is being read for certain.** -/
theorem mark_cases {tail : List Char} (hr : l.rest = '<' :: tail) (hnext : l.step.next = some m) (hm : m.rest = tail) :
    (∃ content, l.state = .text content) ∨ l.state.certain = true := by
  -- otherwise the step looks at the mark and leaves it to the next one
  have hstays : ∀ before, m.rest ≠ before ++ '<' :: tail := by
    intro before h
    have hlength := congrArg List.length (hm.symm.trans h)
    rw [List.length_append, List.length_cons] at hlength
    omega
  by_cases htext : ∃ content, l.state = .text content
  · exact .inl htext
  right
  cases hs : l.state.start? with
  | none =>
    obtain ⟨m', cs, errors, before, hstep, -, -, -, hrest, -⟩ :=
      @goes_step l [] tail hs hr List.not_mem_nil (.inr fun content h => htext ⟨content, h⟩)
    rw [hstep] at hnext
    obtain rfl := Option.some.inj hnext
    exact absurd hrest (hstays before)
  | some start =>
    obtain ⟨rest, offset, last, state⟩ := l
    simp only at hr hs
    subst hr
    have hleft : ∀ {k : Lexer}, (⟨'<' :: tail, offset, last, state⟩ : Lexer).step.next = some k →
        k.rest ≠ '<' :: tail := by
      intro k hk
      obtain rfl := Option.some.inj (hnext.symm.trans hk)
      exact hstays []
    cases state with
    | text => cases hs
    | tagOpen | endTagOpen | rawLessThan | rawEndTagOpen | rawEndTagName => exact absurd rfl (hleft rfl)
    | reference site | namedReference site | ambiguousAmpersand site | numericReference site | numericStart site _ _
    | numericDigits site _ _ | numericEnd site _ =>
      cases site with
      | text content => cases hs
      | value tag quoting => rfl
    | _ => rfl

/-! ## What is reported -/

/-- What is being read for certain is not reported as text. -/
theorem characters_of_keeps {cs : List Char} {next : Option Lexer} {more : List Token}
    (h : Keeps ⟨cs.map .character ++ more, errors, next⟩) : cs = [] := by
  cases cs with
  | nil => rfl
  | cons c cs =>
    generalize hts : (c :: cs).map Token.character ++ more = ts at h
    have hmem : .character c ∈ ts := hts ▸ List.mem_cons_self
    cases h with
    | goes => cases hmem
    | reports token m errors hspan =>
      obtain rfl := List.mem_singleton.1 hmem
      cases hspan
    | ends ts errors hspans => cases hspans _ hmem

/-- The text ends in a tag that begins at an offset: the tag is dropped. -/
def EndsIn (start : Nat) (l : Lexer) : Prop :=
  l.step.next = none ∧ l.state.start? = some start ∧ l.step.tokens = [.endOfFile l.offset]

theorem isEndOfFile_of_isAside {token : Token} (h : token.isAside = true) : token.isEndOfFile = false := by
  cases token <;> first | rfl | exact absurd h Bool.false_ne_true

/-- **What is being read for certain is reported from where it began**, unless the text ends in it. -/
theorem reported_of_certain {start : Nat} (h : l.state.certain = true) (hs : l.state.start? = some start) :
    (∃ token rest stop, l.tokens = token :: rest ∧ token.isEndOfFile = false ∧ token.span? = some ⟨start, stop⟩ ∧
        l.offset ≤ stop ∧ (l.rest ≠ [] → l.offset < stop)) ∨
      ∃ k, Reads l [] k ∧ EndsIn start k := by
  -- by induction on the run: of all that a step can do, only what reports no characters is left
  induction l using tokens.induct with
  | case1 l hnext =>
    have hkeeps := keeps_step h
    have ha := step_anatomy l
    rw [tokens_of_none hnext]
    generalize hl : l.step = step at hkeeps ha hnext
    cases ha with
    | finish cs errors hr =>
      obtain rfl := characters_of_keeps hkeeps
      exact .inr ⟨l, .refl l, by rw [hl], hs, by rw [hl]; rfl⟩
    | cut start' token errors hr hs' hspan haside =>
      obtain rfl := Option.some.inj (hs'.symm.trans hs)
      exact .inl ⟨token, _, l.offset, rfl, isEndOfFile_of_isAside haside, hspan, Nat.le_refl _,
        fun hne => absurd hr hne⟩
    | draft => cases hnext
    | text => cases hnext
    | startTag => cases hnext
    | other => cases hnext
  | case2 l m hnext ih =>
    have hkeeps := keeps_step h
    have ha := step_anatomy l
    rw [tokens_of_some hnext]
    generalize hl : l.step = step at hkeeps ha hnext
    cases ha with
    | finish => cases hnext
    | cut => cases hnext
    | draft start' n errors hs' hbegins hmoves =>
      obtain rfl := Option.some.inj hnext
      have hcertain : n.state.certain = true := by
        cases hkeeps with
        | goes errors hcertain => exact hcertain
      -- a draft begins in text only, so this one goes on
      have hstart : start' = start := by
        rcases hbegins with hbegins | ⟨-, -, htext, -⟩
        · exact Option.some.inj (hbegins.symm.trans hs)
        · rw [htext] at hs
          cases hs
      subst hstart
      obtain ⟨eaten, heaten, hoffset⟩ := hmoves
      rcases ih hcertain hs' with ⟨token, rest, stop, htokens, hend, hspan, hle, hlt⟩ | ⟨k, hreads, hends⟩
      -- the draft ends past this place: this step consumed the last of the text, or some text is still ahead
      · refine .inl ⟨token, rest, stop, htokens, hend, hspan, by omega, fun hne => ?_⟩
        by_cases hrest : n.rest = []
        · rw [hrest, List.append_nil] at heaten
          obtain ⟨c, cs, rfl⟩ := List.exists_cons_of_ne_nil (heaten ▸ hne)
          have := c.utf8Size_pos
          rw [byteLength] at hoffset
          omega
        · have := hlt hrest
          omega
      · exact .inr ⟨k, .silent (by rw [hl]) (by rw [hl]) hreads, hends⟩
    | text cs n errors hs' =>
      rw [← List.append_nil (cs.map Token.character)] at hkeeps
      obtain rfl := characters_of_keeps hkeeps
      cases hkeeps with
      | goes errors hcertain =>
        obtain ⟨start', hstart⟩ := start?_of_certain hcertain
        rw [hs'] at hstart
        cases hstart
    | startTag start' name selfClosing attributes rest errors hs' hr =>
      obtain rfl := Option.some.inj (hs'.symm.trans hs)
      exact .inl ⟨_, _, l.offset + 1, rfl, rfl, rfl, Nat.le_succ _, fun _ => Nat.lt_succ_self _⟩
    | other start' token rest errors hs' hr hspan hkind =>
      obtain rfl := Option.some.inj (hs'.symm.trans hs)
      refine .inl ⟨token, _, l.offset + 1, rfl, ?_, hspan, Nat.le_succ _, fun _ => Nat.lt_succ_self _⟩
      rcases hkind with haside | ⟨name, span, rfl⟩
      · exact isEndOfFile_of_isAside haside
      · rfl

/-! ## Runs from one place -/

/-- Of two runs from one place, one goes on where the other one stands. -/
theorem reads_linear {us : List Token} (h : Reads l ts m) (k : Reads l us n) :
    (∃ vs, Reads m vs n) ∨ ∃ vs, Reads n vs m := by
  induction h generalizing us with
  | refl l => exact .inl ⟨us, k⟩
  | step hs hreads ih =>
    cases k with
    | refl => exact .inr ⟨_, .step hs hreads⟩
    | step hs' hreads' =>
      obtain rfl := Option.some.inj (hs.symm.trans hs')
      exact ih hreads'

/-- In text every step consumes something. -/
theorem offset_lt_of_text {content : Content} (hl : l.state = .text content) (hr : l.rest ≠ [])
    (h : l.step.next = some m) : l.offset < m.offset := by
  obtain ⟨rest, offset, last, state⟩ := l
  simp only at hl hr
  subst hl
  obtain ⟨c, rest, rfl⟩ := List.exists_cons_of_ne_nil hr
  have htake : m.offset = offset + c.utf8Size := by
    simp only [step, stepText] at h
    repeat' split at h
    all_goals
      obtain rfl := Option.some.inj h
      rfl
  have := c.utf8Size_pos
  change offset < m.offset
  omega

/-- **A run comes to a place in text once.** -/
theorem eq_of_text {us : List Token} {content content' : Content} (h : Reads l ts m) (k : Reads l us n)
    (hm : m.state = .text content) (hn : n.state = .text content') (hoffset : m.offset = n.offset) (hr : m.rest ≠ []) :
    m = n := by
  have hsame : ∀ {a b : Lexer} {content vs}, Reads a vs b → a.state = .text content → a.offset = b.offset →
      a.rest ≠ [] → a = b := by
    intro a b content vs hreads ha hab hrest
    cases hreads with
    | refl => rfl
    | step hs hmore =>
      have hlt := offset_lt_of_text ha hrest hs
      obtain ⟨eaten, -, hle⟩ := hmore.moves
      omega
  rcases reads_linear h k with ⟨vs, hreads⟩ | ⟨vs, hreads⟩
  · exact hsame hreads hm hoffset hr
  · exact (hsame hreads hn hoffset.symm (Moves.ne_nil hreads.moves hr)).symm

/-- What is being read begins where nothing before it reaches. -/
theorem reach_le_of_reads (hl : Behind l) (h : Reads l ts m) : l.reach ≤ m.reach := by
  induction h with
  | refl l => exact Nat.le_refl _
  | @step l m n ts hs _ ih =>
    refine Nat.le_trans ?_ (ih (behind_step hl hs))
    have hmoves := moves_step hs
    have ha := step_anatomy l
    generalize l.step = step at hs ha
    obtain ⟨eaten, -, hoffset⟩ := hmoves
    -- a draft begins where it began before, or here; when it ends, all that was read lies behind
    have hreach := reach_le_offset hl
    cases ha with
    | finish => cases hs
    | cut => cases hs
    | draft start k errors hstart hbegins =>
      obtain rfl := Option.some.inj hs
      have hk : k.reach = start := by rw [reach, hstart]; rfl
      rcases hbegins with hbegins | ⟨hbegins, -, -, -⟩
      · rw [hk, reach, hbegins]
        exact Nat.le_refl _
      · rw [hk, ← hbegins]
        exact hreach
    | text cs k errors hstart =>
      obtain rfl := Option.some.inj hs
      have hk : k.reach = k.offset := by rw [reach, hstart]; rfl
      omega
    | startTag start name selfClosing attributes rest errors _ _ =>
      obtain rfl := Option.some.inj hs
      change l.reach ≤ l.offset + 1
      omega
    | other start token rest errors _ _ _ _ =>
      obtain rfl := Option.some.inj hs
      change l.reach ≤ l.offset + 1
      omega

/-! ## End tags -/

theorem certain_of_tag {tag : TagDraft} (h : s.tag? = some tag) :
    s.certain = true ∧ s.start? = some tag.start ∧ InMarkup s := by
  cases s with
  | beforeAttributeName | attributeName | afterAttributeName | beforeAttributeValue | attributeValue | afterQuotedValue
  | selfClosing =>
    obtain rfl := Option.some.inj h
    exact ⟨rfl, rfl, rfl, rfl⟩
  | reference site | namedReference site | ambiguousAmpersand site | numericReference site | numericStart site _ _
  | numericDigits site _ _ | numericEnd site _ =>
    cases site with
    | text content => cases h
    | value tag' quoting =>
      obtain rfl := Option.some.inj h
      exact ⟨rfl, rfl, rfl, rfl⟩
  | _ => cases h

/-- An end tag is reported where it begins, unless the text ends in it. -/
def Reported (name : String) (start : Nat) (l : Lexer) : Prop :=
  (∃ stop rest, l.tokens = .endTag name ⟨start, stop⟩ :: rest) ∨ ∃ k, Reads l [] k ∧ EndsIn start k

theorem reported_of_reads {name : String} {start : Nat} (h : Reads l [] m) (hm : Reported name start m) :
    Reported name start l := by
  rcases hm with ⟨stop, rest, htokens⟩ | ⟨k, hreads, hends⟩
  · exact .inl ⟨stop, rest, by rw [tokens_of_reads h, htokens, List.nil_append]⟩
  · exact .inr ⟨k, h.trans hreads, hends⟩

/-- **An end tag whose attributes are being read is reported.** -/
theorem reported_of_tag {tag : TagDraft} (h : l.state.tag? = some tag) (hclosing : tag.closing = true) :
    Reported tag.name tag.start l := by
  obtain ⟨hcertain, hstart, hmarkup⟩ := certain_of_tag h
  -- in a tag the last start tag does not matter, so it may be that of the same name
  have hends : EndsText tag.name l.tokens := by
    rw [← @tokens_relast l (some tag.name) hmarkup]
    exact endsText_of_tag rfl h hclosing rfl
  rcases reported_of_certain hcertain hstart with ⟨token, rest, stop, htokens, hend, hspan, -⟩ | hcut
  · rw [htokens] at hends
    rcases hends with ⟨n, heof⟩ | ⟨span, rest', htag⟩
    · rw [(List.cons.inj heof).1] at hend
      cases hend
    · obtain rfl := (List.cons.inj htag).1
      obtain rfl := Option.some.inj hspan
      exact .inl ⟨stop, rest, htokens⟩
  · exact .inr hcut

/-- An end tag whose name was read is reported. -/
theorem reported_of_continues {c : Char} {after : List Char} {tag : TagDraft} (h : Continues c after tag l)
    (hclosing : tag.closing = true) : Reported tag.name tag.start l := by
  rcases h with hstep | hstep | hstep
  · exact reported_of_reads (.one (congrArg Step.next hstep) (congrArg Step.tokens hstep)) (reported_of_tag rfl hclosing)
  · exact reported_of_reads (.one (congrArg Step.next hstep) (congrArg Step.tokens hstep)) (reported_of_tag rfl hclosing)
  · rw [closeTag, if_pos hclosing] at hstep
    have htokens := tokens_of_some (congrArg Step.next hstep)
    rw [hstep] at htokens
    exact .inl ⟨_, _, htokens⟩

theorem continues_tagName {c : Char} (hc : endsName c = true) (after : List Char) (offset : Nat)
    (last : Option String) (tag : TagDraft) : Continues c after tag ⟨c :: after, offset, last, .tagName tag⟩ := by
  simp only [Continues, step, stepTagName]
  rw [endsName, Bool.or_eq_true, Bool.or_eq_true, beq_iff_eq, beq_iff_eq] at hc
  by_cases hspace : isAsciiSpace c = true
  · exact .inl (if_pos hspace)
  · rw [if_neg hspace]
    by_cases hslash : c = '/'
    · exact .inr (.inl (if_pos hslash))
    · rw [if_neg hslash]
      exact .inr (.inr (if_pos ((hc.resolve_left fun h => h.elim hspace hslash))))

/-- A name ends where a character that ends names follows it. -/
theorem name_unique {w w' after after' : List Char} {c : Char} (h : w ++ after = w' ++ c :: after')
    (hw : ∀ d ∈ w, endsName d = false) (hw' : ∀ d ∈ w', endsName d = false)
    (hafter : ∀ d ∈ after.head?, endsName d = true) (hc : endsName c = true) : w = w' := by
  rcases List.append_eq_append_iff.1 h with ⟨more, rfl, hmore⟩ | ⟨more, rfl, hmore⟩
  · cases more with
    | nil => exact (List.append_nil w).symm
    | cons d more =>
      have hends := hafter d (by rw [hmore]; rfl)
      rw [hw' d (List.mem_append_right _ List.mem_cons_self)] at hends
      cases hends
  · cases more with
    | nil => exact List.append_nil w'
    | cons d more =>
      obtain ⟨rfl, -⟩ := List.cons.inj hmore
      rw [hw c (List.mem_append_right _ List.mem_cons_self)] at hc
      cases hc

theorem endsName_of_tagChar {c : Char} (h : TagChar c) : endsName c = false := by
  rw [endsName, h.space, beq_eq_false_iff_ne.2 h.slash, beq_eq_false_iff_ne.2 h.close]
  rfl

section TagInText

variable {content : Content} {w after : List Char}

/-- What looks like an end tag in the text of an element ends it when it has its name, and is text otherwise. -/
theorem reported_or_text_of_raw {name : String} (hm : content ≠ .markup) (hp : content ≠ .plain) (hw : TagName w)
    (hafter : ∀ c ∈ after.head?, endsName c = true) (offset : Nat) :
    Reported (String.ofList (w.map Char.toLower)) offset
        ⟨'<' :: '/' :: (w ++ after), offset, some name, .text content⟩ ∨
      ∃ rest, (⟨'<' :: '/' :: (w ++ after), offset, some name, .text content⟩ : Lexer).tokens
        = .character '<' :: rest := by
  rcases markPiece_or_closes name ('/' :: (w ++ after)) with
    ⟨piece, more, hsplit, hpiece⟩ | ⟨w', c, after', hrest, hw', halpha, hname, hc⟩
  · right
    obtain ⟨d, piece', rfl⟩ := List.exists_cons_of_length_pos (length_of_markPiece hpiece)
    obtain ⟨rfl, -⟩ := List.cons.inj hsplit
    rw [hsplit, tokens_of_reads (reads_markPiece hm hp hpiece offset)]
    exact ⟨_, rfl⟩
  · left
    have hchars : ∀ d ∈ w, TagChar d := by
      obtain ⟨hfirst, hothers⟩ := hw
      exact List.forall_mem_cons.2 ⟨tagChar_of_isAlpha hfirst, hothers⟩
    obtain ⟨-, hsplit⟩ := List.cons.inj hrest
    obtain rfl : w = w' := name_unique hsplit (fun d hd => endsName_of_tagChar (hchars d hd))
      (fun d hd => endsName_of_tagChar (tagChar_of_isAlpha (halpha d hd))) hafter hc
    obtain rfl := List.append_cancel_left hsplit
    obtain rfl : name = (String.ofList w).toLower := by
      apply String.ext
      rw [toList_toLower, String.toList_ofList, hname]
    have hlower : String.ofList (w.map Char.toLower) = (String.ofList w).toLower := by
      rw [toLower_eq, String.toList_ofList]
    rw [hlower]
    exact reported_of_reads (reads_rawEndTagName hm hp hw' halpha _ offset)
      (reported_of_continues (continues_rawEndTagName hc after' _) rfl)

/-- **What looks like an end tag in text is one, or it is text.** -/
theorem reported_or_text {offset : Nat} {last : Option String} (hw : TagName w)
    (hafter : ∀ c ∈ after.head?, endsName c = true)
    (hknown : Known ⟨'<' :: '/' :: (w ++ after), offset, last, .text content⟩) :
    Reported (String.ofList (w.map Char.toLower)) offset ⟨'<' :: '/' :: (w ++ after), offset, last, .text content⟩ ∨
      ∃ rest, (⟨'<' :: '/' :: (w ++ after), offset, last, .text content⟩ : Lexer).tokens = .character '<' :: rest := by
  by_cases hm : content = .markup
  · subst hm
    refine .inl (reported_of_reads (reads_endOpen hw offset) ?_)
    cases after with
    | nil => exact .inr ⟨_, .refl _, rfl, rfl, rfl⟩
    | cons c after => exact reported_of_continues (continues_tagName (hafter c rfl) after _ _ _) rfl
  by_cases hp : content = .plain
  · subst hp
    exact .inr ⟨_, tokens_of_some rfl⟩
  -- the text of an element is read since its start tag
  obtain ⟨name, hlast, -⟩ := hknown.resolve_left hm
  simp only at hlast
  subst hlast
  exact reported_or_text_of_raw hm hp hw hafter offset

end TagInText

end Lexer

end LiveMarkup.Html
