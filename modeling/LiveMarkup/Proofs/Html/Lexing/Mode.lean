/-
How the text of an element is read.

Text that is not read as markup ends with the end tag of its element only. So a tag that begins in such
text is that end tag (`endTag_of_raw`), and start tags begin in markup. In markup the machine does not
ask for the name of the last start tag (`tokens_relast`).
-/
import LiveMarkup.Proofs.Html.Lexing.Layout

set_option autoImplicit false

namespace LiveMarkup.Html

open Text

/-! ## The element whose text is read -/

namespace State

/-- Whether what may be the end tag of a raw text element is being read. -/
def isRaw : State → Bool
  | rawLessThan _ _ | rawEndTagOpen _ _ | rawEndTagName _ _ _ => true
  | _ => false

/-- The tag whose attributes are being read. -/
def tag? : State → Option TagDraft
  | beforeAttributeName tag | attributeName tag | afterAttributeName tag | beforeAttributeValue tag
  | attributeValue tag _ | afterQuotedValue tag | selfClosing tag => some tag
  | reference site | namedReference site | ambiguousAmpersand site | numericReference site
  | numericStart site _ _ | numericDigits site _ _ | numericEnd site _ =>
    match site with
    | .text _ => none
    | .value tag _ => some tag
  | _ => none

end State

namespace Lexer

variable {l : Lexer} {s : State} {c : Char} {rest : List Char} {errors : Nat} {ts : List Token}

/-- The last start tag is that of the element whose text is read, unless markup is read. -/
def Known (l : Lexer) : Prop :=
  l.state.content = .markup ∨ ∃ name, l.lastStart = some name ∧ Content.ofElement name = l.state.content

theorem known_of_content {m : Lexer} (h : Known l) (hlast : m.lastStart = l.lastStart)
    (hc : m.state.content = l.state.content ∨ m.state.content = .markup) : Known m := by
  rcases hc with hc | hc
  · rcases h with h | ⟨name, hname, hcontent⟩
    · exact .inl (hc.trans h)
    · exact .inr ⟨name, hlast.trans hname, hcontent.trans hc.symm⟩
  · exact .inl hc

/-- **The machine knows the element whose text it reads.** -/
theorem known_step {m : Lexer} (h : Known l) (hs : l.step.next = some m) : Known m := by
  have ha := step_anatomy l
  generalize l.step = step at hs ha
  cases ha with
  | finish => exact absurd hs nofun
  | cut => exact absurd hs nofun
  | draft start n errors _ _ _ hlast hc =>
    obtain rfl := Option.some.inj hs
    exact known_of_content h hlast hc
  | text cs n errors _ _ hlast hc =>
    obtain rfl := Option.some.inj hs
    exact known_of_content h hlast hc
  | startTag start name selfClosing attributes rest errors _ _ =>
    obtain rfl := Option.some.inj hs
    cases selfClosing with
    | false => exact .inr ⟨name, rfl, rfl⟩
    | true => exact .inl rfl
  | other =>
    obtain rfl := Option.some.inj hs
    exact .inl rfl

/-! ## The end tag of the element -/

/-- What is being read ends the text of an element, or is part of it. -/
def Closing (name : String) (l : Lexer) : Prop :=
  l.lastStart = some name ∧
    (l.state.isRaw = true ∨ ∃ tag, l.state.tag? = some tag ∧ tag.closing = true ∧ tag.name = name)

/-- A step goes on reading the end tag of an element, or goes on in its text. -/
structure Closes (name : String) (s : Step) : Prop where
  tokens : ∀ t ∈ s.tokens, t.isTag = true → ∃ span, t = .endTag name span
  next : ∀ m, s.next = some m → s.tokens = [] → Closing name m

section Closes

variable {name : String}

theorem closes_characters (cs : List Char) : ∀ t ∈ cs.map Token.character, t.isTag = true → ∃ span, t = .endTag name span := by
  intro t ht htag
  obtain ⟨c, -, rfl⟩ := List.mem_map.1 ht
  exact absurd htag nofun

/-- Going on in text reports a character. -/
theorem closes_text (cs : List Char) (hne : cs ≠ []) (hts : ts = cs.map .character) :
    Closes name (l.stay s ts errors) := by
  subst hts
  refine ⟨closes_characters cs, ?_⟩
  intro m _ hnil
  exact absurd (List.map_eq_nil_iff.1 hnil) hne

theorem closes_stay (hlast : l.lastStart = some name)
    (h : s.isRaw = true ∨ ∃ tag, s.tag? = some tag ∧ tag.closing = true ∧ tag.name = name) :
    Closes name (l.stay s [] errors) := by
  refine ⟨fun t ht => absurd ht List.not_mem_nil, ?_⟩
  intro m hm _
  obtain rfl := Option.some.inj hm
  exact ⟨hlast, h⟩

theorem closes_take (hlast : l.lastStart = some name)
    (h : s.isRaw = true ∨ ∃ tag, s.tag? = some tag ∧ tag.closing = true ∧ tag.name = name) :
    Closes name (l.take c rest s [] errors) := by
  refine ⟨fun t ht => absurd ht List.not_mem_nil, ?_⟩
  intro m hm _
  obtain rfl := Option.some.inj hm
  exact ⟨hlast, h⟩

/-- A step that goes on reading the end tag of an element reports nothing before the tag ends. -/
inductive ClosesTag (name : String) : Step → Prop
  | goes {m : Lexer} {tag : TagDraft} (errors : Nat) : m.lastStart = some name → m.state.tag? = some tag →
      tag.closing = true → tag.name = name → ClosesTag name ⟨[], errors, some m⟩
  | ends (span : Span) (m : Lexer) (errors : Nat) : ClosesTag name ⟨[.endTag name span], errors, some m⟩
  | cut (n : Nat) (errors : Nat) : ClosesTag name ⟨[.endOfFile n], errors, none⟩

theorem closes_of_closesTag {step : Step} (h : ClosesTag name step) : Closes name step := by
  cases h with
  | goes errors hlast htag hclosing hname =>
    refine ⟨fun t ht => absurd ht List.not_mem_nil, ?_⟩
    intro m hm _
    obtain rfl := Option.some.inj hm
    exact ⟨hlast, .inr ⟨_, htag, hclosing, hname⟩⟩
  | ends span m errors =>
    refine ⟨?_, fun m _ hnil => absurd hnil (List.cons_ne_nil _ _)⟩
    intro t ht _
    exact ⟨span, List.mem_singleton.1 ht⟩
  | cut n errors =>
    refine ⟨?_, fun m hm => absurd hm nofun⟩
    intro t ht htag
    rw [List.mem_singleton.1 ht] at htag
    exact absurd htag nofun

theorem closesTag_stay {tag : TagDraft} (hlast : l.lastStart = some name) (htag : s.tag? = some tag)
    (hclosing : tag.closing = true) (hname : tag.name = name) : ClosesTag name (l.stay s [] errors) :=
  .goes errors hlast htag hclosing hname

theorem closesTag_take {tag : TagDraft} (hlast : l.lastStart = some name) (htag : s.tag? = some tag)
    (hclosing : tag.closing = true) (hname : tag.name = name) : ClosesTag name (l.take c rest s [] errors) :=
  .goes errors hlast htag hclosing hname

theorem closesTag_closeTag {tag : TagDraft} {selfClosing : Bool} (hclosing : tag.closing = true)
    (hname : tag.name = name) : ClosesTag name (l.closeTag rest tag selfClosing errors) := by
  unfold closeTag
  rw [if_pos hclosing, hname]
  exact .ends _ _ _

theorem pushAttributeName_kept (tag : TagDraft) (c : Char) :
    (tag.pushAttributeName c).closing = tag.closing ∧ (tag.pushAttributeName c).name = tag.name := by
  unfold TagDraft.pushAttributeName
  split
  · exact ⟨rfl, rfl⟩
  · exact ⟨rfl, rfl⟩

theorem appendValue_kept (tag : TagDraft) (text : String) :
    (tag.appendValue text).closing = tag.closing ∧ (tag.appendValue text).name = tag.name := by
  unfold TagDraft.appendValue
  split
  · exact ⟨rfl, rfl⟩
  · exact ⟨rfl, rfl⟩

/-- The text that a reference in a value stands for leaves the tag an end tag. -/
theorem closesTag_reference {site : Site} {tag : TagDraft} {quoting : Quoting} (hsite : site = .value tag quoting)
    (hlast : l.lastStart = some name) (hclosing : tag.closing = true) (hname : tag.name = name)
    (hs : s = .reference site ∨ s = .namedReference site ∨ s = .ambiguousAmpersand site ∨
      s = .numericReference site ∨ (∃ base written, s = .numericStart site base written) ∨
      (∃ base code, s = .numericDigits site base code) ∨ ∃ code, s = .numericEnd site code) :
    ClosesTag name ({ l with state := s } : Lexer).step := by
  subst hsite
  have happend : ∀ text, (tag.appendValue text).closing = true ∧ (tag.appendValue text).name = name := by
    intro text
    obtain ⟨hc, hn⟩ := appendValue_kept tag text
    exact ⟨hc.trans hclosing, hn.trans hname⟩
  rcases hs with rfl | rfl | rfl | rfl | ⟨base, written, rfl⟩ | ⟨base, code, rfl⟩ | ⟨code, rfl⟩
  case inr.inl =>
    simp only [step]
    unfold stepNamedReference
    cases longestEntity? l.rest with
    | none => exact closesTag_stay hlast rfl (happend _).1 (happend _).2
    | some found => exact .goes _ hlast rfl (happend _).1 (happend _).2
  all_goals
    simp only [step, stepReference, stepAmbiguousAmpersand, stepNumericReference, stepNumericStart,
      stepNumericDigits, stepNumericEnd, stayAt, Site.write, Site.resume]
    repeat' split
    all_goals
      first
      | exact closesTag_stay hlast rfl hclosing hname
      | exact closesTag_take hlast rfl hclosing hname
      | exact closesTag_stay hlast rfl (happend _).1 (happend _).2
      | exact closesTag_take hlast rfl (happend _).1 (happend _).2

/-- A tag that is being read stays the end tag of the element. -/
theorem closesTag_attributes {tag : TagDraft} (hlast : l.lastStart = some name) (hclosing : tag.closing = true)
    (hname : tag.name = name)
    (hs : s = .beforeAttributeName tag ∨ s = .attributeName tag ∨ s = .afterAttributeName tag ∨
      s = .beforeAttributeValue tag ∨ (∃ quoting, s = .attributeValue tag quoting) ∨ s = .afterQuotedValue tag ∨
      s = .selfClosing tag) : ClosesTag name ({ l with state := s } : Lexer).step := by
  -- whatever a step writes into the tag, it stays an end tag of the same name
  have hpush : ∀ c, (tag.pushAttributeName c).closing = true ∧ (tag.pushAttributeName c).name = name := by
    intro c
    obtain ⟨hc, hn⟩ := pushAttributeName_kept tag c
    exact ⟨hc.trans hclosing, hn.trans hname⟩
  have hbegin : ∀ c, (tag.beginAttribute.pushAttributeName c).closing = true ∧
      (tag.beginAttribute.pushAttributeName c).name = name := by
    intro c
    obtain ⟨hc, hn⟩ := pushAttributeName_kept tag.beginAttribute c
    exact ⟨hc.trans hclosing, hn.trans hname⟩
  have happend : ∀ text, (tag.appendValue text).closing = true ∧ (tag.appendValue text).name = name := by
    intro text
    obtain ⟨hc, hn⟩ := appendValue_kept tag text
    exact ⟨hc.trans hclosing, hn.trans hname⟩
  rcases hs with rfl | rfl | rfl | rfl | ⟨quoting, rfl⟩ | rfl | rfl
  all_goals
    simp only [step, stepBeforeAttributeName, stepAttributeName, stepAfterAttributeName, stepBeforeAttributeValue,
      stepAttributeValue, stepAfterQuotedValue, stepSelfClosing, takeAttributeName]
    repeat' split
    all_goals
      first
      | exact .cut _ _
      | exact closesTag_stay hlast rfl hclosing hname
      | exact closesTag_take hlast rfl hclosing hname
      | exact closesTag_take hlast rfl (hpush _).1 (hpush _).2
      | exact closesTag_take hlast rfl (hbegin _).1 (hbegin _).2
      | exact closesTag_take hlast rfl (happend _).1 (happend _).2
      | exact closesTag_closeTag hclosing hname

/-- **The end tag of the element is read on.** -/
theorem closesTag_step {tag : TagDraft} (hlast : l.lastStart = some name) (htag : l.state.tag? = some tag)
    (hclosing : tag.closing = true) (hname : tag.name = name) : ClosesTag name l.step := by
  suffices ∀ state : State, state.tag? = some tag → ClosesTag name ({ l with state } : Lexer).step from
    this l.state htag
  intro state htag
  have hsite : ∀ {site : Site}, (match site with | .text _ => none | .value tag _ => some tag) = some tag →
      ∃ quoting, site = .value tag quoting := by
    intro site hsite
    cases site with
    | text content => exact absurd hsite.symm (Option.some_ne_none _)
    | value tag' quoting => exact ⟨quoting, by rw [Option.some.inj hsite]⟩
  cases state <;> try exact absurd htag.symm (Option.some_ne_none _)
  case beforeAttributeName | attributeName | afterAttributeName | beforeAttributeValue | attributeValue |
      afterQuotedValue | selfClosing =>
    obtain rfl := Option.some.inj htag
    refine closesTag_attributes hlast hclosing hname ?_
    simp
  all_goals
    obtain ⟨quoting, heq⟩ := hsite htag
    refine closesTag_reference heq hlast hclosing hname ?_
    simp

/-- Only the end tag of the element ends its text. -/
theorem closes_raw (hlast : l.lastStart = some name) (hs : l.state.isRaw = true) : Closes name l.step := by
  obtain ⟨rest, offset, last, state⟩ := l
  simp only at hlast
  subst hlast
  cases state <;> simp only [State.isRaw, Bool.false_eq_true] at hs
  -- the end tag is recognised by its name; before that the text goes on
  case rawEndTagName content start written =>
    have hwritten : (.character '<' :: .character '/' :: written.toList.map .character : List Token)
        = ('<' :: '/' :: written.toList).map .character := rfl
    simp only [step, stepRawEndTagName, hwritten]
    split
    · exact closes_text _ (List.cons_ne_nil _ _) rfl
    · split
      · rename_i happropriate
        rw [Bool.and_eq_true, beq_iff_eq] at happropriate
        exact closes_take rfl (.inr ⟨_, rfl, rfl, (Option.some.inj happropriate.2).symm⟩)
      · split
        · rename_i happropriate
          rw [Bool.and_eq_true, beq_iff_eq, beq_iff_eq] at happropriate
          exact closes_take rfl (.inr ⟨_, rfl, rfl, (Option.some.inj happropriate.2).symm⟩)
        · split
          · rename_i happropriate
            rw [Bool.and_eq_true, beq_iff_eq, beq_iff_eq] at happropriate
            exact closes_of_closesTag (closesTag_closeTag rfl (Option.some.inj happropriate.2).symm)
          · split
            · exact closes_take rfl (.inl rfl)
            · exact closes_text _ (List.cons_ne_nil _ _) rfl
  all_goals
    simp only [step, stepRawLessThan, stepRawEndTagOpen]
    repeat' split
    all_goals
      first
      | exact closes_take rfl (.inl rfl)
      | exact closes_stay rfl (.inl rfl)
      | exact closes_text ['<'] (List.cons_ne_nil _ _) rfl
      | exact closes_text ['<', '/'] (List.cons_ne_nil _ _) rfl

/-- **The end tag of the element is read on, or the text of the element is.** -/
theorem closes_step (h : Closing name l) : Closes name l.step := by
  obtain ⟨hlast, hraw | ⟨tag, htag, hclosing, hname⟩⟩ := h
  · exact closes_raw hlast hraw
  · exact closes_of_closesTag (closesTag_step hlast htag hclosing hname)

theorem closing_of_reads {m k : Lexer} (h : Reads m ts k) (hts : ts = []) (hm : Closing name m) : Closing name k := by
  induction h with
  | refl l => exact hm
  | step hs _ ih =>
    obtain ⟨htokens, hrest⟩ := List.append_eq_nil_iff.1 hts
    exact ih hrest ((closes_step hm).next _ hs htokens)

/-- **A tag that begins in text that is not markup is the end tag of the element.** -/
theorem endTag_of_raw {o m k n : Lexer} {before : List Token} {token : Token} (ho : Known o)
    (h : Occurs o before token m k n) (htag : token.isTag = true) (hc : m.state.content ≠ .markup) :
    ∃ name span, token = .endTag name span ∧ Content.ofElement name = m.state.content := by
  have hm : Known m := h.reads.invariant (fun _ _ hl hs => known_step hl hs) ho
  obtain ⟨name, hlast, hname⟩ := hm.resolve_left hc
  obtain ⟨htext, hhead⟩ := h.begins
  have hinside := h.inside
  have hends := h.ends
  have hreports := h.reports
  obtain ⟨rest, hrest⟩ := List.head?_eq_some_iff.1 hhead
  -- the step at the `<` begins an end tag, or it is a character
  have hfirst : m.state.content ≠ .plain → m.step = m.take '<' rest (.rawLessThan m.state.content m.offset) := by
    intro hplain
    rw [step, htext]
    simp only [stepText, hrest, State.content]
    rw [if_neg (fun h => absurd h.1 (by decide)), if_neg (fun h => hc h.2), if_pos ⟨trivial, hplain⟩]
  have hplain : m.state.content = .plain → m.step.tokens = [.character '<'] := by
    intro hplain
    rw [step, htext]
    simp only [stepText, hrest]
    rw [if_neg (fun h => absurd h.1 (by decide)), if_neg (fun h => hc h.2), if_neg (fun h => h.2 hplain)]
    rfl
  have hclosing : Closing name k := by
    generalize hts : ([] : List Token) = ts at hinside
    cases hinside with
    | refl =>
      rw [hrest] at hends
      exact absurd (List.cons.inj hends).1 (by decide)
    | step hs hreads =>
      obtain ⟨htokens, hts⟩ := List.append_eq_nil_iff.1 hts.symm
      by_cases hp : m.state.content = .plain
      · rw [hplain hp] at htokens
        exact absurd htokens (List.cons_ne_nil _ _)
      · rw [hfirst hp] at hs
        obtain rfl := Option.some.inj hs
        exact closing_of_reads hreads hts ⟨hlast, .inl rfl⟩
  obtain ⟨span, hspan⟩ := (closes_step hclosing).tokens token (by rw [hreports]; exact List.mem_singleton_self _) htag
  exact ⟨name, span, hspan, hname⟩

end Closes

/-! ## The last start tag in markup -/

/-- A lexer that remembers another start tag. -/
def relast (last : Option String) (l : Lexer) : Lexer := { l with lastStart := last }

/-- Markup is read. -/
structure InMarkup (s : State) : Prop where
  content : s.content = .markup
  notRaw : s.isRaw = false

/-- Two steps that agree in markup: they report the same, and go on alike. -/
structure Agree (last : Option String) (s s' : Step) : Prop where
  tokens : s'.tokens = s.tokens
  next : s'.next = s.next ∨ ∃ m, s.next = some m ∧ s'.next = some (m.relast last) ∧ InMarkup m.state

section Agree

variable {last : Option String}

theorem agree_stay (h : InMarkup s) : Agree last (l.stay s ts errors) ((l.relast last).stay s ts errors) :=
  ⟨rfl, .inr ⟨_, rfl, rfl, h⟩⟩

theorem agree_take (h : InMarkup s) :
    Agree last (l.take c rest s ts errors) ((l.relast last).take c rest s ts errors) :=
  ⟨rfl, .inr ⟨_, rfl, rfl, h⟩⟩

theorem agree_skip {n : Nat} (h : InMarkup s) :
    Agree last (l.skip n s ts errors) ((l.relast last).skip n s ts errors) :=
  ⟨rfl, .inr ⟨_, rfl, rfl, h⟩⟩

theorem agree_finish : Agree last (l.finish ts errors) ((l.relast last).finish ts errors) := ⟨rfl, .inl rfl⟩

theorem agree_closeTag {tag : TagDraft} {selfClosing : Bool} :
    Agree last (l.closeTag rest tag selfClosing errors) ((l.relast last).closeTag rest tag selfClosing errors) := by
  unfold closeTag
  by_cases hclosing : tag.closing = true
  · rw [if_pos hclosing, if_pos hclosing]
    exact agree_take ⟨rfl, rfl⟩
  · rw [if_neg hclosing, if_neg hclosing]
    exact ⟨rfl, .inl rfl⟩

theorem inMarkup_resume {site : Site} (h : site.content = .markup) : InMarkup site.resume := by
  cases site with
  | text content => exact ⟨h, rfl⟩
  | value tag quoting => exact ⟨rfl, rfl⟩

theorem agree_stayAt {site : Site} {text : String} (h : site.content = .markup) :
    Agree last (l.stayAt site text errors) ((l.relast last).stayAt site text errors) :=
  agree_stay (inMarkup_resume ((content_write site text).trans h))

/-- **In markup a step does not ask for the last start tag.** -/
theorem agree_step (h : InMarkup l.state) : Agree last l.step (l.relast last).step := by
  obtain ⟨hcontent, hraw⟩ := h
  obtain ⟨rest, offset, first, state⟩ := l
  -- only in the text of raw elements is the last start tag asked for, and markup is none
  cases state with
  | rawLessThan content start => exact absurd hraw nofun
  | rawEndTagOpen content start => exact absurd hraw nofun
  | rawEndTagName content start written => exact absurd hraw nofun
  | text content =>
    obtain rfl : content = .markup := hcontent
    simp only [step, stepText, relast]
    repeat' split
    all_goals
      first
      | exact agree_finish
      | exact agree_take ⟨rfl, rfl⟩
      | exact absurd rfl ‹_›
      | simp_all
  | namedReference site =>
    have hsite : site.content = .markup := hcontent
    simp only [step, relast]
    unfold stepNamedReference
    cases longestEntity? rest with
    | none => exact agree_stay ⟨(content_write site "&").trans hsite, rfl⟩
    | some found => exact agree_skip (inMarkup_resume ((content_write site _).trans hsite))
  | reference site | numericReference site | numericEnd site code | numericStart site base written
  | numericDigits site base code =>
    have hsite : site.content = .markup := hcontent
    simp only [step, stepReference, stepNumericReference, stepNumericStart, stepNumericDigits, stepNumericEnd, relast]
    repeat' split
    all_goals
      first
      | exact agree_stayAt hsite
      | exact agree_stay ⟨hsite, rfl⟩
      | exact agree_take ⟨hsite, rfl⟩
  | ambiguousAmpersand site =>
    have hsite : site.content = .markup := hcontent
    simp only [step, stepAmbiguousAmpersand, relast]
    repeat' split
    all_goals
      first
      | exact agree_stay (inMarkup_resume hsite)
      | exact agree_take ⟨(content_write site _).trans hsite, rfl⟩
  | markupDeclaration start =>
    simp only [step, relast, stepMarkupDeclaration]
    -- both see the same text, so they take the same way
    by_cases hdashes : beginsWith rest "--" = true
    · simp only [hdashes, if_true]
      exact agree_skip ⟨rfl, rfl⟩
    · simp only [hdashes]
      by_cases hdoctype : startsWithIgnoreCase rest "doctype" = true
      · simp only [hdoctype, if_true]
        exact agree_skip ⟨rfl, rfl⟩
      · simp only [hdoctype]
        by_cases hcdata : beginsWith rest "[CDATA[" = true
        · simp only [hcdata, if_true]
          exact agree_skip ⟨rfl, rfl⟩
        · simp only [hcdata]
          exact agree_stay ⟨rfl, rfl⟩
  | _ =>
    simp only [step, stepTagOpen, stepEndTagOpen, stepTagName, stepBeforeAttributeName, stepAttributeName,
      stepAfterAttributeName, stepBeforeAttributeValue, stepAttributeValue, stepAfterQuotedValue,
      stepSelfClosing, stepBogusComment, stepCommentStart, stepCommentStartDash, stepComment,
      stepCommentEndDash, stepCommentEnd, stepCommentEndBang, stepDoctype, stepBeforeDoctypeName,
      stepDoctypeName, stepAfterDoctypeName, takeAttributeName, closeComment, cutComment, closeDoctype, cutDoctype,
      relast]
    repeat' split
    all_goals
      first
      | exact agree_finish
      | exact agree_stay ⟨rfl, rfl⟩
      | exact agree_take ⟨rfl, rfl⟩
      | exact agree_closeTag

/-- **In markup the tokens that follow do not depend on the last start tag.** -/
theorem tokens_relast (h : InMarkup l.state) : (l.relast last).tokens = l.tokens := by
  induction l using tokens.induct with
  | case1 l hnext =>
    obtain ⟨htokens, heq | ⟨m, hm, -⟩⟩ := @agree_step l last h
    · rw [tokens_of_none hnext, tokens_of_none (heq.trans hnext), htokens]
    · rw [hnext] at hm
      cases hm
  | case2 l m hnext ih =>
    obtain ⟨htokens, heq | ⟨m', hm, heq, hmarkup⟩⟩ := @agree_step l last h
    · rw [tokens_of_some hnext, tokens_of_some (heq.trans hnext), htokens]
    · obtain rfl := Option.some.inj (hnext.symm.trans hm)
      rw [tokens_of_some hnext, tokens_of_some heq, htokens, ih hmarkup]

end Agree

end Lexer

end LiveMarkup.Html
