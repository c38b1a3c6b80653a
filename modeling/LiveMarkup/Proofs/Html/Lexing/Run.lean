/-
Runs of the markup lexer.

The tokens of a text are the tokens of the steps of the machine, one after the other (`tokens_eq`). A step
does one of five things, and `step_anatomy` says which data each of them keeps: it goes on reading a
tag, a comment or a declaration that began at an earlier `<`; it goes on in text and reports characters
only; it reports the token that was being read, at the `>` that ends it; or it reports the end of the
text.
-/
import LiveMarkup.Html.Lexer
import LiveMarkup.Proofs.Html.Lexing.References
import Mathlib.Data.Bool.AllAny

set_option autoImplicit false

namespace LiveMarkup.Html

open Text

/-! ## Runs -/

namespace Lexer

/-- The tokens of the text that is left. -/
def tokens (l : Lexer) : List Token :=
  match _h : l.step.next with
  | none => l.step.tokens
  | some next => l.step.tokens ++ next.tokens
termination_by l.measure
decreasing_by exact progress_step l next _h

theorem tokens_of_none {l : Lexer} (h : l.step.next = none) : l.tokens = l.step.tokens := by
  rw [tokens]
  split
  · rfl
  · rename_i hs
    rw [h] at hs
    exact absurd hs nofun

theorem tokens_of_some {l m : Lexer} (h : l.step.next = some m) : l.tokens = l.step.tokens ++ m.tokens := by
  rw [tokens]
  split
  · rename_i hs
    rw [h] at hs
    exact absurd hs nofun
  · rename_i hs
    rw [h] at hs
    rw [Option.some.inj hs]

/-- Steps that do not end the text, with the tokens that they report. -/
inductive Reads : Lexer → List Token → Lexer → Prop
  | refl (l : Lexer) : Reads l [] l
  | step {l m n : Lexer} {ts : List Token} : l.step.next = some m → Reads m ts n →
      Reads l (l.step.tokens ++ ts) n

theorem Reads.trans {l m n : Lexer} {ts us : List Token} (h : Reads l ts m) (k : Reads m us n) :
    Reads l (ts ++ us) n := by
  induction h with
  | refl l => exact k
  | step hs _ ih =>
    rw [List.append_assoc]
    exact .step hs (ih k)

/-- One step. -/
theorem Reads.one {l m : Lexer} {ts : List Token} (h : l.step.next = some m) (ht : l.step.tokens = ts) :
    Reads l ts m := by
  have := Reads.step h (.refl m)
  rwa [ht, List.append_nil] at this

/-- One step and more. -/
theorem Reads.next {l m n : Lexer} {ts us : List Token} (h : l.step.next = some m)
    (ht : l.step.tokens = ts) (k : Reads m us n) : Reads l (ts ++ us) n := (Reads.one h ht).trans k

/-- One step without a token, and more. -/
theorem Reads.silent {l m n : Lexer} {us : List Token} (h : l.step.next = some m)
    (ht : l.step.tokens = []) (k : Reads m us n) : Reads l us n := Reads.next h ht k

theorem tokens_of_reads {l m : Lexer} {ts : List Token} (h : Reads l ts m) : l.tokens = ts ++ m.tokens := by
  induction h with
  | refl l => rfl
  | step hs _ ih => rw [tokens_of_some hs, ih, List.append_assoc]

/-- A property that every step keeps holds at the end of every run. -/
theorem Reads.invariant {P : Lexer → Prop} (hP : ∀ l m, P l → l.step.next = some m → P m) {l m : Lexer}
    {ts : List Token} (h : Reads l ts m) (hl : P l) : P m := by
  induction h with
  | refl l => exact hl
  | step hs _ ih => exact ih (hP _ _ hl hs)

/-- The steps that a run makes at the end of the text. -/
def stepsAtEnd (l : Lexer) : Nat :=
  match _h : l.step.next with
  | none => l.rest.isEmpty.toNat
  | some next => l.rest.isEmpty.toNat + next.stepsAtEnd
termination_by l.measure
decreasing_by exact progress_step l next _h

theorem stepsAtEnd_of_none {l : Lexer} (h : l.step.next = none) : l.stepsAtEnd = l.rest.isEmpty.toNat := by
  rw [stepsAtEnd]
  split
  · rfl
  · rename_i hs
    rw [h] at hs
    cases hs

theorem stepsAtEnd_of_some {l m : Lexer} (h : l.step.next = some m) :
    l.stepsAtEnd = l.rest.isEmpty.toNat + m.stepsAtEnd := by
  rw [stepsAtEnd]
  split
  · rename_i hs
    rw [h] at hs
    cases hs
  · rename_i hs
    rw [h] at hs
    rw [Option.some.inj hs]

theorem stepsAtEnd_le_measure (l : Lexer) : l.stepsAtEnd ≤ l.measure + 1 := by
  have hone := Bool.toNat_le l.rest.isEmpty
  induction l using stepsAtEnd.induct with
  | case1 l h =>
    rw [stepsAtEnd_of_none h]
    omega
  | case2 l next h ih =>
    have hlt := progress_step l next h
    have hle := ih (Bool.toNat_le _)
    rw [stepsAtEnd_of_some h]
    omega

/-- **At the end of the text a run makes few steps**: none of them consumes anything, so each lowers the rank. -/
theorem stepsAtEnd_le (l : Lexer) : l.stepsAtEnd ≤ 5 := by
  induction l using stepsAtEnd.induct with
  | case1 l h =>
    have hone := Bool.toNat_le l.rest.isEmpty
    rw [stepsAtEnd_of_none h]
    omega
  | case2 l next h ih =>
    by_cases hend : l.rest = []
    · have hle := stepsAtEnd_le_measure l
      have hrank := rank_le l.state
      rw [measure, hend, List.length_nil] at hle
      omega
    · rw [stepsAtEnd_of_some h, List.isEmpty_eq_false_iff.2 hend, Bool.toNat_false, Nat.zero_add]
      exact ih

variable {l m : Lexer} {made errors : Nat} {found : Array Token}

theorem run_of_none (h : l.step.next = none) (hmade : made + l.rest.isEmpty.toNat ≤ maxStepsAtEnd) :
    l.run made found errors = (found ++ l.step.tokens, errors + l.step.errors) := by
  rw [run, if_neg (Nat.not_lt.2 hmade)]
  split
  · rfl
  · rename_i hs
    rw [h] at hs
    cases hs

theorem run_of_some (h : l.step.next = some m) (hmade : made + l.rest.isEmpty.toNat ≤ maxStepsAtEnd) :
    l.run made found errors =
      m.run (made + l.rest.isEmpty.toNat) (found ++ l.step.tokens) (errors + l.step.errors) := by
  rw [run, if_neg (Nat.not_lt.2 hmade)]
  split
  · rename_i hs
    rw [h] at hs
    cases hs
  · rename_i hs
    rw [h] at hs
    rw [Option.some.inj hs]

/-- A run that is not stopped gives the tokens of its steps. -/
theorem run_eq (l : Lexer) (made : Nat) (found : Array Token) (errors : Nat)
    (h : made + l.stepsAtEnd ≤ maxStepsAtEnd) : (l.run made found errors).1.toList = found.toList ++ l.tokens := by
  induction l using stepsAtEnd.induct generalizing made found errors with
  | case1 l hnext =>
    rw [stepsAtEnd_of_none hnext] at h
    rw [run_of_none hnext h, tokens_of_none hnext, Array.toList_appendList]
  | case2 l next hnext ih =>
    rw [stepsAtEnd_of_some hnext, ← Nat.add_assoc] at h
    rw [run_of_some hnext (by omega), ih _ _ _ h, tokens_of_some hnext, Array.toList_appendList,
      List.append_assoc]

end Lexer

/-- **The tokens of a text are those of the machine's steps.** -/
theorem tokenize_eq (text : String) : tokenize text = (Lexer.start text.toList).tokens :=
  Lexer.run_eq (.start text.toList) 0 #[] 0
    ((Nat.zero_add _).le.trans ((Lexer.stepsAtEnd_le _).trans (by decide)))

/-! ## What a state reads -/

/-- Where the tag begins whose attribute value a reference stands in. -/
def Site.start? : Site → Option Nat
  | .text _ => none
  | .value tag _ => some tag.start

/-- How the text is read that a reference stands in. -/
def Site.content : Site → Content
  | .text content => content
  | .value _ _ => .markup

namespace State

/-- Where the tag, the comment or the declaration begins that is being read. -/
def start? : State → Option Nat
  | text _ => none
  | tagOpen start | endTagOpen start | rawLessThan _ start | rawEndTagOpen _ start
  | rawEndTagName _ start _ | markupDeclaration start | doctype start | beforeDoctypeName start
  | doctypeName start _ | afterDoctypeName start _ => some start
  | tagName tag | beforeAttributeName tag | attributeName tag | afterAttributeName tag
  | beforeAttributeValue tag | attributeValue tag _ | afterQuotedValue tag | selfClosing tag =>
    some tag.start
  | bogusComment draft | commentStart draft | commentStartDash draft | comment draft
  | commentEndDash draft | commentEnd draft | commentEndBang draft => some draft.start
  | reference site | namedReference site | ambiguousAmpersand site | numericReference site
  | numericStart site _ _ | numericDigits site _ _ | numericEnd site _ => site.start?

/-- How the text is read in which the state stands. A tag is read in markup, except the beginning of
what may be the end tag of a raw text element. -/
def content : State → Content
  | text content | rawLessThan content _ | rawEndTagOpen content _ | rawEndTagName content _ _ => content
  | reference site | namedReference site | ambiguousAmpersand site | numericReference site
  | numericStart site _ _ | numericDigits site _ _ | numericEnd site _ => site.content
  | _ => .markup

end State

@[simp] theorem start?_pushName (tag : TagDraft) (c : Char) : (tag.pushName c).start = tag.start := rfl

@[simp] theorem start?_beginAttribute (tag : TagDraft) : tag.beginAttribute.start = tag.start := rfl

@[simp] theorem start?_pushAttributeName (tag : TagDraft) (c : Char) :
    (tag.pushAttributeName c).start = tag.start := by
  unfold TagDraft.pushAttributeName
  split <;> rfl

@[simp] theorem start?_appendValue (tag : TagDraft) (text : String) :
    (tag.appendValue text).start = tag.start := by
  unfold TagDraft.appendValue
  split <;> rfl

theorem start?_resume (site : Site) : site.resume.start? = site.start? := by
  cases site <;> rfl

theorem content_resume (site : Site) : site.resume.content = site.content := by
  cases site <;> rfl

theorem start?_write (site : Site) (chars : String) : (site.write chars).2.start? = site.start? := by
  cases site
  · rfl
  · simp [Site.write, Site.start?]

theorem content_write (site : Site) (chars : String) : (site.write chars).2.content = site.content := by
  cases site <;> rfl

/-! ## What a step does -/

/-- The second lexer has consumed some characters more than the first. -/
def Moves (l m : Lexer) : Prop :=
  ∃ eaten, l.rest = eaten ++ m.rest ∧ m.offset = l.offset + byteLength eaten

/-- A comment or a declaration. -/
def Token.isAside : Token → Bool
  | .comment _ _ | .doctype _ _ => true
  | _ => false

/-- What a step does. -/
inductive Anatomy (l : Lexer) : Step → Prop
  /-- The text ends; a tag that is being read is dropped. -/
  | finish (cs : List Char) (errors : Nat) : l.rest = [] →
      Anatomy l ⟨cs.map .character ++ [.endOfFile l.offset], errors, none⟩
  /-- The text ends in a comment or a declaration. -/
  | cut (start : Nat) (token : Token) (errors : Nat) : l.rest = [] → l.state.start? = some start →
      token.span? = some ⟨start, l.offset⟩ → token.isAside → Anatomy l ⟨[token, .endOfFile l.offset], errors, none⟩
  /-- A tag, a comment or a declaration goes on, or begins at a `<` in text. -/
  | draft (start : Nat) (m : Lexer) (errors : Nat) : m.state.start? = some start →
      (l.state.start? = some start ∨
        l.offset = start ∧ l.rest.head? = some '<' ∧ l.state = .text l.state.content ∧ l.rest ≠ m.rest) →
      Moves l m → m.lastStart = l.lastStart →
      (m.state.content = l.state.content ∨ m.state.content = .markup) → Anatomy l ⟨[], errors, some m⟩
  /-- Text goes on. -/
  | text (cs : List Char) (m : Lexer) (errors : Nat) : m.state.start? = none → Moves l m →
      m.lastStart = l.lastStart → (m.state.content = l.state.content ∨ m.state.content = .markup) →
      Anatomy l ⟨cs.map .character, errors, some m⟩
  /-- A start tag ends. -/
  | startTag (start : Nat) (name : String) (selfClosing : Bool) (attributes : List Attribute)
      (rest : List Char) (errors : Nat) : l.state.start? = some start → l.rest = '>' :: rest →
      Anatomy l ⟨[.startTag name selfClosing attributes ⟨start, l.offset + 1⟩], errors,
        some ⟨rest, l.offset + 1, some name,
          .text (if selfClosing then .markup else Content.ofElement name)⟩⟩
  /-- An end tag, a comment or a declaration ends. -/
  | other (start : Nat) (token : Token) (rest : List Char) (errors : Nat) : l.state.start? = some start →
      l.rest = '>' :: rest → token.span? = some ⟨start, l.offset + 1⟩ →
      (token.isAside ∨ ∃ name span, token = .endTag name span) →
      Anatomy l ⟨[token], errors, some ⟨rest, l.offset + 1, l.lastStart, .text .markup⟩⟩

namespace Anatomy

variable {l : Lexer} {start errors : Nat} {s : State} {c : Char} {rest : List Char}

theorem stay_draft (hs : s.start? = some start) (hl : l.state.start? = some start)
    (hc : s.content = l.state.content ∨ s.content = .markup) : Anatomy l (l.stay s [] errors) :=
  .draft start _ _ hs (.inl hl) ⟨[], rfl, rfl⟩ rfl hc

theorem take_draft (hr : l.rest = c :: rest) (hs : s.start? = some start) (hl : l.state.start? = some start)
    (hc : s.content = l.state.content ∨ s.content = .markup) : Anatomy l (l.take c rest s [] errors) :=
  .draft start _ _ hs (.inl hl) ⟨[c], hr, rfl⟩ rfl hc

theorem open_draft {content : Content} (hr : l.rest = '<' :: rest) (hs : s.start? = some l.offset)
    (hl : l.state = .text content) (hc : s.content = content ∨ s.content = .markup) :
    Anatomy l (l.take '<' rest s [] errors) := by
  refine .draft l.offset _ _ hs (.inr ⟨rfl, by rw [hr]; rfl, by rw [hl]; rfl, ?_⟩) ⟨['<'], hr, rfl⟩ rfl ?_
  · rw [hr]
    exact fun h => absurd (congrArg List.length h) (Nat.succ_ne_self _)
  · rw [hl]
    exact hc

theorem stay_text (cs : List Char) {ts : List Token} (hts : ts = cs.map .character) (hs : s.start? = none)
    (hc : s.content = l.state.content ∨ s.content = .markup) : Anatomy l (l.stay s ts errors) := by
  subst hts
  exact .text cs _ _ hs ⟨[], rfl, rfl⟩ rfl hc

theorem take_text (cs : List Char) {ts : List Token} (hr : l.rest = c :: rest) (hts : ts = cs.map .character)
    (hs : s.start? = none) (hc : s.content = l.state.content ∨ s.content = .markup) :
    Anatomy l (l.take c rest s ts errors) := by
  subst hts
  exact .text cs _ _ hs ⟨[c], hr, rfl⟩ rfl hc

theorem finish_text (cs : List Char) {ts : List Token} (hr : l.rest = []) (hts : ts = cs.map .character) :
    Anatomy l (l.finish ts errors) := by
  subst hts
  exact .finish cs _ hr

theorem closeTag {tag : TagDraft} {selfClosing : Bool} (hr : l.rest = '>' :: rest)
    (hl : l.state.start? = some tag.start) : Anatomy l (l.closeTag rest tag selfClosing errors) := by
  unfold Lexer.closeTag
  split
  · exact .other tag.start _ _ _ hl hr rfl (.inr ⟨_, _, rfl⟩)
  · exact .startTag tag.start _ _ _ _ _ hl hr

theorem closeComment {comment : CommentDraft} (hr : l.rest = '>' :: rest)
    (hl : l.state.start? = some comment.start) : Anatomy l (l.closeComment rest comment errors) :=
  .other comment.start _ _ _ hl hr rfl (.inl rfl)

theorem cutComment {comment : CommentDraft} (hr : l.rest = []) (hl : l.state.start? = some comment.start) :
    Anatomy l (l.cutComment comment errors) :=
  .cut comment.start _ _ hr hl rfl rfl

theorem closeDoctype {name : Option String} (hr : l.rest = '>' :: rest) (hl : l.state.start? = some start) :
    Anatomy l (l.closeDoctype rest start name errors) :=
  .other start _ _ _ hl hr rfl (.inl rfl)

theorem cutDoctype {name : Option String} (hr : l.rest = []) (hl : l.state.start? = some start) :
    Anatomy l (l.cutDoctype start name) :=
  .cut start _ _ hr hl rfl rfl

/-- Going on at the site of a reference, after text was written there. -/
theorem write {site : Site} {chars : String} {m : Lexer} (hl : l.state.start? = site.start?)
    (hc : l.state.content = site.content) (hm : Moves l m) (hlast : m.lastStart = l.lastStart)
    (hs : m.state.start? = site.start?) (hmc : m.state.content = site.content) :
    Anatomy l ⟨(site.write chars).1, errors, some m⟩ := by
  cases site with
  | text content => exact .text chars.toList m _ hs hm hlast (.inl (hmc.trans hc.symm))
  | value tag quoting =>
    exact .draft tag.start m _ hs (.inl hl) hm hlast (.inl (hmc.trans hc.symm))

theorem stayAt {site : Site} {chars : String} (hl : l.state.start? = site.start?)
    (hc : l.state.content = site.content) : Anatomy l (l.stayAt site chars errors) :=
  write hl hc ⟨[], rfl, rfl⟩ rfl ((start?_resume _).trans (start?_write _ _))
    ((content_resume _).trans (content_write _ _))

theorem takeAt (site : Site) {chars : String} (hr : l.rest = c :: rest) (hl : l.state.start? = site.start?)
    (hc : l.state.content = site.content) (hs : s.start? = site.start?) (hmc : s.content = site.content) :
    Anatomy l (l.take c rest s (site.write chars).1 errors) :=
  write hl hc ⟨[c], hr, rfl⟩ rfl hs hmc

/-- Going on in the same reference, or after it. -/
theorem move {site : Site} {m : Lexer} (hl : l.state.start? = site.start?)
    (hc : l.state.content = site.content) (hm : Moves l m) (hlast : m.lastStart = l.lastStart)
    (hs : m.state.start? = site.start?) (hmc : m.state.content = site.content) :
    Anatomy l ⟨[], errors, some m⟩ := by
  have h : Anatomy l ⟨(site.write "").1, errors, some m⟩ := write hl hc hm hlast hs hmc
  cases site <;> exact h

end Anatomy

/-! ## Words at the start of a text -/

/-- Skipping characters of one byte. -/
theorem moves_skip {l m : Lexer} {n : Nat} (hrest : m.rest = l.rest.drop n) (hoffset : m.offset = l.offset + n)
    (hn : n ≤ l.rest.length) (h : ∀ c ∈ l.rest.take n, c.utf8Size = 1) : Moves l m := by
  refine ⟨l.rest.take n, ?_, ?_⟩
  · rw [hrest, List.take_append_drop]
  · rw [hoffset, byteLength_of_ascii h, List.length_take, Nat.min_eq_left hn]

theorem ascii_of_beginsWith {cs : List Char} {word : String} {n : Nat} (h : beginsWith cs word = true)
    (hn : word.toList.length = n) (hword : ∀ c ∈ word.toList, c.utf8Size = 1) :
    ∀ c ∈ cs.take n, c.utf8Size = 1 := by
  obtain ⟨rest, hr⟩ := Option.isSome_iff_exists.1 h
  rw [eq_append_of_dropWord? hr, ← hn, List.take_left]
  exact hword

theorem ascii_of_startsWithIgnoreCase {cs : List Char} {word : String} {n : Nat}
    (h : startsWithIgnoreCase cs word = true) (hn : word.length = n)
    (hword : ∀ c ∈ word.toList.map Char.toLower, c.toNat ≤ 127) : ∀ c ∈ cs.take n, c.utf8Size = 1 := by
  intro c hc
  have heq := eq_of_beq h
  rw [hn] at heq
  have hmem : c.toLower ∈ word.toList.map Char.toLower := heq ▸ List.mem_map_of_mem hc
  exact utf8Size_of_toLower rfl (hword _ hmem)

/-! ## The anatomy of a step -/

namespace Lexer

theorem anatomy_namedReference {l : Lexer} {site : Site} (hs : l.state = .namedReference site) :
    Anatomy l (l.stepNamedReference site) := by
  have hstart : l.state.start? = site.start? := by rw [hs]; rfl
  have hcontent : l.state.content = site.content := by rw [hs]; rfl
  unfold stepNamedReference
  cases hfound : longestEntity? l.rest with
  | none => exact .write hstart hcontent ⟨[], rfl, rfl⟩ rfl (start?_write _ _) (content_write _ _)
  | some found =>
    exact .write hstart hcontent
      (moves_skip rfl rfl (length_of_longestEntity? hfound).2 (ascii_of_longestEntity? hfound)) rfl
      ((start?_resume _).trans (start?_write _ _)) ((content_resume _).trans (content_write _ _))

theorem anatomy_markupDeclaration {l : Lexer} {start : Nat} (hs : l.state = .markupDeclaration start) :
    Anatomy l (l.stepMarkupDeclaration start) := by
  have hstart : l.state.start? = some start := by rw [hs]; rfl
  unfold stepMarkupDeclaration
  split
  · rename_i h
    exact .draft start _ _ rfl (.inl hstart)
      (moves_skip rfl rfl (length_le_of_beginsWith h)
        (ascii_of_beginsWith h rfl (List.all_iff_forall_prop.1 rfl))) rfl (.inr rfl)
  · split
    · rename_i h
      exact .draft start _ _ rfl (.inl hstart) (moves_skip rfl rfl (length_le_of_startsWithIgnoreCase h)
        (ascii_of_startsWithIgnoreCase h rfl (List.all_iff_forall_prop.1 rfl))) rfl (.inr rfl)
    · split
      · rename_i h
        exact .draft start _ _ rfl (.inl hstart)
          (moves_skip rfl rfl (length_le_of_beginsWith h)
            (ascii_of_beginsWith h rfl (List.all_iff_forall_prop.1 rfl))) rfl (.inr rfl)
      · exact .stay_draft rfl hstart (.inr rfl)

/-- **What each step does.** -/
theorem step_anatomy (l : Lexer) : Anatomy l l.step := by
  obtain ⟨rest, offset, lastStart, state⟩ := l
  -- states that look ahead or give back what they read are taken one by one; the rest follow one pattern
  cases state with
  | namedReference site =>
    simp only [step]
    exact anatomy_namedReference rfl
  | markupDeclaration start =>
    simp only [step]
    exact anatomy_markupDeclaration rfl
  | text content =>
    simp only [step, stepText]
    repeat' split
    · exact .finish_text [] rfl rfl
    · exact .take_text [] rfl rfl rfl (.inl rfl)
    · rename_i h
      rw [h.1]
      exact .open_draft rfl rfl rfl (.inr rfl)
    · rename_i h
      rw [h.1]
      exact .open_draft rfl rfl rfl (.inl rfl)
    · exact .take_text [_] rfl rfl rfl (.inl rfl)
  | rawEndTagName content start written =>
    simp only [step, stepRawEndTagName]
    -- what was read of an end tag is given back as text
    have hwritten : (.character '<' :: .character '/' :: written.toList.map .character : List Token)
        = ('<' :: '/' :: written.toList).map .character := rfl
    rw [hwritten]
    repeat' split
    all_goals
      first
      | exact .stay_text _ rfl rfl (.inl rfl)
      | exact .take_draft rfl rfl rfl (.inl rfl)
      | exact .take_draft rfl rfl rfl (.inr rfl)
      | skip
    rename_i h
    rw [Bool.and_eq_true, beq_iff_eq] at h
    exact .closeTag (by rw [h.1]) rfl
  | ambiguousAmpersand site =>
    simp only [step, stepAmbiguousAmpersand]
    repeat' split
    · exact .move rfl rfl ⟨[], rfl, rfl⟩ rfl (start?_resume _) (content_resume _)
    · exact Anatomy.takeAt site rfl rfl rfl (start?_write site _) (content_write site _)
    · exact .move rfl rfl ⟨[], rfl, rfl⟩ rfl (start?_resume _) (content_resume _)
    · exact .move rfl rfl ⟨[], rfl, rfl⟩ rfl (start?_resume _) (content_resume _)
  | _ =>
    simp only [step, stepTagOpen, stepEndTagOpen, stepTagName, stepRawLessThan, stepRawEndTagOpen,
      stepBeforeAttributeName, stepAttributeName, stepAfterAttributeName, stepBeforeAttributeValue,
      stepAttributeValue, stepAfterQuotedValue, stepSelfClosing, stepBogusComment, stepCommentStart,
      stepCommentStartDash, stepComment, stepCommentEndDash, stepCommentEnd, stepCommentEndBang,
      stepDoctype, stepBeforeDoctypeName, stepDoctypeName, stepAfterDoctypeName, stepReference,
      stepNumericReference, stepNumericStart, stepNumericDigits, stepNumericEnd,
      takeAttributeName]
    repeat' split
    all_goals
      first
      | exact .finish_text [] rfl rfl
      | exact .finish_text ['<'] rfl rfl
      | exact .finish_text ['<', '/'] rfl rfl
      | exact .stay_text [] rfl rfl (.inl rfl)
      | exact .stay_text ['<'] rfl rfl (.inl rfl)
      | exact .stay_text ['<', '/'] rfl rfl (.inl rfl)
      | exact .take_text [] rfl rfl rfl (.inl rfl)
      | exact .stay_draft rfl rfl (.inl rfl)
      | exact .take_draft rfl rfl rfl (.inl rfl)
      | exact .take_draft rfl (congrArg some (start?_pushAttributeName _ _)) rfl (.inl rfl)
      | exact .take_draft rfl (congrArg some (start?_appendValue _ _)) rfl (.inl rfl)
      | exact .closeTag (by subst_vars; rfl) rfl
      | exact .closeTag (by simp_all) rfl
      | exact .closeComment (by subst_vars; rfl) rfl
      | exact .cutComment rfl rfl
      | exact .closeDoctype (by subst_vars; rfl) rfl
      | exact .cutDoctype rfl rfl
      | exact .stayAt rfl rfl
      | exact .move rfl rfl ⟨[], rfl, rfl⟩ rfl rfl rfl
      | exact .move rfl rfl ⟨[_], rfl, rfl⟩ rfl rfl rfl

end Lexer

end LiveMarkup.Html
