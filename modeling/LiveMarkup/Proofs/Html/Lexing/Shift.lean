/-
What a run of the lexer depends on.

The machine never looks back, and it looks ahead for a word only. So its tokens do not change when the
text before is longer, except that their spans move (`tokens_shift`), and its steps do not change
when more text follows a `<` or a `>` that it has not reached (`step_extend`, `reads_extend`).
-/
import LiveMarkup.Proofs.Html.Lexing.Layout

set_option autoImplicit false

namespace LiveMarkup.Html

open Text

/-! ## Moving the text -/

/-- A span that stands later in the text. -/
def shiftSpan (k : Nat) (s : Span) : Span := ⟨s.start + k, s.stop + k⟩

/-- A token that stands later in the text. -/
def Token.shift (k : Nat) : Token → Token
  | .doctype name span => .doctype name (shiftSpan k span)
  | .startTag name selfClosing attributes span => .startTag name selfClosing attributes (shiftSpan k span)
  | .endTag name span => .endTag name (shiftSpan k span)
  | .comment data span => .comment data (shiftSpan k span)
  | .character c => .character c
  | .endOfFile offset => .endOfFile (offset + k)

/-- A tag that begins later in the text. -/
def TagDraft.shift (k : Nat) (tag : TagDraft) : TagDraft := { tag with start := tag.start + k }

/-- A comment that begins later in the text. -/
def CommentDraft.shift (k : Nat) (draft : CommentDraft) : CommentDraft := { draft with start := draft.start + k }

/-- A reference whose tag begins later in the text. -/
def Site.shift (k : Nat) : Site → Site
  | .text content => .text content
  | .value tag quoting => .value (tag.shift k) quoting

/-- A state later in the text. -/
def State.shift (k : Nat) : State → State
  | .text content => .text content
  | .tagOpen start => .tagOpen (start + k)
  | .endTagOpen start => .endTagOpen (start + k)
  | .tagName tag => .tagName (tag.shift k)
  | .rawLessThan content start => .rawLessThan content (start + k)
  | .rawEndTagOpen content start => .rawEndTagOpen content (start + k)
  | .rawEndTagName content start written => .rawEndTagName content (start + k) written
  | .beforeAttributeName tag => .beforeAttributeName (tag.shift k)
  | .attributeName tag => .attributeName (tag.shift k)
  | .afterAttributeName tag => .afterAttributeName (tag.shift k)
  | .beforeAttributeValue tag => .beforeAttributeValue (tag.shift k)
  | .attributeValue tag quoting => .attributeValue (tag.shift k) quoting
  | .afterQuotedValue tag => .afterQuotedValue (tag.shift k)
  | .selfClosing tag => .selfClosing (tag.shift k)
  | .bogusComment draft => .bogusComment (draft.shift k)
  | .markupDeclaration start => .markupDeclaration (start + k)
  | .commentStart draft => .commentStart (draft.shift k)
  | .commentStartDash draft => .commentStartDash (draft.shift k)
  | .comment draft => .comment (draft.shift k)
  | .commentEndDash draft => .commentEndDash (draft.shift k)
  | .commentEnd draft => .commentEnd (draft.shift k)
  | .commentEndBang draft => .commentEndBang (draft.shift k)
  | .doctype start => .doctype (start + k)
  | .beforeDoctypeName start => .beforeDoctypeName (start + k)
  | .doctypeName start name => .doctypeName (start + k) name
  | .afterDoctypeName start name => .afterDoctypeName (start + k) name
  | .reference site => .reference (site.shift k)
  | .namedReference site => .namedReference (site.shift k)
  | .ambiguousAmpersand site => .ambiguousAmpersand (site.shift k)
  | .numericReference site => .numericReference (site.shift k)
  | .numericStart site base written => .numericStart (site.shift k) base written
  | .numericDigits site base code => .numericDigits (site.shift k) base code
  | .numericEnd site code => .numericEnd (site.shift k) code

namespace Lexer

/-- The same text later in a longer one. -/
def shift (k : Nat) (l : Lexer) : Lexer := { l with offset := l.offset + k, state := l.state.shift k }

/-- What a step does later in the text. -/
def shiftStep (k : Nat) (s : Step) : Step := ⟨s.tokens.map (.shift k), s.errors, s.next.map (shift k)⟩

variable (k : Nat)

theorem stay_shift (l : Lexer) (s : State) (ts : List Token) (errors : Nat) :
    (l.shift k).stay (s.shift k) (ts.map (.shift k)) errors = shiftStep k (l.stay s ts errors) := rfl

theorem take_shift (l : Lexer) (c : Char) (rest : List Char) (s : State) (ts : List Token) (errors : Nat) :
    (l.shift k).take c rest (s.shift k) (ts.map (.shift k)) errors
      = shiftStep k (l.take c rest s ts errors) := by
  simp only [take, shiftStep, shift, Option.map_some, Nat.add_right_comm]

theorem skip_shift (l : Lexer) (n : Nat) (s : State) (ts : List Token) (errors : Nat) :
    (l.shift k).skip n (s.shift k) (ts.map (.shift k)) errors = shiftStep k (l.skip n s ts errors) := by
  simp only [skip, shiftStep, shift, Option.map_some, Nat.add_right_comm]

theorem finish_shift (l : Lexer) (ts : List Token) (errors : Nat) :
    (l.shift k).finish (ts.map (.shift k)) errors = shiftStep k (l.finish ts errors) := by
  simp [finish, shiftStep, shift, Token.shift]

theorem closeTag_shift (l : Lexer) (rest : List Char) (tag : TagDraft) (selfClosing : Bool) (errors : Nat) :
    (l.shift k).closeTag rest (tag.shift k) selfClosing errors
      = shiftStep k (l.closeTag rest tag selfClosing errors) := by
  cases hc : tag.closing <;>
    simp [closeTag, TagDraft.shift, hc, take, shiftStep, shift, Token.shift, shiftSpan, State.shift,
      Nat.add_right_comm]

theorem closeComment_shift (l : Lexer) (rest : List Char) (draft : CommentDraft) (errors : Nat) :
    (l.shift k).closeComment rest (draft.shift k) errors
      = shiftStep k (l.closeComment rest draft errors) := by
  simp [closeComment, CommentDraft.shift, take, shiftStep, shift, Token.shift, shiftSpan, State.shift,
    Nat.add_right_comm]

theorem cutComment_shift (l : Lexer) (draft : CommentDraft) (errors : Nat) :
    (l.shift k).cutComment (draft.shift k) errors = shiftStep k (l.cutComment draft errors) := by
  simp [cutComment, finish, CommentDraft.shift, shiftStep, shift, Token.shift, shiftSpan]

theorem closeDoctype_shift (l : Lexer) (rest : List Char) (start : Nat) (name : Option String) (errors : Nat) :
    (l.shift k).closeDoctype rest (start + k) name errors
      = shiftStep k (l.closeDoctype rest start name errors) := by
  simp [closeDoctype, take, shiftStep, shift, Token.shift, shiftSpan, State.shift, Nat.add_right_comm]

theorem cutDoctype_shift (l : Lexer) (start : Nat) (name : Option String) :
    (l.shift k).cutDoctype (start + k) name = shiftStep k (l.cutDoctype start name) := by
  simp [cutDoctype, finish, shiftStep, shift, Token.shift, shiftSpan]

theorem pushName_shift (tag : TagDraft) (c : Char) : (tag.shift k).pushName c = (tag.pushName c).shift k := rfl

theorem beginAttribute_shift (tag : TagDraft) :
    (tag.shift k).beginAttribute = tag.beginAttribute.shift k := rfl

theorem pushAttributeName_shift (tag : TagDraft) (c : Char) :
    (tag.shift k).pushAttributeName c = (tag.pushAttributeName c).shift k := by
  obtain ⟨closing, start, name, attributes⟩ := tag
  cases attributes <;> rfl

theorem appendValue_shift (tag : TagDraft) (text : String) :
    (tag.shift k).appendValue text = (tag.appendValue text).shift k := by
  obtain ⟨closing, start, name, attributes⟩ := tag
  cases attributes <;> rfl

theorem append_shift (draft : CommentDraft) (text : String) :
    (draft.shift k).append text = (draft.append text).shift k := rfl

theorem resume_shift (site : Site) : (site.shift k).resume = site.resume.shift k := by
  cases site <;> rfl

theorem inValue_shift (site : Site) : (site.shift k).inValue = site.inValue := by
  cases site <;> rfl

theorem write_shift (site : Site) (chars : String) :
    (site.shift k).write chars = ((site.write chars).1.map (.shift k), (site.write chars).2.shift k) := by
  cases site with
  | text content => simp [Site.shift, Site.write, Token.shift]
  | value tag quoting => simp [Site.shift, Site.write, appendValue_shift]

theorem stayAt_shift (l : Lexer) (site : Site) (chars : String) (errors : Nat) :
    (l.shift k).stayAt (site.shift k) chars errors = shiftStep k (l.stayAt site chars errors) := by
  simp only [stayAt, write_shift, resume_shift]
  rfl

@[simp] theorem rest_shift (l : Lexer) : (l.shift k).rest = l.rest := rfl

@[simp] theorem lastStart_shift (l : Lexer) : (l.shift k).lastStart = l.lastStart := rfl

@[simp] theorem offset_shift (l : Lexer) : (l.shift k).offset = l.offset + k := rfl

theorem stepNamedReference_shift (l : Lexer) (site : Site) :
    (l.shift k).stepNamedReference (site.shift k) = shiftStep k (l.stepNamedReference site) := by
  unfold stepNamedReference
  rw [rest_shift]
  generalize longestEntity? l.rest = found
  cases found with
  | none =>
    simp only [write_shift, ← stay_shift]
    rfl
  | some found => simp only [inValue_shift, write_shift, resume_shift, ← skip_shift]

theorem stepMarkupDeclaration_shift (l : Lexer) (start : Nat) :
    (l.shift k).stepMarkupDeclaration (start + k) = shiftStep k (l.stepMarkupDeclaration start) := by
  simp only [stepMarkupDeclaration, rest_shift, apply_ite (shiftStep k), ← skip_shift, ← stay_shift]
  rfl

theorem stepRawEndTagName_shift (l : Lexer) (content : Content) (start : Nat) (written : String) :
    (l.shift k).stepRawEndTagName content (start + k) written
      = shiftStep k (l.stepRawEndTagName content start written) := by
  have hwritten : (.character '<' :: .character '/' :: written.toList.map .character : List Token)
      = ('<' :: '/' :: written.toList).map .character := rfl
  have hmap : ∀ cs : List Char, (cs.map Token.character).map (Token.shift k) = cs.map .character := by
    intro cs
    rw [List.map_map]
    rfl
  simp only [stepRawEndTagName, rest_shift, lastStart_shift, hwritten]
  cases l.rest with
  | nil =>
    rw [← stay_shift, hmap]
    rfl
  | cons c rest =>
    simp only [apply_ite (shiftStep k), ← take_shift, ← closeTag_shift, ← stay_shift, hmap]
    rfl

/-- **A step does not depend on where the text stands.** -/
theorem step_shift (l : Lexer) : (l.shift k).step = shiftStep k l.step := by
  obtain ⟨rest, offset, lastStart, state⟩ := l
  -- states that look ahead or give back what they read have lemmas of their own
  cases state with
  | namedReference site =>
    simp only [step, State.shift, shift]
    exact stepNamedReference_shift k ⟨rest, offset, lastStart, .namedReference site⟩ site
  | markupDeclaration start => exact stepMarkupDeclaration_shift k _ start
  | rawEndTagName content start written => exact stepRawEndTagName_shift k _ content start written
  | ambiguousAmpersand site =>
    simp only [shift, State.shift, step, stepAmbiguousAmpersand, write_shift]
    cases rest with
    | nil => rw [← stay_shift, ← resume_shift]; rfl
    | cons c rest =>
      simp only [apply_ite (shiftStep k), ← take_shift, ← stay_shift, ← resume_shift]
      rfl
  | _ =>
    simp only [shift, State.shift, step, stepText, stepTagOpen, stepEndTagOpen, stepTagName,
      stepRawLessThan, stepRawEndTagOpen, stepBeforeAttributeName, stepAttributeName,
      stepAfterAttributeName, stepBeforeAttributeValue, stepAttributeValue, stepAfterQuotedValue,
      stepSelfClosing, stepBogusComment, stepCommentStart, stepCommentStartDash, stepComment,
      stepCommentEndDash, stepCommentEnd, stepCommentEndBang, stepDoctype, stepBeforeDoctypeName,
      stepDoctypeName, stepAfterDoctypeName, stepReference, stepNumericReference, stepNumericStart,
      stepNumericDigits, stepNumericEnd, takeAttributeName, pushName_shift, beginAttribute_shift,
      pushAttributeName_shift, appendValue_shift, append_shift]
    repeat' split
    all_goals
      first
      | rw [← take_shift]; rfl
      | rw [← stay_shift]; rfl
      | rw [← finish_shift]; rfl
      | rw [← closeTag_shift]; rfl
      | rw [← closeComment_shift]; rfl
      | rw [← cutComment_shift]; rfl
      | rw [← closeDoctype_shift]; rfl
      | rw [← cutDoctype_shift]; rfl
      | rw [← stayAt_shift]; rfl

/-- **The tokens of a text move with it.** -/
theorem tokens_shift (l : Lexer) : (l.shift k).tokens = l.tokens.map (.shift k) := by
  induction l using tokens.induct with
  | case1 l h =>
    have hnext : (l.shift k).step.next = none := by
      rw [step_shift]
      exact congrArg (Option.map (shift k)) h
    rw [tokens_of_none h, tokens_of_none hnext, step_shift]
    rfl
  | case2 l m h ih =>
    have hnext : (l.shift k).step.next = some (m.shift k) := by
      rw [step_shift]
      exact congrArg (Option.map (shift k)) h
    rw [tokens_of_some h, tokens_of_some hnext, ih, step_shift, List.map_append]
    rfl

/-! ## More text after a mark

A step looks at the next character, or for a word that holds neither `<` nor `>`. -/

/-- The text with more of it. -/
def extend (more : List Char) (l : Lexer) : Lexer := { l with rest := l.rest ++ more }

/-- What a step does when more text follows. -/
def extendStep (more : List Char) (s : Step) : Step := { s with next := s.next.map (extend more) }

/-- A text that ends with a character that is in no word that the machine looks for. -/
def Marked (cs : List Char) : Prop := ∃ before mark, cs = before ++ [mark] ∧ (mark = '<' ∨ mark = '>')

theorem Marked.ne_nil {cs : List Char} (h : Marked cs) : cs ≠ [] := by
  obtain ⟨before, mark, rfl, -⟩ := h
  simp

/-- What is left of a marked text ends with the same mark. -/
theorem Marked.of_append (xs : List Char) {ys : List Char} (h : Marked (xs ++ ys)) (hy : ys ≠ []) : Marked ys := by
  obtain ⟨before, mark, heq, hmark⟩ := h
  obtain rfl | ⟨zs, z, rfl⟩ := List.eq_nil_or_concat ys
  · exact absurd rfl hy
  · rw [List.concat_eq_append, ← List.append_assoc] at heq
    obtain ⟨-, hz⟩ := List.append_inj' heq rfl
    obtain rfl := (List.cons.inj hz).1
    exact ⟨zs, z, List.concat_eq_append, hmark⟩

theorem dropWord?_extend {word cs : List Char} (more : List Char) (hm : Marked cs)
    (hw : ∀ c ∈ word, c ≠ '<' ∧ c ≠ '>') :
    dropWord? word (cs ++ more) = (dropWord? word cs).map (· ++ more) ∧
      ∀ rest, dropWord? word cs = some rest → Marked rest := by
  induction word generalizing cs with
  | nil => exact ⟨rfl, fun rest h => Option.some.inj h ▸ hm⟩
  | cons w word ih =>
    have hhead := hw w List.mem_cons_self
    cases cs with
    | nil => exact absurd rfl hm.ne_nil
    | cons c cs =>
      simp only [List.cons_append, dropWord?]
      by_cases hc : w = c
      · rw [if_pos hc, if_pos hc]
        refine ih (Marked.of_append [c] hm ?_) fun d hd => hw d (List.mem_cons_of_mem _ hd)
        -- the mark is not in the word, so it is still ahead
        rintro rfl
        obtain ⟨before, mark, heq, hmark⟩ := hm
        have hlast := congrArg List.getLast? heq
        rw [List.getLast?_concat, List.getLast?_singleton] at hlast
        obtain rfl := Option.some.inj hlast
        rcases hmark with rfl | rfl
        · exact hhead.1 hc
        · exact hhead.2 hc
      · rw [if_neg hc, if_neg hc]
        exact ⟨rfl, fun rest h => by cases h⟩

theorem beginsWith_extend {cs : List Char} {word : String} (more : List Char) (hm : Marked cs)
    (hw : ∀ c ∈ word.toList, c ≠ '<' ∧ c ≠ '>') : beginsWith (cs ++ more) word = beginsWith cs word := by
  rw [beginsWith, beginsWith, (dropWord?_extend more hm hw).1, Option.isSome_map]

theorem entityTable_unmarked : ∀ entry ∈ entityTable, ∀ c ∈ entry.1.toList, c ≠ '<' ∧ c ≠ '>' := by
  have hall : entityTable.all (fun entry => entry.1.toList.all fun c => c ≠ '<' ∧ c ≠ '>') = true := by
    decide +kernel
  exact fun entry hentry => List.all_iff_forall_prop.1 (List.all_eq_true.1 hall entry hentry)

theorem entityMatch?_extend {cs : List Char} {entry : String × String × Bool} (more : List Char)
    (hm : Marked cs) (hentry : entry ∈ entityTable) :
    entityMatch? (cs ++ more) entry = entityMatch? cs entry := by
  obtain ⟨hdrop, hrest⟩ := dropWord?_extend more hm (entityTable_unmarked entry hentry)
  unfold entityMatch?
  rw [hdrop]
  cases hd : dropWord? entry.1.toList cs with
  | none => rfl
  | some rest =>
    obtain ⟨c, rest', rfl⟩ := List.exists_cons_of_ne_nil (hrest rest hd).ne_nil
    by_cases hc : c = ';'
    · subst hc
      rfl
    · simp [hc]

theorem longestEntity?_extend {cs : List Char} (more : List Char) (hm : Marked cs) :
    longestEntity? (cs ++ more) = longestEntity? cs :=
  List.foldl_ext _ _ _ fun best entry hentry => by rw [entityMatch?_extend more hm hentry]

/-- A reference ends before the mark. -/
theorem length_longestEntity?_lt {cs : List Char} {found : EntityMatch} (hm : Marked cs)
    (h : longestEntity? cs = some found) : found.length < cs.length := by
  obtain ⟨entry, hentry, hspelling, -⟩ := spelling_of_longestEntity? h
  refine Nat.lt_of_le_of_ne (length_of_longestEntity? h).2 fun heq => ?_
  obtain ⟨before, mark, rfl, hmark⟩ := hm
  rw [heq, List.take_length] at hspelling
  rcases hspelling.mem (List.mem_append_right before List.mem_cons_self) with hname | rfl
  · have := entityTable_unmarked entry hentry mark hname
    exact hmark.elim this.1 this.2
  · exact absurd hmark (by decide)

theorem startsWithIgnoreCase_extend {cs : List Char} {word : String} (more : List Char) (hm : Marked cs)
    (hw : ∀ c ∈ word.toList.map Char.toLower, c ≠ '<' ∧ c ≠ '>') :
    startsWithIgnoreCase (cs ++ more) word = startsWithIgnoreCase cs word := by
  unfold startsWithIgnoreCase
  by_cases hlen : word.length ≤ cs.length
  · rw [List.take_append_of_le_length hlen]
  · -- the mark would have to be a letter of the word
    have htoo : ∀ tail : List Char,
        ((cs ++ tail).map Char.toLower == word.toList.map Char.toLower) = false := by
      intro tail
      rw [beq_eq_false_iff_ne]
      intro heq
      obtain ⟨before, mark, rfl, hmark⟩ := hm
      have hmem : mark.toLower ∈ word.toList.map Char.toLower := by
        rw [← heq]
        exact List.mem_map_of_mem (by simp)
      have := hw _ hmem
      rcases hmark with rfl | rfl
      · exact this.1 (by decide)
      · exact this.2 (by decide)
    have htake : (cs ++ more).take word.length = cs ++ more.take (word.length - cs.length) := by
      rw [List.take_append, List.take_of_length_le (by omega)]
    have htake' : cs.take word.length = cs ++ [] := by
      rw [List.append_nil, List.take_of_length_le (by omega)]
    rw [htake, htake', htoo, htoo]

variable (more : List Char)

@[simp] theorem rest_extend (l : Lexer) : (l.extend more).rest = l.rest ++ more := rfl

@[simp] theorem offset_extend (l : Lexer) : (l.extend more).offset = l.offset := rfl

@[simp] theorem lastStart_extend (l : Lexer) : (l.extend more).lastStart = l.lastStart := rfl

@[simp] theorem state_extend (l : Lexer) : (l.extend more).state = l.state := rfl

theorem skip_extend {l : Lexer} {n : Nat} (hn : n ≤ l.rest.length) (s : State) (ts : List Token)
    (errors : Nat) : (l.extend more).skip n s ts errors = extendStep more (l.skip n s ts errors) := by
  simp only [skip, extendStep, extend, Option.map_some, List.drop_append_of_le_length hn]

theorem closeTag_extend (l : Lexer) (rest : List Char) (tag : TagDraft) (selfClosing : Bool) (errors : Nat) :
    (l.extend more).closeTag (rest ++ more) tag selfClosing errors
      = extendStep more (l.closeTag rest tag selfClosing errors) := by
  unfold closeTag
  split <;> rfl

theorem stepNamedReference_extend {l : Lexer} (hm : Marked l.rest) (site : Site) :
    (l.extend more).stepNamedReference site = extendStep more (l.stepNamedReference site) := by
  unfold stepNamedReference
  rw [rest_extend, longestEntity?_extend more hm]
  cases hfound : longestEntity? l.rest with
  | none => rfl
  | some found =>
    have hlt := length_longestEntity?_lt hm hfound
    have hle := Nat.le_of_lt hlt
    obtain ⟨c, rest, hdrop⟩ := List.exists_cons_of_ne_nil (l := l.rest.drop found.length)
      (by rw [Ne, List.drop_eq_nil_iff]; omega)
    simp only [List.take_append_of_le_length hle, List.drop_append_of_le_length hle, hdrop,
      List.cons_append, List.head?_cons]
    exact skip_extend more hle _ _ _

theorem stepMarkupDeclaration_extend {l : Lexer} (hm : Marked l.rest) (start : Nat) :
    (l.extend more).stepMarkupDeclaration start = extendStep more (l.stepMarkupDeclaration start) := by
  unfold stepMarkupDeclaration
  rw [rest_extend, beginsWith_extend more hm (List.all_iff_forall_prop.1 rfl),
    beginsWith_extend more hm (List.all_iff_forall_prop.1 rfl),
    startsWithIgnoreCase_extend more hm (List.all_iff_forall_prop.1 rfl)]
  split
  · rename_i h
    exact skip_extend more (length_le_of_beginsWith h) _ _ _
  · split
    · rename_i h
      exact skip_extend more (length_le_of_startsWithIgnoreCase h) _ _ _
    · split
      · rename_i h
        exact skip_extend more (length_le_of_beginsWith h) _ _ _
      · rfl

theorem stepRawEndTagName_extend {l : Lexer} (hm : l.rest ≠ []) (content : Content) (start : Nat)
    (written : String) :
    (l.extend more).stepRawEndTagName content start written
      = extendStep more (l.stepRawEndTagName content start written) := by
  obtain ⟨c, rest, hr⟩ := List.exists_cons_of_ne_nil hm
  simp only [stepRawEndTagName, rest_extend, hr, List.cons_append, apply_ite (extendStep more),
    ← closeTag_extend]
  rfl

/-- **A step does not see what follows the next mark.** -/
theorem step_extend {l : Lexer} (hm : Marked l.rest) : (l.extend more).step = extendStep more l.step := by
  obtain ⟨rest, offset, lastStart, state⟩ := l
  -- what is looked at further ahead ends at the mark at the latest
  cases state with
  | namedReference site =>
    simp only [step, extend]
    exact stepNamedReference_extend more (l := ⟨_, offset, lastStart, .namedReference site⟩) hm site
  | markupDeclaration start =>
    simp only [step, extend]
    exact stepMarkupDeclaration_extend more (l := ⟨_, offset, lastStart, .markupDeclaration start⟩) hm start
  | rawEndTagName content start written =>
    exact stepRawEndTagName_extend more (l := ⟨_, offset, lastStart, _⟩) hm.ne_nil content start written
  | _ =>
    obtain ⟨c, rest, rfl⟩ := List.exists_cons_of_ne_nil hm.ne_nil
    simp only [step, extend, stepText, stepTagOpen, stepEndTagOpen, stepTagName, stepRawLessThan,
      stepRawEndTagOpen, stepBeforeAttributeName, stepAttributeName, stepAfterAttributeName,
      stepBeforeAttributeValue, stepAttributeValue, stepAfterQuotedValue, stepSelfClosing,
      stepBogusComment, stepCommentStart, stepCommentStartDash, stepComment, stepCommentEndDash,
      stepCommentEnd, stepCommentEndBang, stepDoctype, stepBeforeDoctypeName, stepDoctypeName,
      stepAfterDoctypeName, stepReference, stepAmbiguousAmpersand, stepNumericReference,
      stepNumericStart, stepNumericDigits, stepNumericEnd, takeAttributeName, List.cons_append,
      List.head?_cons]
    repeat' split
    all_goals
      first
      | rfl
      | rw [← closeTag_extend]; rfl
      | rename_i h _ _ h'; cases h; cases h'; rfl
      | simp_all

theorem Moves.marked {l m : Lexer} (h : Moves l m) (hl : Marked l.rest) (hm : m.rest ≠ []) :
    Marked m.rest := by
  obtain ⟨eaten, hr, -⟩ := h
  exact Marked.of_append eaten (hr ▸ hl) hm

theorem Moves.ne_nil {l m : Lexer} (h : Moves l m) (hm : m.rest ≠ []) : l.rest ≠ [] := by
  obtain ⟨eaten, hr, -⟩ := h
  rw [hr]
  exact List.append_ne_nil_of_right_ne_nil _ hm

/-- A run that stops before the mark goes the same way when more text follows. -/
theorem Reads.extend {l m : Lexer} {ts : List Token} (h : Reads l ts m) (hl : Marked l.rest)
    (hm : m.rest ≠ []) : Reads (l.extend more) ts (m.extend more) := by
  induction h with
  | refl l => exact .refl _
  | @step l m' n ts hs hrest ih =>
    have hstep := step_extend more hl
    have hm' := Moves.marked (moves_step hs) hl (Moves.ne_nil hrest.moves hm)
    have hnext : (l.extend more).step.next = some (m'.extend more) := by
      rw [hstep]
      exact congrArg (Option.map (Lexer.extend more)) hs
    exact Reads.next hnext (by rw [hstep]; rfl) (ih hm' hm)

/-- A run that stops before the mark has not seen the text that follows it. -/
theorem Reads.of_extend {l n : Lexer} {ts : List Token} (hl : Marked l.rest)
    (h : Reads (l.extend more) ts n) (hn : more.length < n.rest.length) :
    ∃ m, Reads l ts m ∧ n = m.extend more := by
  generalize hx : l.extend more = x at h
  induction h generalizing l with
  | refl x => exact ⟨l, .refl l, hx.symm⟩
  | @step x y n ts hs hrest ih =>
    subst hx
    have hstep := step_extend more hl
    have hs' := hs
    rw [hstep] at hs'
    obtain ⟨m, hm, rfl⟩ := Option.map_eq_some_iff.1 hs'
    have hle := hrest.moves.length_le
    have hne : m.rest ≠ [] := by
      rintro hnil
      rw [rest_extend, hnil, List.nil_append] at hle
      omega
    obtain ⟨m', hm', hn'⟩ := ih (Moves.marked (moves_step hm) hl hne) hn rfl
    exact ⟨m', Reads.next hm (by rw [hstep]; rfl) hm', hn'⟩

/-- **The text after a mark can be replaced.** A run that stops at the mark goes the same way. -/
theorem Reads.replace {l n : Lexer} {ts : List Token} {before tail : List Char} {mark : Char}
    (h : Reads l ts n) (hmark : mark = '<' ∨ mark = '>') (hl : l.rest = before ++ mark :: tail)
    (hn : n.rest = mark :: tail) :
    Reads { l with rest := before ++ mark :: more } ts { n with rest := mark :: more } := by
  obtain ⟨rest, offset, lastStart, state⟩ := l
  subst hl
  have hmarked : Marked (before ++ [mark]) := ⟨before, mark, rfl, hmark⟩
  have hcut : (⟨before ++ mark :: tail, offset, lastStart, state⟩ : Lexer)
      = Lexer.extend tail ⟨before ++ [mark], offset, lastStart, state⟩ := by
    simp only [Lexer.extend, List.append_assoc, List.singleton_append]
  rw [hcut] at h
  obtain ⟨m, hm, rfl⟩ := Reads.of_extend tail hmarked h (by rw [hn, List.length_cons]; omega)
  have hrest : m.rest = [mark] := List.append_cancel_right hn
  have := Reads.extend more hm hmarked (by rw [hrest]; exact List.cons_ne_nil _ _)
  simp only [Lexer.extend, hrest, List.append_assoc, List.singleton_append] at this
  exact this

/-- **The text after a tag can be replaced.** -/
theorem Occurs.replace {o m k n : Lexer} {before : List Token} {token : Token} {head : List Char}
    (h : Occurs o before token m k n) (ho : o.rest = head ++ n.rest) :
    Reads { o with rest := head ++ more } (before ++ [token]) { n with rest := more } := by
  -- all before the last bracket stands before a mark, so it is read whatever follows
  have hreads := h.reads.trans h.inside
  rw [List.append_nil] at hreads
  obtain ⟨eaten, heaten, -⟩ := hreads.moves
  have hhead : head = eaten ++ ['>'] := by
    rw [ho, h.ends, List.append_cons] at heaten
    exact List.append_cancel_right heaten
  have hcut := Reads.replace more hreads (.inr rfl) (by rw [heaten, h.ends]) h.ends
  have hstep : (⟨'>' :: more, k.offset, k.lastStart, k.state⟩ : Lexer).step
      = extendStep more (⟨['>'], k.offset, k.lastStart, k.state⟩ : Lexer).step :=
    step_extend more (l := ⟨['>'], k.offset, k.lastStart, k.state⟩) ⟨[], '>', rfl, .inr rfl⟩
  have hk : k.step = extendStep n.rest (⟨['>'], k.offset, k.lastStart, k.state⟩ : Lexer).step := by
    rw [← step_extend n.rest (l := ⟨['>'], k.offset, k.lastStart, k.state⟩) ⟨[], '>', rfl, .inr rfl⟩]
    simp only [extend, List.singleton_append, ← h.ends]
  have htokens := h.reports
  have hnext := h.next
  rw [hk] at htokens hnext
  obtain ⟨n', hn', hn⟩ := Option.map_eq_some_iff.1 hnext
  have hrest : n'.rest = [] := by
    have := congrArg Lexer.rest hn
    rw [rest_extend] at this
    exact List.append_left_eq_self.1 this
  have hlast : extend more n' = { n with rest := more } := by
    rw [← hn, extend, extend, hrest]
    rfl
  rw [hhead, List.append_assoc]
  refine hcut.trans (.one ?_ ?_)
  · rw [hstep, ← hlast]
    exact congrArg (Option.map (extend more)) hn'
  · rw [hstep]
    exact htokens

end Lexer

end LiveMarkup.Html
