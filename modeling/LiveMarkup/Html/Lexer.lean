/-
The markup lexer.

`lex` gives the tokens of a text and the number of its parse errors. It runs the machine of
`Lexer.step` from the start of the text to its end. Main fact: `Lexer.progress_step` (each step
consumes a character or lowers the rank of the state), so the run reaches the end of every text.
-/
import LiveMarkup.Html.Lexer.Step

set_option autoImplicit false

namespace LiveMarkup.Html

open Text

namespace Lexer

/-- How many steps the machine can make from a state before it consumes a character. -/
def rank : State → Nat
  | .text _ | .tagName _ | .afterAttributeName _ | .attributeValue _ _ | .bogusComment _ | .comment _
  | .beforeDoctypeName _ | .doctypeName _ _ | .afterDoctypeName _ _ => 0
  | .tagOpen _ | .endTagOpen _ | .rawLessThan _ _ | .rawEndTagName _ _ _ | .beforeAttributeName _
  | .attributeName _ | .beforeAttributeValue _ | .markupDeclaration _ | .commentStart _
  | .commentStartDash _ | .commentEndDash _ | .commentEnd _ | .commentEndBang _ | .doctype _
  | .ambiguousAmpersand _ | .numericEnd _ _ => 1
  | .rawEndTagOpen _ _ | .afterQuotedValue _ | .selfClosing _ | .namedReference _
  | .numericDigits _ _ _ => 2
  | .reference _ | .numericStart _ _ _ => 3
  | .numericReference _ => 4

/-- A bound on the steps that are left: the characters left count for more than any state does. -/
def measure (l : Lexer) : Nat := 5 * l.rest.length + rank l.state

/-- The state of a reference's site has rank zero. -/
theorem rank_resume (site : Site) : rank site.resume = 0 := by
  cases site <;> rfl

/-- No state has a rank above four. -/
theorem rank_le (s : State) : rank s ≤ 4 := by
  cases s <;> simp [rank]

/-- What a step from `l` has to keep: the lexer after it is nearer to the end of the text. -/
def Progress (l : Lexer) (s : Step) : Prop := ∀ l', s.next = some l' → l'.measure < l.measure

/-- Reporting the end of the text is progress. -/
theorem progress_finish {l m : Lexer} {tokens : List Token} {errors : Nat} :
    l.Progress (m.finish tokens errors) := by
  simp [Progress, finish]

/-- Going to a state of lower rank is progress. -/
theorem progress_stay {l : Lexer} {s : State} {tokens : List Token} {errors : Nat}
    (hs : rank s < rank l.state) : l.Progress (l.stay s tokens errors) := by
  simp [Progress, stay, measure, hs]

/-- Going on after a reference is progress when the state has a rank. -/
theorem progress_resume {l : Lexer} {site : Site} {tokens : List Token} {errors : Nat}
    (hs : 0 < rank l.state) : l.Progress (l.stay site.resume tokens errors) :=
  progress_stay (by rw [rank_resume]; exact hs)

/-- Going on at the site of a reference is progress when the state has a rank. -/
theorem progress_stayAt {l : Lexer} {site : Site} {text : String} {errors : Nat}
    (hs : 0 < rank l.state) : l.Progress (l.stayAt site text errors) :=
  progress_resume hs

/-- Consuming a character is progress. -/
theorem progress_take {l m : Lexer} {c d : Char} {rest : List Char} {s : State} {tokens : List Token}
    {errors : Nat} (hl : l.rest = c :: rest) : l.Progress (m.take d rest s tokens errors) := by
  have hs := rank_le s
  simp [Progress, take, measure, hl]
  omega

/-- Consuming several characters is progress. -/
theorem progress_skip {l : Lexer} {n : Nat} {s : State} {tokens : List Token} {errors : Nat}
    (hn : 0 < n) (hl : n ≤ l.rest.length) : l.Progress (l.skip n s tokens errors) := by
  have hs := rank_le s
  simp [Progress, skip, measure]
  omega

/-- Ending a tag is progress. -/
theorem progress_closeTag {l : Lexer} {c : Char} {rest : List Char} {tag : TagDraft} {b : Bool}
    {errors : Nat} (hl : l.rest = c :: rest) : l.Progress (l.closeTag rest tag b errors) := by
  unfold closeTag
  split <;> exact progress_take hl

/-- A text that begins with a word is at least as long. -/
theorem length_le_of_beginsWith {cs : List Char} {word : String} {n : Nat}
    (h : beginsWith cs word = true) (hn : word.length = n := by decide) : n ≤ cs.length := by
  obtain ⟨rest, hr⟩ := Option.isSome_iff_exists.1 h
  have hlen := length_of_dropWord? hr
  rw [String.length_toList] at hlen
  omega

/-- A text that begins with a word in any case is at least as long. -/
theorem length_le_of_startsWithIgnoreCase {cs : List Char} {word : String} {n : Nat}
    (h : startsWithIgnoreCase cs word = true) (hn : word.length = n := by decide) : n ≤ cs.length := by
  have hlen : ((cs.take word.length).map Char.toLower).length
      = (word.toList.map Char.toLower).length := congrArg List.length (eq_of_beq h)
  rw [List.length_map, List.length_map, List.length_take, String.length_toList] at hlen
  omega

/-- A step at the name of a reference is progress. -/
theorem progress_namedReference {l : Lexer} {site : Site} (hs : l.state = .namedReference site) :
    l.Progress (l.stepNamedReference site) := by
  unfold stepNamedReference
  cases hfound : longestEntity? l.rest with
  | none => exact progress_stay (by simp [hs, rank])
  | some found => exact progress_skip (length_of_longestEntity? hfound).1 (length_of_longestEntity? hfound).2

/-- **Each step consumes a character or lowers the rank of the state.** -/
theorem progress_step (l : Lexer) : l.Progress l.step := by
  obtain ⟨rest, offset, lastStart, state⟩ := l
  cases state with
  | namedReference site =>
    simp only [step]
    exact progress_namedReference rfl
  | markupDeclaration start =>
    simp only [step, stepMarkupDeclaration]
    split
    · exact progress_skip (by decide) (length_le_of_beginsWith ‹_›)
    · split
      · exact progress_skip (by decide) (length_le_of_startsWithIgnoreCase ‹_›)
      · split
        · exact progress_skip (by decide) (length_le_of_beginsWith ‹_›)
        · exact progress_stay (by simp [rank])
  | _ =>
    simp only [step, stepText, stepTagOpen, stepEndTagOpen, stepTagName, stepRawLessThan,
      stepRawEndTagOpen, stepRawEndTagName, stepBeforeAttributeName, stepAttributeName,
      stepAfterAttributeName, stepBeforeAttributeValue, stepAttributeValue, stepAfterQuotedValue,
      stepSelfClosing, stepBogusComment, stepCommentStart, stepCommentStartDash, stepComment,
      stepCommentEndDash, stepCommentEnd, stepCommentEndBang, stepDoctype, stepBeforeDoctypeName,
      stepDoctypeName, stepAfterDoctypeName, stepReference, stepAmbiguousAmpersand,
      stepNumericReference, stepNumericStart, stepNumericDigits, stepNumericEnd, takeAttributeName,
      closeComment, closeDoctype, cutComment, cutDoctype]
    repeat' split
    all_goals
      first
      | exact progress_take rfl
      | exact progress_closeTag rfl
      | exact progress_stayAt (by simp [rank])
      | exact progress_resume (by simp [rank])
      | exact progress_stay (by simp [rank])
      | exact progress_finish

/-- How many steps the machine may make at the end of the text. It reports the end in fewer. -/
def maxStepsAtEnd : Nat := 16

/-- The tokens and the count of parse errors of the text that is left, after those already found; `made`
is the number of steps that were made at its end. A machine that makes too many there is stopped. -/
def run (l : Lexer) (made : Nat) (tokens : Array Token) (errors : Nat) : Array Token × Nat :=
  let made := made + l.rest.isEmpty.toNat
  if maxStepsAtEnd < made then (tokens.push (.endOfFile l.offset), errors)
  else
    match _h : l.step.next with
    | none => (tokens ++ l.step.tokens, errors + l.step.errors)
    | some next => next.run made (tokens ++ l.step.tokens) (errors + l.step.errors)
termination_by l.measure
decreasing_by exact progress_step l next _h

end Lexer

/-- The tokens of a text, which end with the end-of-file token, and the number of parse errors. -/
def lex (text : String) : List Token × Nat :=
  let (tokens, errors) := (Lexer.start text.toList).run 0 #[] 0
  (tokens.toList, errors)

/-- The tokens of a text. -/
def tokenize (text : String) : List Token := (lex text).1

end LiveMarkup.Html
