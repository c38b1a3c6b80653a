/-
Runs of the tree builder with different limits.

How many elements may be open at once is asked in one place, where an element is added that stays open. So
two builders that differ in their limit do the same until the one with the lower limit refuses an element
(`limited_read`). A builder that refuses an element names its own limit and the start of the token that it
reads; the tokens of a text stand in it in order, so the other one refuses none that begins earlier
(`build_limited`).
-/
import LiveMarkup.Html.Builder
import LiveMarkup.Proofs.Html.Lexing.Layout

set_option autoImplicit false

namespace LiveMarkup.Html

namespace Builder

/-- A builder with another limit. -/
def withLimit (n : Nat) (b : Builder) : Builder := { b with maxDepth := n }

variable {b : Builder} {m n limit offset : Nat} {x y : Except ParseError Builder}

/-! ## One run -/

/-- What a builder gives at an offset: one that keeps its limit and the offset, or it refuses an element
there. -/
inductive Tries (limit offset : Nat) : Except ParseError Builder → Prop
  | ok {b : Builder} : b.maxDepth = limit → b.offset = offset → Tries limit offset (.ok b)
  | error : Tries limit offset (.error (.tooDeep limit offset))

theorem tries_bind {k : Builder → Except ParseError Builder} (h : Tries limit offset x)
    (hk : ∀ b, b.maxDepth = limit → b.offset = offset → Tries limit offset (k b)) :
    Tries limit offset (x >>= k) := by
  cases h with
  | ok hlimit hoffset => exact hk _ hlimit hoffset
  | error => exact .error

theorem tries_pop (hlimit : b.maxDepth = limit) (hoffset : b.offset = offset) (record : Tree → NodeId → Tree) :
    Tries limit offset (.ok (b.pop record)) := by
  unfold pop
  split <;> exact .ok hlimit hoffset

theorem tries_perform (hlimit : b.maxDepth = limit) (hoffset : b.offset = offset) (a : Action) :
    Tries limit offset (b.perform a) := by
  cases a with
  | note deviation => exact .ok hlimit hoffset
  | close => exact tries_pop hlimit hoffset _
  | closeBy endTag => exact tries_pop hlimit hoffset _
  | insert e stays =>
    rw [perform, insertElement]
    split
    · rw [hlimit, hoffset]
      exact .error
    · exact .ok hlimit hoffset

theorem tries_foldlM (actions : List Action) (hlimit : b.maxDepth = limit) (hoffset : b.offset = offset) :
    Tries limit offset (actions.foldlM perform b) := by
  induction actions generalizing b with
  | nil => exact .ok hlimit hoffset
  | cons a actions ih =>
    rw [List.foldlM_cons]
    exact tries_bind (tries_perform hlimit hoffset a) fun _ => ih

theorem tries_insertCharacter (hlimit : b.maxDepth = limit) (hoffset : b.offset = offset) (c : Char) :
    Tries limit offset (.ok (b.insertCharacter c)) := by
  unfold insertCharacter
  split
  · split <;> exact .ok hlimit hoffset
  · exact .ok hlimit hoffset

/-- **Reading a token keeps the limit and the offset**, or an element is refused there. -/
theorem tries_read (token : Token) (hlimit : b.maxDepth = limit) (hoffset : b.offset = offset) :
    Tries limit offset (b.read token) := by
  cases token with
  | character c => exact tries_insertCharacter hlimit hoffset c
  | comment data span => exact .ok hlimit hoffset
  | doctype name span => exact .ok hlimit hoffset
  | startTag name selfClosing attributes span => exact tries_foldlM _ hlimit hoffset
  | endTag name span => exact tries_foldlM _ hlimit hoffset
  | endOfFile n => exact .ok hlimit hoffset

/-! ## Two runs -/

/-- What two builders give at an offset that differ in their limit only: the same, or the one with the lower
limit refuses an element. -/
inductive Limited (m n offset : Nat) : Except ParseError Builder → Except ParseError Builder → Prop
  | same {b : Builder} : b.maxDepth = m → b.offset = offset → Limited m n offset (.ok b) (.ok (b.withLimit n))
  | refused {y : Except ParseError Builder} : Tries n offset y →
      Limited m n offset (.error (.tooDeep m offset)) y

/-- An element is closed without a look at the limit. -/
theorem pop_withLimit (n : Nat) (b : Builder) (record : Tree → NodeId → Tree) :
    (b.withLimit n).pop record = (b.pop record).withLimit n := by
  unfold pop
  cases hopened : b.opened with
  | nil => simp only [withLimit, hopened]
  | cons id rest => simp only [withLimit, hopened]

/-- A character is read without a look at the limit. -/
theorem insertCharacter_withLimit (n : Nat) (b : Builder) (c : Char) :
    (b.withLimit n).insertCharacter c = (b.insertCharacter c).withLimit n := by
  have htree : (b.withLimit n).tree = b.tree := rfl
  have hparent : (b.withLimit n).insertionParent = b.insertionParent := rfl
  rw [insertCharacter, insertCharacter, htree, hparent]
  cases (b.tree.children b.insertionParent).getLast? with
  | none => rfl
  | some last =>
    cases htext : (b.tree.text? last).isSome with
    | true => simp only [htext, if_true, withLimit]
    | false =>
      simp only [htext, Bool.false_eq_true, if_false]
      rfl

theorem limited_of_tries (h : Tries m offset (.ok b)) : Limited m n offset (.ok b) (.ok (b.withLimit n)) := by
  cases h with
  | ok hlimit hoffset => exact .same hlimit hoffset

theorem limited_pop (hlimit : b.maxDepth = m) (hoffset : b.offset = offset) (record : Tree → NodeId → Tree) :
    Limited m n offset (.ok (b.pop record)) (.ok ((b.withLimit n).pop record)) := by
  rw [pop_withLimit]
  exact limited_of_tries (tries_pop hlimit hoffset record)

theorem limited_perform (hle : m ≤ n) (hlimit : b.maxDepth = m) (hoffset : b.offset = offset) (a : Action) :
    Limited m n offset (b.perform a) ((b.withLimit n).perform a) := by
  cases a with
  | note deviation => exact .same hlimit hoffset
  | close => exact limited_pop hlimit hoffset _
  | closeBy endTag => exact limited_pop hlimit hoffset _
  | insert e stays =>
    have hother : Tries n offset ((b.withLimit n).perform (.insert e stays)) :=
      tries_perform (b := b.withLimit n) rfl hoffset _
    rw [perform, insertElement]
    split
    · rw [hlimit, hoffset]
      exact .refused hother
    · rename_i hroom
      -- where the lower limit leaves room, the higher one does
      have hroom' : ¬ (stays = true ∧ n ≤ (b.withLimit n).opened.length) := by
        rintro ⟨hstays, hdeep⟩
        exact hroom ⟨hstays, hlimit.le.trans (hle.trans hdeep)⟩
      have hsame : (b.withLimit n).perform (.insert e stays) = (b.insertElement e stays).map (withLimit n) := by
        rw [perform, insertElement, insertElement, if_neg hroom]
        exact if_neg hroom'
      rw [hsame, insertElement, if_neg hroom]
      exact .same hlimit hoffset

theorem limited_foldlM (hle : m ≤ n) (actions : List Action) (hlimit : b.maxDepth = m) (hoffset : b.offset = offset) :
    Limited m n offset (actions.foldlM perform b) (actions.foldlM perform (b.withLimit n)) := by
  induction actions generalizing b with
  | nil => exact .same hlimit hoffset
  | cons a actions ih =>
    rw [List.foldlM_cons, List.foldlM_cons]
    have hfirst := limited_perform hle hlimit hoffset a
    generalize b.perform a = x at hfirst
    generalize (b.withLimit n).perform a = y at hfirst
    cases hfirst with
    | same hlimit' hoffset' => exact ih hlimit' hoffset'
    | refused hy =>
      -- what the other builder does with the rest, it does at the same offset
      exact .refused (tries_bind hy fun _ => tries_foldlM actions)

/-- **Two builders do the same with a token**, or the one with the lower limit refuses an element. -/
theorem limited_read (hle : m ≤ n) (token : Token) (hlimit : b.maxDepth = m) (hoffset : b.offset = offset) :
    Limited m n offset (b.read token) ((b.withLimit n).read token) := by
  cases token with
  | character c =>
    rw [read, read, insertCharacter_withLimit]
    exact limited_of_tries (tries_insertCharacter hlimit hoffset c)
  | comment data span => exact .same hlimit hoffset
  | doctype name span => exact .same hlimit hoffset
  | startTag name selfClosing attributes span => exact limited_foldlM hle _ hlimit hoffset
  | endTag name span => exact limited_foldlM hle _ hlimit hoffset
  | endOfFile n => exact .same hlimit hoffset

/-! ## Whole runs -/

/-- The offset of a token in a text is not before that of the one before. -/
theorem offsetAt_of_laid {lo : Nat} {token : Token} {rest : List Token} (h : Lexer.Laid lo (token :: rest))
    (hlo : offset ≤ lo) :
    offset ≤ offsetAt offset token ∧ ∃ lo', offsetAt offset token ≤ lo' ∧ Lexer.Laid lo' rest := by
  rw [Lexer.Laid] at h
  rw [offsetAt]
  cases hspan : token.span? with
  | none =>
    rw [hspan] at h
    exact ⟨Nat.le_refl _, lo, hlo, h⟩
  | some span =>
    rw [hspan] at h
    obtain ⟨hstart, hstop, -, hrest⟩ := h
    exact ⟨hlo.trans hstart, span.stop, hstop, hrest⟩

/-- **Elements are refused where reading stands or later.** -/
theorem refused_of_readAll {tokens : List Token} {lo : Nat} (hlaid : Lexer.Laid lo tokens) (hlo : b.offset ≤ lo)
    {e : ParseError} (h : b.readAll tokens = .error e) : ∃ o, b.offset ≤ o ∧ e = .tooDeep b.maxDepth o := by
  -- by induction on the tokens: `lo` is where the next one may start, so reading never goes back
  induction tokens generalizing b lo with
  | nil => cases h
  | cons token rest ih =>
    obtain ⟨hle, lo', hlo', hrest⟩ := offsetAt_of_laid hlaid hlo
    rw [readAll] at h
    have htries : Tries b.maxDepth (offsetAt b.offset token)
        (({ b with offset := offsetAt b.offset token } : Builder).read token) := tries_read token rfl rfl
    generalize Builder.read { b with offset := offsetAt b.offset token } token = x at h htries
    cases htries with
    | error => exact ⟨_, hle, (Except.error.inj h).symm⟩
    | @ok r hlimit hoffset =>
      obtain ⟨o, ho, he⟩ := ih (b := { r with token := b.token + 1 }) hrest (hoffset.le.trans hlo') h
      refine ⟨o, ?_, ?_⟩
      · exact hle.trans (hoffset.symm.le.trans ho)
      · rw [he]
        exact congrArg (ParseError.tooDeep · o) hlimit

/-- **The higher limit refuses no element before the lower one does.** -/
theorem limited_readAll {tokens : List Token} {lo : Nat} (hle : b.maxDepth ≤ n) (hlaid : Lexer.Laid lo tokens)
    (hlo : b.offset ≤ lo) :
    (∃ r, b.readAll tokens = .ok r ∧ (b.withLimit n).readAll tokens = .ok (r.withLimit n)) ∨
      ∃ o, b.readAll tokens = .error (.tooDeep b.maxDepth o) ∧
        ∀ e, (b.withLimit n).readAll tokens = .error e → ∃ o', o ≤ o' ∧ e = .tooDeep n o' := by
  -- by induction on the tokens: until an element is refused the builders differ in their limit only
  induction tokens generalizing b lo with
  | nil => exact .inl ⟨b, rfl, rfl⟩
  | cons token rest ih =>
    obtain ⟨-, lo', hlo', hrest⟩ := offsetAt_of_laid hlaid hlo
    have hread : Limited b.maxDepth n (offsetAt b.offset token)
        (({ b with offset := offsetAt b.offset token } : Builder).read token)
        (({ b.withLimit n with offset := offsetAt b.offset token } : Builder).read token) :=
      limited_read hle token rfl rfl
    rw [readAll, readAll]
    change Limited _ _ _ _ (Builder.read { b.withLimit n with offset := offsetAt (b.withLimit n).offset token } token)
      at hread
    generalize Builder.read { b with offset := offsetAt b.offset token } token = x at hread
    generalize Builder.read { b.withLimit n with offset := offsetAt (b.withLimit n).offset token } token = y at hread
    cases hread with
    | @same r hlimit hoffset =>
      have hnext := ih (b := { r with token := b.token + 1 }) (hlimit.le.trans hle) hrest (hoffset.le.trans hlo')
      rw [← hlimit]
      exact hnext
    | refused hy =>
      refine .inr ⟨_, rfl, fun e he => ?_⟩
      cases hy with
      | error => exact ⟨_, Nat.le_refl _, (Except.error.inj he).symm⟩
      | @ok r hlimit hoffset =>
        -- what the other builder refuses later stands later in the text
        obtain ⟨o, ho, heq⟩ := refused_of_readAll (b := { r with token := b.token + 1 }) hrest
          (hoffset.le.trans hlo') he
        exact ⟨o, hoffset.symm.le.trans ho, heq.trans (congrArg (ParseError.tooDeep · o) hlimit)⟩

end Builder

/-- **Trees with different limits.** With a lower limit the tree and the issues are the same as with a higher
one, or an element is refused; and where the higher limit refuses one, the lower limit did so before. -/
theorem build_limited {m n : Nat} (hle : m ≤ n) {tokens : List Token} (hlaid : Lexer.Laid 0 tokens) :
    (∃ r, build m tokens = .ok r ∧ build n tokens = .ok r) ∨
      ∃ o, build m tokens = .error (.tooDeep m o) ∧
        ∀ e, build n tokens = .error e → ∃ o', o ≤ o' ∧ e = .tooDeep n o' := by
  have hruns := Builder.limited_readAll (b := .start m) hle hlaid (Nat.le_refl 0)
  change (∃ r, _ ∧ (Builder.start n).readAll tokens = _) ∨ ∃ o, _ ∧ ∀ e, (Builder.start n).readAll tokens = _ → _
    at hruns
  unfold build
  rcases hruns with ⟨r, hm, hn⟩ | ⟨o, hm, hn⟩
  · rw [hm, hn]
    exact .inl ⟨_, rfl, rfl⟩
  · rw [hm]
    refine .inr ⟨o, rfl, fun e he => hn e ?_⟩
    cases hx : (Builder.start n).readAll tokens with
    | error e' =>
      rw [hx] at he
      exact congrArg _ (Except.error.inj he)
    | ok r =>
      rw [hx] at he
      cases he

end LiveMarkup.Html
