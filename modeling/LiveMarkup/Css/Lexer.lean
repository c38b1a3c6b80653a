/-
The lexer of style sheets.

`lex` gives the tokens of a text, each with its bytes; the last one stands at the end of the text, and
comments are left out. Every part of the lexer takes the characters from its position on and gives what
it read with the characters that are left. Main fact: `next_suffix` (what is left after a token is an
end of what was there before it), so no character is read twice and the lexer reaches the end.
-/
import LiveMarkup.Css.Token
import LiveMarkup.Decimal.Digits

set_option autoImplicit false

namespace LiveMarkup.Css

open Text

/-! ## What a text starts with -/

/-- Whether a name can start with `c`: a letter, an underscore or any character outside ASCII. -/
def isNameStart (c : Char) : Bool := c.isAlpha || c == '_' || 0x80 ≤ c.toNat

/-- Whether `c` can stand in a name. -/
def isNamePart (c : Char) : Bool := isNameStart c || c.isDigit || c == '-'

/-- Whether a text starts with an escape: a backslash and anything but a line feed. -/
def startsEscape : List Char → Bool
  | '\\' :: c :: _ => c != '\n'
  | _ => false

/-- Whether a text starts with a name. -/
def startsName : List Char → Bool
  | '-' :: rest =>
    match rest with
    | c :: _ => isNameStart c || c == '-' || startsEscape rest
    | [] => false
  | c :: rest => isNameStart c || startsEscape (c :: rest)
  | [] => false

/-- Whether a text starts with a number without a sign. -/
def startsUnsigned : List Char → Bool
  | '.' :: c :: _ => c.isDigit
  | c :: _ => c.isDigit
  | [] => false

/-- Whether a text starts with a number. -/
def startsNumber : List Char → Bool
  | '+' :: rest => startsUnsigned rest
  | '-' :: rest => startsUnsigned rest
  | cs => startsUnsigned cs

/-! ## The parts of a token -/

/-- At most `limit` hexadecimal digits, and what is left. -/
def takeHex : Nat → List Char → List Char × List Char
  | limit + 1, c :: cs =>
    if isDigitOf 16 c then
      let (digits, rest) := takeHex limit cs
      (c :: digits, rest)
    else ([], c :: cs)
  | _, cs => ([], cs)

/-- A text without the white space at its start, if there is one. -/
def dropSpace : List Char → List Char
  | c :: cs => if isAsciiSpace c then cs else c :: cs
  | [] => []

/-- The character with a number; numbers without a character, and zero, give U+FFFD. -/
def charOfCode (n : Nat) : Char :=
  if n ≠ 0 ∧ n.isValidChar then Char.ofNat n else '\ufffd'

/-- The escaped character after a backslash. Up to six hexadecimal digits give the number of the
character, and one white space after them belongs to the escape. -/
def takeEscape : List Char → Char × List Char
  | [] => ('\ufffd', [])
  | c :: cs =>
    if isDigitOf 16 c then
      let (digits, rest) := takeHex 5 cs
      (charOfCode (digitsValue 16 (c :: digits)), dropSpace rest)
    else (c, cs)

theorem takeHex_suffix (limit : Nat) (cs : List Char) : (takeHex limit cs).2 <:+ cs := by
  induction limit generalizing cs with
  | zero => cases cs <;> simp [takeHex]
  | succ limit ih =>
    cases cs with
    | nil => simp [takeHex]
    | cons c cs =>
      simp only [takeHex]
      split
      · exact (ih cs).trans (List.suffix_cons c cs)
      · simp

theorem dropSpace_suffix (cs : List Char) : dropSpace cs <:+ cs := by
  cases cs with
  | nil => simp [dropSpace]
  | cons c cs =>
    simp only [dropSpace]
    split
    · exact List.suffix_cons c cs
    · simp

theorem takeEscape_suffix (cs : List Char) : (takeEscape cs).2 <:+ cs := by
  cases cs with
  | nil => simp [takeEscape]
  | cons c cs =>
    simp only [takeEscape]
    split
    · exact ((dropSpace_suffix _).trans (takeHex_suffix 5 cs)).trans (List.suffix_cons c cs)
    · exact List.suffix_cons c cs

/-- The longest name at the start of a text, escapes decoded, and what is left. -/
def takeName : List Char → List Char × List Char
  | [] => ([], [])
  | c :: cs =>
    if isNamePart c then
      let (name, rest) := takeName cs
      (c :: name, rest)
    else if startsEscape (c :: cs) then
      let (name, rest) := takeName (takeEscape cs).2
      ((takeEscape cs).1 :: name, rest)
    else ([], c :: cs)
termination_by cs => cs.length
decreasing_by
  · simp
  · have := (takeEscape_suffix cs).length_le
    simp; omega

/-- A string up to its closing quote, or up to the end of the text; nothing when a line feed, which is
left, cuts it off. An escaped line feed is dropped, and so is a backslash at the end of the text. -/
def takeString (quote : Char) : List Char → Option (List Char) × List Char
  | [] => (some [], [])
  | c :: cs =>
    if c = quote then (some [], cs)
    else if c = '\n' then (none, c :: cs)
    else if c = '\\' then
      match cs with
      | [] => (some [], [])
      | d :: ds =>
        if d = '\n' then takeString quote ds
        else
          let (text, rest) := takeString quote (takeEscape (d :: ds)).2
          (text.map ((takeEscape (d :: ds)).1 :: ·), rest)
    else
      let (text, rest) := takeString quote cs
      (text.map (c :: ·), rest)
termination_by cs => cs.length
decreasing_by
  · simp only [List.length_cons]; omega
  · have := (takeEscape_suffix (d :: ds)).length_le
    simp only [List.length_cons] at this ⊢; omega
  · simp only [List.length_cons]; omega

/-- The digits at the start of a text and what is left, if there is a digit. -/
def takeDigits : List Char → Option (List Char × List Char)
  | c :: cs =>
    if c.isDigit then some ((c :: cs).takeWhile Char.isDigit, (c :: cs).dropWhile Char.isDigit) else none
  | [] => none

/-- The sign at the start of a text, if there is one: whether it is a minus, and what is left. -/
def takeSign : List Char → Bool × List Char
  | '-' :: cs => (true, cs)
  | '+' :: cs => (false, cs)
  | cs => (false, cs)

/-- The digits after a point, if the text starts with such. -/
def takeFraction : List Char → Option (List Char × List Char)
  | '.' :: cs => takeDigits cs
  | _ => none

/-- The exponent, if the text starts with one. -/
def takeExponent : List Char → Option (Int × List Char)
  | e :: cs =>
    if e == 'e' || e == 'E' then
      let (negative, cs) := takeSign cs
      (takeDigits cs).map fun (digits, rest) =>
        let value : Int := digitsValue 10 digits
        (if negative then -value else value, rest)
    else none
  | [] => none

/-- The number at the start of a text, and what is left. -/
def takeNumber (cs : List Char) : Number × List Char :=
  let (negative, cs) := takeSign cs
  let digits := cs.takeWhile Char.isDigit
  let afterDigits := cs.dropWhile Char.isDigit
  let fraction := takeFraction afterDigits
  let (places, afterFraction) := fraction.getD ([], afterDigits)
  let exponent := takeExponent afterFraction
  let (power, rest) := exponent.getD (0, afterFraction)
  let value := Decimal.toFloat negative (digitsValue 10 (digits ++ places)) (power - places.length)
  let whole : Int := digitsValue 10 digits
  let isWhole := fraction.isNone && exponent.isNone
  (⟨value, if isWhole then Decimal.fitting? 64 (if negative then -whole else whole) else none⟩, rest)

/-- The text after the end of a comment, of which the two first characters are already read. -/
def afterComment : List Char → List Char
  | '*' :: '/' :: cs => cs
  | _ :: cs => afterComment cs
  | [] => []

theorem afterComment_suffix (cs : List Char) : afterComment cs <:+ cs := by
  fun_induction afterComment cs with
  | case1 cs => exact (List.suffix_cons '/' cs).trans (List.suffix_cons '*' _)
  | case2 c cs _ ih => exact ih.trans (List.suffix_cons c cs)
  | case3 => simp

/-- A text without the comments at its start. -/
def skipComments (cs : List Char) : List Char :=
  match cs with
  | '/' :: '*' :: rest => skipComments (afterComment rest)
  | _ => cs
termination_by cs.length
decreasing_by
  have := (afterComment_suffix rest).length_le
  simp; omega

/-! ## Tokens -/

/-- The number, percentage or dimension at the start of a text, and what is left. -/
def takeNumeric (cs : List Char) : Token × List Char :=
  let (n, rest) := takeNumber cs
  if startsName rest then
    let (unit, rest) := takeName rest
    (.dimension n (String.ofList unit), rest)
  else
    match rest with
    | '%' :: rest => (.percentage n.value, rest)
    | _ => (.number n, rest)

/-- The name or function at the start of a text, and what is left. -/
def takeNamed (cs : List Char) : Token × List Char :=
  let (name, rest) := takeName cs
  match rest with
  | '(' :: rest => (.function (String.ofList name), rest)
  | _ => (.ident (String.ofList name), rest)

/-- The token at the start of a text that is not empty, and what is left. -/
def next (c : Char) (cs : List Char) : Token × List Char :=
  if isAsciiSpace c then (.space, cs.dropWhile isAsciiSpace)
  else if c == '"' || c == '\'' then
    match takeString c cs with
    | (some text, rest) => (.string (String.ofList text), rest)
    | (none, rest) => (.badString, rest)
  else if c == '#' then
    if cs.head?.any isNamePart || startsEscape cs then
      let (name, rest) := takeName cs
      (.hash (String.ofList name) (startsName cs), rest)
    else (.delim c, cs)
  else if c == '@' then
    if startsName cs then
      let (name, rest) := takeName cs
      (.atKeyword (String.ofList name), rest)
    else (.delim c, cs)
  else if startsNumber (c :: cs) then takeNumeric (c :: cs)
  else if startsName (c :: cs) then takeNamed (c :: cs)
  else
    let token : Token := match c with
      | '(' => .openParen
      | ')' => .closeParen
      | '[' => .openBracket
      | ']' => .closeBracket
      | '\x7b' => .openBrace
      | '\x7d' => .closeBrace
      | ',' => .comma
      | ':' => .colon
      | ';' => .semicolon
      | _ => .delim c
    (token, cs)

/-! ## What is left is an end of what was there -/

theorem takeName_suffix (cs : List Char) : (takeName cs).2 <:+ cs := by
  fun_induction takeName cs with
  | case1 => simp
  | case2 c cs _ name rest h ih =>
    rw [h] at ih
    exact ih.trans (List.suffix_cons c cs)
  | case3 c cs _ _ name rest h ih =>
    rw [h] at ih
    exact (ih.trans (takeEscape_suffix cs)).trans (List.suffix_cons c cs)
  | case4 => simp

theorem takeString_suffix (quote : Char) (cs : List Char) : (takeString quote cs).2 <:+ cs := by
  fun_induction takeString quote cs with
  | case1 => simp
  | case2 => simp
  | case3 => simp
  | case4 => simp
  | case5 rest _ _ ih => exact ih.trans ((List.suffix_cons '\n' rest).trans (List.suffix_cons '\\' _))
  | case6 c cs _ text rest h _ _ ih =>
    rw [h] at ih
    exact (ih.trans (takeEscape_suffix (c :: cs))).trans (List.suffix_cons '\\' _)
  | case7 c cs _ _ _ text rest h ih =>
    rw [h] at ih
    exact ih.trans (List.suffix_cons c cs)

theorem takeSign_suffix (cs : List Char) : (takeSign cs).2 <:+ cs := by
  unfold takeSign
  split <;> simp

theorem takeDigits_suffix {cs digits rest : List Char} (h : takeDigits cs = some (digits, rest)) :
    rest <:+ cs := by
  unfold takeDigits at h
  split at h
  · split at h
    · cases h
      exact List.dropWhile_suffix _
    · cases h
  · cases h

theorem takeFraction_suffix {cs places rest : List Char} (h : takeFraction cs = some (places, rest)) :
    rest <:+ cs := by
  unfold takeFraction at h
  split at h
  · exact (takeDigits_suffix h).trans (List.suffix_cons _ _)
  · cases h

theorem takeExponent_suffix {cs rest : List Char} {power : Int}
    (h : takeExponent cs = some (power, rest)) : rest <:+ cs := by
  unfold takeExponent at h
  split at h
  · split at h
    · obtain ⟨⟨digits, rest'⟩, hd, hp⟩ := Option.map_eq_some_iff.1 h
      cases hp
      exact ((takeDigits_suffix hd).trans (takeSign_suffix _)).trans (List.suffix_cons _ _)
    · cases h
  · cases h

/-- What is left after the fraction of a number, if it has one. -/
def afterFraction (cs : List Char) : List Char := ((takeFraction cs).getD ([], cs)).2

theorem afterFraction_suffix (cs : List Char) : afterFraction cs <:+ cs := by
  unfold afterFraction
  cases h : takeFraction cs with
  | none => simp
  | some r => exact takeFraction_suffix h

theorem takeNumber_suffix_afterFraction (cs : List Char) :
    (takeNumber cs).2 <:+ afterFraction ((takeSign cs).2.dropWhile Char.isDigit) := by
  have exponent (ds : List Char) : ((takeExponent ds).getD (0, ds)).2 <:+ ds := by
    cases h : takeExponent ds with
    | none => simp
    | some r => exact takeExponent_suffix h
  exact exponent _

theorem takeNumber_suffix (cs : List Char) : (takeNumber cs).2 <:+ cs :=
  (takeNumber_suffix_afterFraction cs).trans
    ((afterFraction_suffix _).trans ((List.dropWhile_suffix _).trans (takeSign_suffix cs)))

/-- A numeric token is a number with what belongs to it. -/
theorem takeNumeric_suffix (cs : List Char) : (takeNumeric cs).2 <:+ (takeNumber cs).2 := by
  unfold takeNumeric
  generalize takeNumber cs = r
  obtain ⟨n, rest⟩ := r
  dsimp only
  split
  · exact takeName_suffix rest
  · split
    · exact List.suffix_cons '%' _
    · exact List.suffix_refl rest

/-- A named token is a name with what belongs to it. -/
theorem takeNamed_suffix (cs : List Char) : (takeNamed cs).2 <:+ (takeName cs).2 := by
  unfold takeNamed
  generalize takeName cs = r
  obtain ⟨name, rest⟩ := r
  dsimp only
  split
  · exact List.suffix_cons '(' _
  · exact List.suffix_refl rest

/-- What is left after an unsigned number is shorter than the number with it. -/
theorem afterFraction_lt {cs : List Char} (h : startsUnsigned cs = true) :
    (afterFraction (cs.dropWhile Char.isDigit)).length < cs.length := by
  unfold startsUnsigned at h
  split at h
  · next d ds =>
    have := (List.dropWhile_suffix (l := ds) Char.isDigit).length_le
    simp [afterFraction, takeFraction, takeDigits, h]
    omega
  · next c cs _ =>
    have := ((afterFraction_suffix _).trans (List.dropWhile_suffix (l := cs) Char.isDigit)).length_le
    simp [h]
    omega
  · cases h

/-- A number takes at least one character. -/
theorem takeNumber_lt {cs : List Char} (h : startsNumber cs = true) :
    (takeNumber cs).2.length < cs.length := by
  have left := (takeNumber_suffix_afterFraction cs).length_le
  unfold startsNumber at h
  split at h
  · have := afterFraction_lt h
    simp only [takeSign] at left
    simp; omega
  · have := afterFraction_lt h
    simp only [takeSign] at left
    simp; omega
  · have := afterFraction_lt h
    simp_all only [takeSign]
    omega

/-- A name takes at least one character. -/
theorem takeName_lt {cs : List Char} (h : startsName cs = true) :
    (takeName cs).2.length < cs.length := by
  cases cs with
  | nil => simp [startsName] at h
  | cons c cs =>
    have name := (takeName_suffix cs).length_le
    have escape := ((takeName_suffix _).trans (takeEscape_suffix cs)).length_le
    have first : isNamePart c = true ∨ startsEscape (c :: cs) = true := by
      unfold startsName at h
      split at h <;> simp_all [isNamePart]
      grind
    rw [takeName]
    split
    · simp; omega
    · split
      · simp; omega
      · simp_all

/-- What is left after a token is an end of what was there after its first character. -/
theorem next_suffix (c : Char) (cs : List Char) : (next c cs).2 <:+ cs := by
  have shorter {rest : List Char} (h : rest <:+ c :: cs) (hl : rest.length < (c :: cs).length) :
      rest <:+ cs := by
    rcases List.suffix_cons_iff.1 h with h | h
    · simp [h] at hl
    · exact h
  unfold next
  split
  · exact List.dropWhile_suffix _
  · split
    · have h := takeString_suffix c cs
      generalize takeString c cs = r at h ⊢
      obtain ⟨text, rest⟩ := r
      cases text <;> exact h
    · split
      · split
        · exact takeName_suffix cs
        · exact List.suffix_refl cs
      · split
        · split
          · exact takeName_suffix cs
          · exact List.suffix_refl cs
        · split
          · next h =>
            exact shorter ((takeNumeric_suffix _).trans (takeNumber_suffix _))
              (Nat.lt_of_le_of_lt (takeNumeric_suffix _).length_le (takeNumber_lt h))
          · split
            · next h =>
              exact shorter ((takeNamed_suffix _).trans (takeName_suffix _))
                (Nat.lt_of_le_of_lt (takeNamed_suffix _).length_le (takeName_lt h))
            · exact List.suffix_refl cs

theorem skipComments_suffix (cs : List Char) : skipComments cs <:+ cs := by
  fun_induction skipComments cs with
  | case1 rest ih =>
    exact (ih.trans (afterComment_suffix rest)).trans
      ((List.suffix_cons '*' rest).trans (List.suffix_cons '/' _))
  | case2 => exact List.suffix_refl _

/-! ## The whole text -/

/-- The tokens of a text that stands at a byte offset. -/
def lexFrom (offset : Nat) (cs : List Char) : List Lexeme :=
  let start := offset + (byteLength cs - byteLength (skipComments cs))
  match _h : skipComments cs with
  | [] => [⟨.endOfInput, ⟨start, start⟩⟩]
  | c :: rest =>
    let (token, left) := next c rest
    let stop := start + (byteLength (c :: rest) - byteLength left)
    ⟨token, ⟨start, stop⟩⟩ :: lexFrom stop (next c rest).2
termination_by cs.length
decreasing_by
  have h := (skipComments_suffix cs).length_le
  have := (next_suffix c rest).length_le
  simp_all
  omega

/-- The tokens of a text. -/
def lex (text : String) : List Lexeme := lexFrom 0 text.toList

end LiveMarkup.Css
