/-
The tokens of a part of a plain text.

A token is told by its characters and at most three after it. So the tokens of a plain text stay as they are when
white space, a comma or another character that no token goes on with (`Ending`) follows the text (`tiles_append`);
only white space right behind a final escape becomes a part of it. What the lexer gives is these tokens, laid one
behind the other from an offset on (`lexFrom_of_tiles`).
-/
import LiveMarkup.Proofs.Css.Plain
import LiveMarkup.Proofs.Text.Chars

set_option autoImplicit false

namespace LiveMarkup.Css

open Text

/-! ## What no token goes on with -/

/-- Whether no token goes on with a character. -/
def isEnder (c : Char) : Bool := !isNamePart c && !(['\\', '(', '.', '%', '+'].contains c)

/-- White space, and then the end or a character that no token goes on with. -/
inductive Ending : List Char → Prop
  | nil : Ending []
  | space {c : Char} {cs : List Char} : isAsciiSpace c = true → Ending cs → Ending (c :: cs)
  | stop {c : Char} {cs : List Char} : isEnder c = true → isAsciiSpace c = false → Ending (c :: cs)

variable {c d quote : Char} {cs ds w l x : List Char}

theorem isEnder_of_isAsciiSpace (h : isAsciiSpace c = true) : isEnder c = true := by
  simp only [isAsciiSpace, Bool.or_eq_true, beq_iff_eq] at h
  rcases h with (((rfl | rfl) | rfl) | rfl) | rfl <;> decide

theorem Ending.isEnder (h : Ending (c :: cs)) : isEnder c = true := by
  cases h with
  | space hc _ => exact isEnder_of_isAsciiSpace hc
  | stop hc _ => exact hc

theorem ending_comma (cs : List Char) : Ending (',' :: cs) := .stop (by decide) (by decide)

theorem Ending.append_space (hw : ∀ c ∈ w, isAsciiSpace c = true) (hx : Ending x) : Ending (w ++ x) := by
  induction w with
  | nil => exact hx
  | cons c w ih => exact .space (hw c List.mem_cons_self) (ih fun d hd => hw d (List.mem_cons_of_mem _ hd))

theorem not_isNamePart_of_isEnder (h : isEnder c = true) : isNamePart c = false := by
  rw [isEnder, Bool.and_eq_true, Bool.not_eq_true'] at h
  exact h.1

theorem ne_of_isEnder (h : isEnder c = true) (hd : isEnder d = false) : c ≠ d := by
  rintro rfl
  rw [h] at hd
  cases hd

theorem not_isDigit_of_isEnder (h : isEnder c = true) : c.isDigit = false := by
  have hpart := not_isNamePart_of_isEnder h
  rw [isNamePart, Bool.or_eq_false_iff, Bool.or_eq_false_iff] at hpart
  exact hpart.1.2

theorem not_isDigitOf_of_isEnder (h : isEnder c = true) : isDigitOf 16 c = false := by
  by_contra hdigit
  have hc := toNat_of_isDigitOf (Bool.not_eq_false _ ▸ hdigit)
  have hpart := not_isNamePart_of_isEnder h
  rw [isNamePart_of_toNat (by omega)] at hpart
  cases hpart

/-! ## What a text starts with -/

theorem startsEscape_ending (hx : Ending x) : startsEscape x = false := by
  unfold startsEscape
  split
  · exact absurd rfl (ne_of_isEnder hx.isEnder rfl)
  · rfl

theorem startsEscape_cons (c d : Char) (cs : List Char) : startsEscape (c :: d :: cs) = (c == '\\' && d != '\n') := by
  by_cases hc : c = '\\'
  · subst hc
    rfl
  · rw [beq_false_of_ne hc, Bool.false_and, startsEscape]
    rintro _ _ ⟨⟩
    exact hc rfl

theorem startsEscape_singleton (c : Char) : startsEscape [c] = false := by
  unfold startsEscape
  split
  · rename_i heq
    cases heq
  · rfl

/-- A backslash at the end of a text, alone or behind a minus. Whether it starts an escape depends on what follows. -/
def Hooked (cs : List Char) : Prop := cs = ['\\'] ∨ cs = ['-', '\\']

theorem Plain.not_hooked (h : Plain w) : ¬ Hooked w := by
  rintro (rfl | rfl) <;> cases h

theorem startsEscape_append (h : w ≠ ['\\']) (hx : Ending x) : startsEscape (w ++ x) = startsEscape w := by
  match w with
  | [] =>
    rw [List.nil_append, startsEscape_ending hx]
    rfl
  | c :: d :: w => rw [List.cons_append, List.cons_append, startsEscape_cons, startsEscape_cons]
  | [c] =>
    have hne : c ≠ '\\' := by
      rintro rfl
      exact h rfl
    cases x with
    | nil => rfl
    | cons d x =>
      rw [List.singleton_append, startsEscape_cons, beq_false_of_ne hne, Bool.false_and, startsEscape_singleton]

theorem isNameStart_of_isEnder (h : isEnder c = true) : isNameStart c = false := by
  have hpart := not_isNamePart_of_isEnder h
  rw [isNamePart, Bool.or_eq_false_iff, Bool.or_eq_false_iff] at hpart
  exact hpart.1.1

theorem startsName_of_ne (hc : c ≠ '-') (cs : List Char) :
    startsName (c :: cs) = (isNameStart c || startsEscape (c :: cs)) := by
  rw [startsName]
  rintro ⟨⟩
  exact hc rfl

theorem startsName_ending (hx : Ending x) : startsName x = false := by
  cases x with
  | nil => rfl
  | cons c x =>
    rw [startsName_of_ne (ne_of_isEnder hx.isEnder rfl), isNameStart_of_isEnder hx.isEnder, startsEscape_ending hx]
    rfl

theorem startsName_append (h : ¬ Hooked w) (hx : Ending x) : startsName (w ++ x) = startsName w := by
  cases w with
  | nil =>
    rw [List.nil_append, startsName_ending hx]
    rfl
  | cons c w =>
    by_cases hc : c = '-'
    · subst hc
      have hrest : w ≠ ['\\'] := fun hw => h (.inr (congrArg ('-' :: ·) hw))
      have hdash (d : Char) (cs : List Char) :
          startsName ('-' :: d :: cs) = (isNameStart d || d == '-' || startsEscape (d :: cs)) := rfl
      cases w with
      | cons d w =>
        rw [List.cons_append, List.cons_append, hdash, hdash, ← List.cons_append, startsEscape_append hrest hx]
      | nil =>
        cases x with
        | nil => rfl
        | cons d x =>
          rw [List.singleton_append, hdash, isNameStart_of_isEnder hx.isEnder, startsEscape_ending hx,
            beq_false_of_ne (ne_of_isEnder hx.isEnder rfl)]
          rfl
    · rw [List.cons_append, startsName_of_ne hc, startsName_of_ne hc, ← List.cons_append,
        startsEscape_append (fun hw => h (.inl hw)) hx]

theorem startsUnsigned_of_ne (hc : c ≠ '.') (cs : List Char) : startsUnsigned (c :: cs) = c.isDigit := by
  rw [startsUnsigned]
  rintro _ _ ⟨⟩
  exact absurd rfl hc

theorem startsUnsigned_append (hx : Ending x) (w : List Char) : startsUnsigned (w ++ x) = startsUnsigned w := by
  match w with
  | [] =>
    cases x with
    | nil => rfl
    | cons c x =>
      rw [List.nil_append, startsUnsigned_of_ne (ne_of_isEnder hx.isEnder rfl), not_isDigit_of_isEnder hx.isEnder]
      rfl
  | c :: w =>
    by_cases hc : c = '.'
    · subst hc
      match w, x with
      | _ :: _, _ => rfl
      | [], [] => rfl
      | [], d :: _ => exact not_isDigit_of_isEnder hx.isEnder
    · rw [List.cons_append, startsUnsigned_of_ne hc, startsUnsigned_of_ne hc]

theorem startsNumber_of_ne (hplus : c ≠ '+') (hminus : c ≠ '-') (cs : List Char) :
    startsNumber (c :: cs) = startsUnsigned (c :: cs) := by
  rw [startsNumber]
  · rintro _ ⟨⟩
    exact hplus rfl
  · rintro _ ⟨⟩
    exact hminus rfl

theorem startsNumber_append (hx : Ending x) (c : Char) (w : List Char) :
    startsNumber (c :: (w ++ x)) = startsNumber (c :: w) := by
  by_cases hplus : c = '+'
  · subst hplus
    exact startsUnsigned_append hx w
  · by_cases hminus : c = '-'
    · subst hminus
      exact startsUnsigned_append hx w
    · rw [startsNumber_of_ne hplus hminus, startsNumber_of_ne hplus hminus]
      exact startsUnsigned_append hx (c :: w)

/-! ## Names -/

theorem takeHex_append_ending (hx : Ending x) (limit : Nat) (cs : List Char) :
    takeHex limit (cs ++ x) = ((takeHex limit cs).1, (takeHex limit cs).2 ++ x) := by
  induction limit generalizing cs with
  | zero => cases cs <;> cases x <;> rfl
  | succ limit ih =>
    cases cs with
    | nil =>
      cases x with
      | nil => rfl
      | cons d x => rw [List.nil_append, takeHex, if_neg (by rw [not_isDigitOf_of_isEnder hx.isEnder]; decide)]; rfl
    | cons c cs =>
      rw [List.cons_append, takeHex, takeHex]
      split
      · rw [ih]
      · rfl

theorem takeHex_append_of_ne_nil {limit : Nat} (h : (takeHex limit cs).2 ≠ []) (x : List Char) :
    takeHex limit (cs ++ x) = ((takeHex limit cs).1, (takeHex limit cs).2 ++ x) := by
  induction limit generalizing cs with
  | zero => cases cs <;> cases x <;> rfl
  | succ limit ih =>
    cases cs with
    | nil => exact absurd rfl h
    | cons c cs =>
      rw [takeHex] at h
      rw [List.cons_append, takeHex, takeHex]
      split
      · rename_i hc
        rw [if_pos hc] at h
        rw [ih h]
      · rfl

theorem dropSpace_append (h : cs ≠ []) (x : List Char) : dropSpace (cs ++ x) = dropSpace cs ++ x := by
  obtain ⟨c, cs, rfl⟩ := List.exists_cons_of_ne_nil h
  rw [List.cons_append, dropSpace, dropSpace]
  split <;> rfl

/-- What is left of a text that follows another one: all of it, or all but the white space that ends an escape. -/
def Follows (l x x' : List Char) : Prop := x' = x ∨ (l = [] ∧ ∃ c, isAsciiSpace c = true ∧ x = c :: x')

theorem Follows.ending (h : Follows l x ds) (hx : Ending x) : Ending ds := by
  rcases h with rfl | ⟨-, c, hc, rfl⟩
  · exact hx
  · cases hx with
    | space _ h => exact h
    | stop _ hno =>
      rw [hno] at hc
      cases hc

theorem takeEscape_of_digit (hc : isDigitOf 16 c = true) (cs : List Char) :
    takeEscape (c :: cs) =
      (charOfCode (digitsValue 16 (c :: (takeHex 5 cs).1)), dropSpace (takeHex 5 cs).2) := by
  rw [takeEscape, if_pos hc]

theorem takeEscape_append (hx : Ending x) (c : Char) (cs : List Char) :
    ∃ x', takeEscape (c :: (cs ++ x)) = ((takeEscape (c :: cs)).1, (takeEscape (c :: cs)).2 ++ x') ∧
      Follows (takeEscape (c :: cs)).2 x x' := by
  by_cases hc : isDigitOf 16 c = true
  · rw [takeEscape_of_digit hc, takeEscape_of_digit hc, takeHex_append_ending hx]
    dsimp only
    by_cases hrest : (takeHex 5 cs).2 = []
    · rw [hrest]
      cases x with
      | nil => exact ⟨[], rfl, .inl rfl⟩
      | cons d x =>
        by_cases hd : isAsciiSpace d = true
        · refine ⟨x, ?_, .inr ⟨rfl, d, hd, rfl⟩⟩
          rw [List.nil_append, dropSpace, if_pos hd]
          rfl
        · refine ⟨d :: x, ?_, .inl rfl⟩
          rw [List.nil_append, dropSpace, if_neg hd]
          rfl
    · exact ⟨x, by rw [dropSpace_append hrest], .inl rfl⟩
  · rw [takeEscape, takeEscape, if_neg hc, if_neg hc]
    exact ⟨x, rfl, .inl rfl⟩

theorem takeEscape_append_of_ne_nil (h : (takeEscape (c :: cs)).2 ≠ []) (x : List Char) :
    takeEscape (c :: (cs ++ x)) = ((takeEscape (c :: cs)).1, (takeEscape (c :: cs)).2 ++ x) := by
  by_cases hc : isDigitOf 16 c = true
  · rw [takeEscape_of_digit hc] at h
    have hrest : (takeHex 5 cs).2 ≠ [] := by
      intro hnil
      rw [hnil] at h
      exact h rfl
    rw [takeEscape_of_digit hc, takeEscape_of_digit hc, takeHex_append_of_ne_nil hrest, dropSpace_append hrest]
  · rw [takeEscape, takeEscape, if_neg hc, if_neg hc]

theorem takeName_ending (hx : Ending x) : takeName x = ([], x) := by
  cases x with
  | nil => rw [takeName]
  | cons c x =>
    rw [takeName, if_neg (by rw [not_isNamePart_of_isEnder hx.isEnder]; decide),
      if_neg (by rw [startsEscape_ending hx]; decide)]

theorem takeName_append (h : (takeName cs).2 ≠ ['\\']) (hx : Ending x) :
    ∃ x', takeName (cs ++ x) = ((takeName cs).1, (takeName cs).2 ++ x') ∧ Follows (takeName cs).2 x x' := by
  fun_induction takeName cs with
  | case1 => exact ⟨x, takeName_ending hx, .inl rfl⟩
  | case2 c cs hc name rest hname ih =>
    rw [hname] at ih
    obtain ⟨x', hx', hfollows⟩ := ih h
    exact ⟨x', by rw [List.cons_append, takeName, if_pos hc, hx'], hfollows⟩
  | case3 c cs hpart hescape name rest hname ih =>
    rw [hname] at ih
    obtain ⟨d, ds, hcs, -⟩ := startsEscape_iff.1 hescape
    obtain ⟨rfl, rfl⟩ := List.cons.inj hcs
    have hstart : startsEscape ('\\' :: d :: (ds ++ x)) = true := hescape
    have hpart' : ¬ isNamePart '\\' = true := by decide
    by_cases hnil : (takeEscape (d :: ds)).2 = []
    · -- the escape ends the text, and may take a space from what follows
      obtain ⟨x', htake, hfollows⟩ := takeEscape_append hx d ds
      rw [hnil, takeName] at hname
      obtain ⟨rfl, rfl⟩ := Prod.mk.inj hname
      refine ⟨x', ?_, hnil ▸ hfollows⟩
      rw [List.cons_append, List.cons_append, takeName, if_neg hpart', if_pos hstart, htake, hnil, List.nil_append,
        takeName_ending (hfollows.ending hx)]
    · obtain ⟨x', hx', hfollows⟩ := ih h
      refine ⟨x', ?_, hfollows⟩
      rw [List.cons_append, List.cons_append, takeName, if_neg hpart', if_pos hstart, takeEscape_append_of_ne_nil hnil,
        hx']
  | case4 c cs hpart hescape =>
    refine ⟨x, ?_, .inl rfl⟩
    rw [List.cons_append, takeName, if_neg hpart, ← List.cons_append, startsEscape_append h hx, if_neg hescape]

/-! ## Strings and numbers -/

theorem takeString_cons (quote c : Char) (cs : List Char) :
    takeString quote (c :: cs) =
      if c = quote then (some [], cs)
      else if c = '\n' then (none, c :: cs)
      else if c = '\\' then
        match cs with
        | [] => (some [], [])
        | d :: ds =>
          if d = '\n' then takeString quote ds
          else
            let r := takeString quote (takeEscape (d :: ds)).2
            (r.1.map ((takeEscape (d :: ds)).1 :: ·), r.2)
      else
        let r := takeString quote cs
        (r.1.map (c :: ·), r.2) :=
  takeString.eq_def quote (c :: cs)

theorem takeSign_of_ne (hminus : c ≠ '-') (hplus : c ≠ '+') (cs : List Char) :
    takeSign (c :: cs) = (false, c :: cs) := by
  rw [takeSign]
  · rintro _ ⟨⟩
    exact hminus rfl
  · rintro _ ⟨⟩
    exact hplus rfl

theorem takeSign_append (hx : Ending x) (cs : List Char) :
    takeSign (cs ++ x) = ((takeSign cs).1, (takeSign cs).2 ++ x) := by
  cases cs with
  | nil =>
    cases x with
    | nil => rfl
    | cons c x => exact takeSign_of_ne (ne_of_isEnder hx.isEnder rfl) (ne_of_isEnder hx.isEnder rfl) x
  | cons c cs =>
    by_cases hminus : c = '-'
    · subst hminus
      rfl
    · by_cases hplus : c = '+'
      · subst hplus
        rfl
      · rw [List.cons_append, takeSign_of_ne hminus hplus, takeSign_of_ne hminus hplus]
        rfl

theorem digits_ending (hx : Ending x) : x.takeWhile Char.isDigit = [] ∧ x.dropWhile Char.isDigit = x := by
  cases x with
  | nil => exact ⟨rfl, rfl⟩
  | cons c x =>
    have hc : ¬ c.isDigit = true := by
      rw [not_isDigit_of_isEnder hx.isEnder]
      decide
    exact ⟨List.takeWhile_cons_of_neg hc, List.dropWhile_cons_of_neg hc⟩

theorem digits_append (hx : Ending x) (cs : List Char) :
    (cs ++ x).takeWhile Char.isDigit = cs.takeWhile Char.isDigit ∧
      (cs ++ x).dropWhile Char.isDigit = cs.dropWhile Char.isDigit ++ x := by
  induction cs with
  | nil => exact digits_ending hx
  | cons c cs ih =>
    by_cases hc : c.isDigit = true
    · rw [List.cons_append, List.takeWhile_cons_of_pos hc, List.takeWhile_cons_of_pos hc, List.dropWhile_cons_of_pos hc,
        List.dropWhile_cons_of_pos hc, ih.1, ih.2]
      exact ⟨rfl, rfl⟩
    · rw [List.cons_append, List.takeWhile_cons_of_neg hc, List.takeWhile_cons_of_neg hc, List.dropWhile_cons_of_neg hc,
        List.dropWhile_cons_of_neg hc]
      exact ⟨rfl, rfl⟩

/-- What is left of a text that goes on. -/
def appendRest {α : Type} (x : List Char) (r : α × List Char) : α × List Char := (r.1, r.2 ++ x)

theorem takeDigits_append (hx : Ending x) (cs : List Char) :
    takeDigits (cs ++ x) = (takeDigits cs).map (appendRest x) := by
  cases cs with
  | nil =>
    cases x with
    | nil => rfl
    | cons c x => rw [List.nil_append, takeDigits, if_neg (by rw [not_isDigit_of_isEnder hx.isEnder]; decide)]; rfl
  | cons c cs =>
    obtain ⟨htake, hdrop⟩ := digits_append hx (c :: cs)
    rw [List.cons_append, takeDigits, takeDigits, ← List.cons_append, htake, hdrop]
    split <;> rfl

theorem takeFraction_of_ne (hc : c ≠ '.') (cs : List Char) : takeFraction (c :: cs) = none := by
  rw [takeFraction]
  rintro _ ⟨⟩
  exact hc rfl

theorem takeFraction_append (hx : Ending x) (cs : List Char) :
    takeFraction (cs ++ x) = (takeFraction cs).map (appendRest x) := by
  cases cs with
  | nil =>
    cases x with
    | nil => rfl
    | cons c x => exact takeFraction_of_ne (ne_of_isEnder hx.isEnder rfl) x
  | cons c cs =>
    by_cases hc : c = '.'
    · subst hc
      exact takeDigits_append hx cs
    · rw [List.cons_append, takeFraction_of_ne hc, takeFraction_of_ne hc]
      rfl

theorem takeExponent_append (hx : Ending x) (cs : List Char) :
    takeExponent (cs ++ x) = (takeExponent cs).map (appendRest x) := by
  cases cs with
  | nil =>
    cases x with
    | nil => rfl
    | cons c x =>
      have hc : ¬ (c == 'e' || c == 'E') = true := by
        rw [beq_false_of_ne (ne_of_isEnder hx.isEnder rfl), beq_false_of_ne (ne_of_isEnder hx.isEnder rfl)]
        decide
      rw [List.nil_append, takeExponent_cons, if_neg hc]
      rfl
  | cons c cs =>
    rw [List.cons_append, takeExponent_cons, takeExponent_cons, takeSign_append hx]
    split
    · rw [takeDigits_append hx, Option.map_map, Option.map_map]
      rfl
    · rfl

theorem afterFraction_append (hx : Ending x) (cs : List Char) : afterFraction (cs ++ x) = afterFraction cs ++ x := by
  rw [afterFraction, afterFraction, takeFraction_append hx]
  cases takeFraction cs <;> rfl

theorem afterExponent_append (hx : Ending x) (cs : List Char) : afterExponent (cs ++ x) = afterExponent cs ++ x := by
  rw [afterExponent, afterExponent, takeExponent_append hx]
  cases takeExponent cs <;> rfl

/-- The number that its parts make. -/
def numberOf (negative : Bool) (digits : List Char) (places : Option (List Char)) (power : Option Int) : Number :=
  let whole : Int := digitsValue 10 digits
  let places' := places.getD []
  ⟨Decimal.toFloat negative (digitsValue 10 (digits ++ places')) (power.getD 0 - places'.length),
    if places.isNone && power.isNone then Decimal.fitting? 64 (if negative then -whole else whole) else none⟩

theorem fst_takeNumber (cs : List Char) :
    (takeNumber cs).1 =
      numberOf (takeSign cs).1 ((takeSign cs).2.takeWhile Char.isDigit)
        ((takeFraction ((takeSign cs).2.dropWhile Char.isDigit)).map Prod.fst)
        ((takeExponent (afterFraction ((takeSign cs).2.dropWhile Char.isDigit))).map Prod.fst) := by
  have hparts (negative : Bool) (digits after : List Char) (fraction : Option (List Char × List Char))
      (exponent : Option (Int × List Char)) (rest : List Char) :
      (⟨Decimal.toFloat negative (digitsValue 10 (digits ++ (fraction.getD ([], after)).1))
          ((exponent.getD (0, rest)).1 - (fraction.getD ([], after)).1.length),
        if fraction.isNone && exponent.isNone then
          Decimal.fitting? 64 (if negative then -(digitsValue 10 digits : Int) else digitsValue 10 digits)
        else none⟩ : Number) = numberOf negative digits (fraction.map Prod.fst) (exponent.map Prod.fst) := by
    cases fraction <;> cases exponent <;> rfl
  exact hparts _ _ _ _ _ _

theorem takeNumber_append (hx : Ending x) (cs : List Char) :
    takeNumber (cs ++ x) = ((takeNumber cs).1, (takeNumber cs).2 ++ x) := by
  obtain ⟨htake, hdrop⟩ := digits_append hx (takeSign cs).2
  refine Prod.ext ?_ ?_
  · rw [fst_takeNumber, fst_takeNumber, takeSign_append hx]
    dsimp only
    rw [htake, hdrop, takeFraction_append hx, afterFraction_append hx, takeExponent_append hx, Option.map_map,
      Option.map_map]
    rfl
  · rw [snd_takeNumber, snd_takeNumber, takeSign_append hx]
    dsimp only
    rw [hdrop, afterFraction_append hx, afterExponent_append hx]

/-! ## Tokens -/

theorem takeNumeric_append (h : ¬ Hooked (takeNumeric cs).2) (hx : Ending x) :
    ∃ x', takeNumeric (cs ++ x) = ((takeNumeric cs).1, (takeNumeric cs).2 ++ x') ∧ Follows (takeNumeric cs).2 x x' := by
  unfold takeNumeric at h ⊢
  rw [takeNumber_append hx]
  generalize takeNumber cs = r at h
  obtain ⟨n, rest⟩ := r
  dsimp only at h ⊢
  have hrest : ¬ Hooked rest := by
    rintro (rfl | rfl)
    · exact h (.inl rfl)
    · exact h (.inr rfl)
  rw [startsName_append hrest hx]
  split
  · rename_i hname
    rw [if_pos hname] at h
    obtain ⟨x', hx', hfollows⟩ := takeName_append (fun hl => h (.inl hl)) hx
    rw [hx']
    exact ⟨x', rfl, hfollows⟩
  · cases rest with
    | nil =>
      refine ⟨x, ?_, .inl rfl⟩
      rw [List.nil_append]
      split
      · exact absurd rfl (ne_of_isEnder hx.isEnder rfl)
      · rfl
    | cons c rest =>
      refine ⟨x, ?_, ?_⟩
      · by_cases hc : c = '%'
        · subst hc
          rfl
        · rw [List.cons_append]
          split
          · rename_i heq
            exact absurd (List.cons.inj heq).1 hc
          · split
            · rename_i heq
              exact absurd (List.cons.inj heq).1 hc
            · rfl
      · exact .inl rfl

theorem takeNamed_append (h : ¬ Hooked (takeNamed cs).2) (hx : Ending x) :
    ∃ x', takeNamed (cs ++ x) = ((takeNamed cs).1, (takeNamed cs).2 ++ x') ∧ Follows (takeNamed cs).2 x x' := by
  have hname : (takeName cs).2 ≠ ['\\'] := by
    unfold takeNamed at h
    generalize takeName cs = r at h
    rintro hl
    obtain ⟨name, rest⟩ := r
    obtain rfl : rest = ['\\'] := hl
    exact h (.inl rfl)
  obtain ⟨x', hx', hfollows⟩ := takeName_append hname hx
  rw [takeNamed, takeNamed, hx']
  generalize takeName cs = r at hfollows
  obtain ⟨name, rest⟩ := r
  dsimp only at hfollows ⊢
  cases rest with
  | nil =>
    refine ⟨x', ?_, hfollows⟩
    rw [List.nil_append]
    split
    · exact absurd rfl (ne_of_isEnder (hfollows.ending hx).isEnder rfl)
    · rfl
  | cons c rest =>
    obtain rfl : x' = x := hfollows.resolve_right fun h => absurd h.1 (List.cons_ne_nil _ _)
    refine ⟨x', ?_, .inl rfl⟩
    by_cases hc : c = '('
    · subst hc
      rfl
    · rw [List.cons_append]
      split
      · rename_i heq
        exact absurd (List.cons.inj heq).1 hc
      · split
        · rename_i heq
          exact absurd (List.cons.inj heq).1 hc
        · rfl

theorem dropWhile_append_of_dropWhile {α : Type} {p : α → Bool} {xs ys : List α}
    (h : xs.dropWhile p = [] → ys.dropWhile p = ys) : (xs ++ ys).dropWhile p = xs.dropWhile p ++ ys := by
  rw [List.dropWhile_append]
  split
  · rename_i hnil
    rw [List.isEmpty_iff] at hnil
    rw [h hnil, hnil, List.nil_append]
  · rfl

/-- **A token stays as it is when an ending follows the text**, unless both are white space or a string is open. -/
theorem next_append (h : ¬ Hooked (c :: cs)) (hrest : ¬ Hooked (next c cs).2) (hx : Ending x)
    (hspace : isAsciiSpace c = true → cs.dropWhile isAsciiSpace = [] → x.dropWhile isAsciiSpace = x)
    (hstring : c = '"' ∨ c = '\'' → takeString c (cs ++ x) = ((takeString c cs).1, (takeString c cs).2 ++ x)) :
    ∃ x', next c (cs ++ x) = ((next c cs).1, (next c cs).2 ++ x') ∧ Follows (next c cs).2 x x' := by
  unfold next at hrest ⊢
  by_cases hc : isAsciiSpace c = true
  · rw [if_pos hc, if_pos hc]
    exact ⟨x, by rw [dropWhile_append_of_dropWhile (hspace hc)], .inl rfl⟩
  rw [if_neg hc] at hrest ⊢
  rw [if_neg hc]
  by_cases hquote : (c == '"' || c == '\'') = true
  · rw [if_pos hquote, if_pos hquote]
    rw [Bool.or_eq_true, beq_iff_eq, beq_iff_eq] at hquote
    rw [hstring hquote]
    generalize takeString c cs = r
    obtain ⟨text, rest⟩ := r
    cases text <;> exact ⟨x, rfl, .inl rfl⟩
  rw [if_neg hquote] at hrest ⊢
  rw [if_neg hquote]
  by_cases hhash : (c == '#') = true
  · rw [if_pos hhash] at hrest ⊢
    rw [if_pos hhash]
    have hhead : (cs ++ x).head?.any isNamePart = cs.head?.any isNamePart := by
      cases cs with
      | cons d cs => rfl
      | nil =>
        cases x with
        | nil => rfl
        | cons d x => exact not_isNamePart_of_isEnder hx.isEnder
    have hcs : ¬ Hooked cs := by
      rintro (rfl | rfl)
      · exact hrest (.inl rfl)
      · have htake : takeName ['-', '\\'] = (['-'], ['\\']) := by
          rw [takeName, if_pos (by decide), takeName, if_neg (by decide), if_neg (by decide)]
        rw [if_pos (by decide), htake] at hrest
        exact hrest (.inl rfl)
    rw [hhead, startsEscape_append (fun hl => hcs (.inl hl)) hx, startsName_append hcs hx]
    split
    · rename_i hname
      rw [if_pos hname] at hrest
      obtain ⟨x', hx', hfollows⟩ := takeName_append (fun hl => hrest (.inl hl)) hx
      rw [hx']
      exact ⟨x', rfl, hfollows⟩
    · exact ⟨x, rfl, .inl rfl⟩
  rw [if_neg hhash] at hrest ⊢
  rw [if_neg hhash]
  by_cases hat : (c == '@') = true
  · rw [if_pos hat] at hrest ⊢
    rw [if_pos hat]
    have hcs : ¬ Hooked cs := by
      rintro (rfl | rfl)
      · exact hrest (.inl rfl)
      · exact hrest (.inr rfl)
    rw [startsName_append hcs hx]
    split
    · rename_i hname
      rw [if_pos hname] at hrest
      obtain ⟨x', hx', hfollows⟩ := takeName_append (fun hl => hrest (.inl hl)) hx
      rw [hx']
      exact ⟨x', rfl, hfollows⟩
    · exact ⟨x, rfl, .inl rfl⟩
  rw [if_neg hat] at hrest ⊢
  rw [if_neg hat, startsNumber_append hx]
  by_cases hnumber : startsNumber (c :: cs) = true
  · rw [if_pos hnumber] at hrest ⊢
    rw [if_pos hnumber]
    have hnumeric := takeNumeric_append hrest hx
    rwa [List.cons_append] at hnumeric
  rw [if_neg hnumber] at hrest ⊢
  have hstart : startsName (c :: (cs ++ x)) = startsName (c :: cs) := startsName_append h hx
  rw [if_neg hnumber, hstart]
  by_cases hname : startsName (c :: cs) = true
  · rw [if_pos hname] at hrest ⊢
    rw [if_pos hname]
    exact takeNamed_append hrest hx
  rw [if_neg hname, if_neg hname]
  exact ⟨x, rfl, .inl rfl⟩

/-- A token with the text that it was read from. -/
structure Tile where
  token : Token
  text : List Char

/-- The text of tiles. -/
def textOfTiles (ps : List Tile) : List Char := ps.flatMap (·.text)

/-- Tiles make up a text. -/
inductive Tiles : List Char → List Tile → Prop
  | nil : Tiles [] []
  | cons {c : Char} {cs w : List Char} {ps : List Tile} : c :: cs = w ++ (next c cs).2 → Tiles (next c cs).2 ps →
      Tiles (c :: cs) (⟨(next c cs).1, w⟩ :: ps)

variable {p q : Tile} {ps qs rs : List Tile} {offset : Nat}

@[simp] theorem textOfTiles_nil : textOfTiles [] = [] := rfl

@[simp] theorem textOfTiles_cons (p : Tile) (ps : List Tile) : textOfTiles (p :: ps) = p.text ++ textOfTiles ps := rfl

@[simp] theorem textOfTiles_append (ps qs : List Tile) : textOfTiles (ps ++ qs) = textOfTiles ps ++ textOfTiles qs :=
  List.flatMap_append

theorem Tiles.text (h : Tiles cs ps) : textOfTiles ps = cs := by
  induction h with
  | nil => rfl
  | cons hw _ ih => rw [textOfTiles_cons, ih, ← hw]

theorem Tiles.unique (h : Tiles cs ps) (h' : Tiles cs qs) : ps = qs := by
  induction h generalizing qs with
  | nil => cases h' with | nil => rfl
  | @cons c cs w ps hw _ ih =>
    cases h' with
    | @cons _ _ w' qs hw' htail' =>
      rw [ih htail', List.append_cancel_right (hw.symm.trans hw')]

/-- What is left after some tiles is made up of the others. -/
theorem Tiles.right (h : Tiles cs (ps ++ qs)) : Tiles (textOfTiles qs) qs := by
  induction ps generalizing cs with
  | nil =>
    rw [List.nil_append] at h
    rw [h.text]
    exact h
  | cons p ps ih => cases h with | cons _ htail => exact ih htail

/-- **The splitter passes each tile of a plain text**, unless it is a comma. -/
theorem Tiles.reads (h : Tiles cs ps) (hplain : Plain cs) : ∀ p ∈ ps, Reads p.token p.text := by
  induction h with
  | nil => simp
  | @cons c cs w ps hw _ ih =>
    obtain ⟨w', hw', hreads⟩ := reads_next hplain
    obtain rfl := List.append_cancel_right (hw.symm.trans hw')
    rw [hw] at hplain
    exact List.forall_mem_cons.2 ⟨hreads, ih (hplain.right hreads.plain)⟩

/-! ## Lexemes -/

/-- Tiles laid one behind the other from an offset on. -/
def place : Nat → List Tile → List Lexeme
  | _, [] => []
  | offset, p :: ps =>
    ⟨p.token, ⟨offset, offset + byteLength p.text⟩⟩ :: place (offset + byteLength p.text) ps

/-- The end of the input. -/
def endAt (offset : Nat) : Lexeme := ⟨.endOfInput, ⟨offset, offset⟩⟩

theorem place_append (offset : Nat) (ps qs : List Tile) :
    place offset (ps ++ qs) = place offset ps ++ place (offset + byteLength (textOfTiles ps)) qs := by
  induction ps generalizing offset with
  | nil => rfl
  | cons p ps ih =>
    rw [List.cons_append, place, place, ih, List.cons_append, textOfTiles_cons, byteLength_append, Nat.add_assoc]

theorem lexFrom_nil (offset : Nat) : lexFrom offset [] = [endAt offset] := by
  have hskip : skipComments [] = [] := by rw [skipComments.eq_def]
  rw [lexFrom]
  split
  · rw [hskip, Nat.sub_self, Nat.add_zero]
    rfl
  · rename_i heq
    rw [hskip] at heq
    cases heq

/-- The same tokens from the same texts, except for the last text. -/
inductive Alike : List Tile → List Tile → Prop
  | nil : Alike [] []
  | last {p q : Tile} : p.token = q.token → Alike [p] [q]
  | cons {p : Tile} {ps qs : List Tile} : Alike ps qs → Alike (p :: ps) (p :: qs)

/-- A text that does not end with a space of ASCII. -/
def Tight (cs : List Char) : Prop := ∀ c, cs.getLast? = some c → isAsciiSpace c = false

theorem Tight.of_append (h : Tight (w ++ l)) : Tight l := by
  intro c hc
  refine h c ?_
  rw [List.getLast?_append, hc]
  rfl

theorem Tight.dropWhile (h : Tight (c :: cs)) (hc : isAsciiSpace c = true) : cs.dropWhile isAsciiSpace ≠ [] := by
  intro hnil
  rw [List.dropWhile_eq_nil_iff] at hnil
  have hlast := List.getLast_mem (List.cons_ne_nil c cs)
  have hspace : isAsciiSpace ((c :: cs).getLast (List.cons_ne_nil c cs)) = true := by
    rcases List.mem_cons.1 hlast with heq | hmem
    · rw [heq]
      exact hc
    · exact hnil _ hmem
  rw [h _ (List.getLast?_eq_some_getLast (List.cons_ne_nil c cs))] at hspace
  cases hspace

/-- White space at the start of a plain text is that of ASCII. -/
theorem Plain.lead (h : Plain (w ++ cs)) (hw : Blank w) : (∀ c ∈ w, isAsciiSpace c = true) ∧ Plain cs := by
  induction w with
  | nil => exact ⟨by simp, h⟩
  | cons c w ih =>
    have hblank := hw c List.mem_cons_self
    have hquiet : Quiet c := by
      refine h.quiet ?_ ?_
      · by_contra hmark
        simp only [isMark, List.contains_eq_mem, List.mem_cons, List.not_mem_nil, or_false, decide_eq_true_eq,
          Bool.not_eq_false] at hmark
        rcases hmark with rfl | rfl | rfl | rfl | rfl | rfl | rfl <;> exact absurd hblank (by decide)
      · rintro rfl
        exact absurd hblank (by decide)
    obtain ⟨hspaces, hrest⟩ := ih (h.right (w := [c]) hquiet.silent.plain) fun d hd => hw d (List.mem_cons_of_mem _ hd)
    exact ⟨List.forall_mem_cons.2 ⟨hquiet.blank hblank, hspaces⟩, hrest⟩

/-- Only quotes open strings. -/
def Place.Sound : Place → Prop
  | bare | escape => True
  | inside quote | insideEscape quote => quote = '"' ∨ quote = '\''

theorem Place.Sound.step {p q : Place} (hp : p.Sound) (h : p.step c = some q) : q.Sound := by
  cases p with
  | bare =>
    rcases Place.step_bare h with ⟨-, rfl⟩ | ⟨hquote, rfl⟩ | ⟨-, -, -, -, -, rfl⟩
    · trivial
    · exact hquote
    · trivial
  | escape =>
    obtain ⟨-, -, rfl⟩ := Place.step_escape h
    trivial
  | inside quote =>
    simp only [Place.step] at h
    split at h
    · obtain rfl := Option.some.inj h
      exact hp
    · split at h
      · obtain rfl := Option.some.inj h
        trivial
      · split at h
        · cases h
        · obtain rfl := Option.some.inj h
          exact hp
  | insideEscape quote =>
    obtain rfl := Option.some.inj h
    exact hp

theorem Place.Sound.run {p q : Place} (hp : p.Sound) (h : p.run cs = some q) : q.Sound := by
  induction cs generalizing p with
  | nil =>
    obtain rfl := Option.some.inj h
    exact hp
  | cons c cs ih =>
    rw [Place.run_cons] at h
    obtain ⟨r, hr, hrun⟩ := Option.bind_eq_some_iff.1 h
    exact ih (hp.step hr) hrun

/-- White space ends neither a string nor an escape. -/
theorem Place.run_blank {p : Place} (hp : p.Sound) (hw : Blank w) (h : p.run w = some .bare) : p = .bare := by
  induction w generalizing p with
  | nil => exact Option.some.inj h
  | cons c w ih =>
    have hblank := hw c List.mem_cons_self
    obtain ⟨q, hq, hrun⟩ := Place.exists_step h
    obtain rfl := ih (hp.step hq) (fun d hd => hw d (List.mem_cons_of_mem _ hd)) hrun
    cases p with
    | bare => rfl
    | escape =>
      rw [(Place.step_escape hq).2.1] at hblank
      cases hblank
    | inside quote =>
      have hne : c ≠ quote := by
        rintro rfl
        rcases hp with rfl | rfl <;> exact absurd hblank (by decide)
      simp only [Place.step, if_neg hne] at hq
      split at hq
      · cases hq
      · split at hq <;> cases hq
    | insideEscape quote => cases hq

/-- White space at the end of a plain text is that of ASCII. -/
theorem Plain.trail (h : Plain (cs ++ w)) (hw : Blank w) : (∀ c ∈ w, isAsciiSpace c = true) ∧ Plain cs := by
  obtain ⟨p, hp, hrun⟩ := Place.run_of_append h
  obtain rfl := Place.run_blank (Place.Sound.run (p := .bare) trivial hp) hw hrun
  refine ⟨?_, hp⟩
  have hplain : Plain (w ++ []) := by
    rw [List.append_nil]
    exact hrun
  exact (hplain.lead hw).1

theorem isBlank_of_isAsciiSpace (h : isAsciiSpace c = true) : isBlank c = true := by
  simp only [isAsciiSpace, Bool.or_eq_true, beq_iff_eq] at h
  rcases h with (((rfl | rfl) | rfl) | rfl) | rfl <;> decide

/-- A text that goes on with a comma, or not at all. -/
def Stops (x : List Char) : Prop := ∀ c, x.head? = some c → c = ','

theorem Stops.ending (h : Stops x) : Ending x := by
  cases x with
  | nil => exact .nil
  | cons c x =>
    obtain rfl := h c rfl
    exact ending_comma x

theorem Stops.dropWhile (h : Stops x) : x.dropWhile isAsciiSpace = x := by
  cases x with
  | nil => rfl
  | cons c x =>
    obtain rfl := h c rfl
    rfl

end LiveMarkup.Css
