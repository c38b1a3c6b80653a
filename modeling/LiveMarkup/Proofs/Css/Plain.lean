/-
Plain selector lists, and where they are split.

The splitter and the lexer read the characters of a selector list each in its own way: the splitter counts parentheses
and brackets and skips strings, the lexer makes tokens. In a plain text (`Plain`) no comment starts, all strings are
closed, and no escape outside of strings hides a character from one of them that the other sees. There every token is
a piece of the text that the splitter passes without a cut, unless it is a comma (`reads_next`).
-/
import LiveMarkup.Css.Lexer
import LiveMarkup.Css.Split
import LiveMarkup.Proofs.Text.Chars

set_option autoImplicit false

namespace LiveMarkup.Css

open Text

/-! ## Plain texts -/

/-- Whether the splitter looks at a character. -/
def isMark (c : Char) : Bool := [',', '"', '\'', '(', ')', '[', ']'].contains c

/-- Where a position in a text is. -/
inductive Place where
  /-- Outside of strings. -/
  | bare
  /-- Outside of strings, right after a backslash. -/
  | escape
  | inside (quote : Char)
  /-- In a string, right after a backslash. -/
  | insideEscape (quote : Char)
deriving DecidableEq, Repr

/-- Where the position after a character of a plain text is, if the text is one so far. -/
def Place.step : Place → Char → Option Place
  | bare, c =>
    if c = '\\' then some escape
    else if c = '"' ∨ c = '\'' then some (inside c)
    else if c = '/' ∨ (isBlank c = true ∧ isAsciiSpace c = false) then none
    else some bare
  | escape, c => if isMark c = true ∨ isBlank c = true then none else some bare
  | inside quote, c =>
    if c = '\\' then some (insideEscape quote)
    else if c = quote then some bare
    else if c = '\n' then none
    else some (inside quote)
  | insideEscape quote, _ => some (inside quote)

/-- Where the position after a text is. -/
def Place.run (p : Place) (cs : List Char) : Option Place := cs.foldlM step p

/-- **A plain text.** Outside of strings there is no slash and no white space but that of ASCII, and no mark and no
white space is escaped. The strings are closed, and no line feed is in them that is not escaped. -/
def Plain (cs : List Char) : Prop := Place.bare.run cs = some .bare

instance (cs : List Char) : Decidable (Plain cs) := inferInstanceAs (Decidable (_ = _))

namespace Place

variable {p q : Place} {c quote : Char} {cs ds : List Char}

theorem run_cons (p : Place) (c : Char) (cs : List Char) : p.run (c :: cs) = (p.step c).bind fun q => q.run cs := by
  rw [run, List.foldlM_cons]
  rfl

theorem run_append (p : Place) (cs ds : List Char) : p.run (cs ++ ds) = (p.run cs).bind fun q => q.run ds := by
  rw [run, List.foldlM_append]
  rfl

theorem run_of_append (h : p.run (cs ++ ds) = some .bare) : ∃ q, p.run cs = some q ∧ q.run ds = some .bare := by
  rw [run_append] at h
  exact Option.bind_eq_some_iff.1 h

theorem exists_step (h : p.run (c :: cs) = some .bare) : ∃ q, p.step c = some q ∧ q.run cs = some .bare := by
  rw [run_cons] at h
  exact Option.bind_eq_some_iff.1 h

/-- What can stand outside of strings. -/
theorem step_bare (h : bare.step c = some q) :
    (c = '\\' ∧ q = escape) ∨ ((c = '"' ∨ c = '\'') ∧ q = inside c) ∨
      (c ≠ '\\' ∧ c ≠ '"' ∧ c ≠ '\'' ∧ c ≠ '/' ∧ (isBlank c = true → isAsciiSpace c = true) ∧ q = bare) := by
  simp only [step] at h
  split at h
  · exact .inl ⟨‹_›, (Option.some.inj h).symm⟩
  · split at h
    · exact .inr (.inl ⟨‹_›, (Option.some.inj h).symm⟩)
    · split at h
      · cases h
      · rename_i hslash hquote hrest
        refine .inr (.inr ⟨hslash, fun h' => hquote (.inl h'), fun h' => hquote (.inr h'), fun h' => hrest (.inl h'),
          fun hblank => ?_, (Option.some.inj h).symm⟩)
        by_contra hspace
        exact hrest (.inr ⟨hblank, Bool.eq_false_iff.2 hspace⟩)

theorem step_escape (h : escape.step c = some q) : isMark c = false ∧ isBlank c = false ∧ q = bare := by
  simp only [step] at h
  split at h
  · cases h
  · rename_i hno
    rw [not_or, Bool.not_eq_true, Bool.not_eq_true] at hno
    exact ⟨hno.1, hno.2, (Option.some.inj h).symm⟩

end Place

variable {c d quote : Char} {cs ds w l : List Char}

theorem plain_nil : Plain [] := rfl

theorem Plain.append (h : Plain cs) (h' : Plain ds) : Plain (cs ++ ds) := by
  rw [Plain, Place.run_append, h]
  exact h'

/-- What follows a plain text in one is plain. -/
theorem Plain.right (h : Plain (w ++ l)) (hw : Plain w) : Plain l := by
  rw [Plain, Place.run_append, hw] at h
  exact h

/-- A character that neither the splitter nor the reader of plain texts looks at. -/
structure Quiet (c : Char) : Prop where
  mark : isMark c = false
  backslash : c ≠ '\\'
  slash : c ≠ '/'
  blank : isBlank c = true → isAsciiSpace c = true

theorem ne_of_isMark (hc : isMark c = false) (hd : isMark d = true) : c ≠ d := by
  rintro rfl
  rw [hc] at hd
  cases hd

theorem Quiet.step (h : Quiet c) : Place.bare.step c = some .bare := by
  have hquote : ¬ (c = '"' ∨ c = '\'') := not_or.2 ⟨ne_of_isMark h.mark rfl, ne_of_isMark h.mark rfl⟩
  have hblank : ¬ (c = '/' ∨ (isBlank c = true ∧ isAsciiSpace c = false)) := by
    rintro (hslash | ⟨hblank, hspace⟩)
    · exact h.slash hslash
    · rw [h.blank hblank] at hspace
      cases hspace
  rw [Place.step, if_neg h.backslash, if_neg hquote, if_neg hblank]

/-- A character that begins a plain text is quiet if it is neither a mark nor a backslash. -/
theorem Plain.quiet (h : Plain (c :: cs)) (hmark : isMark c = false) (hbackslash : c ≠ '\\') : Quiet c := by
  obtain ⟨q, hstep, -⟩ := Place.exists_step h
  rcases Place.step_bare hstep with ⟨hc, -⟩ | ⟨hc | hc, -⟩ | ⟨-, -, -, hslash, hblank, -⟩
  · exact absurd hc hbackslash
  · exact absurd hc (ne_of_isMark hmark rfl)
  · exact absurd hc (ne_of_isMark hmark rfl)
  · exact ⟨hmark, hbackslash, hslash, hblank⟩

/-! ## Passing without a cut -/

/-- Parentheses and brackets are open, and no string. -/
def Nesting.level (parens brackets : Nat) : Nesting := ⟨parens, brackets, none, false⟩

theorem cutAtCommas_ne_nil (n : Nesting) (cs : List Char) : cutAtCommas n cs ≠ [] := by
  cases cs with
  | nil => exact List.cons_ne_nil _ _
  | cons c cs =>
    rw [cutAtCommas]
    split
    · exact List.cons_ne_nil _ _
    · split <;> exact List.cons_ne_nil _ _

/-- A character that does not separate belongs to the first piece. -/
theorem cutAtCommas_cons {n : Nesting} (h : n.separates c = false) (cs : List Char) :
    cutAtCommas n (c :: cs) = (cutAtCommas (n.step c) cs).modifyHead (c :: ·) := by
  rw [cutAtCommas, if_neg (by rw [h]; decide)]
  split
  · rename_i hnil
    exact absurd hnil (cutAtCommas_ne_nil _ _)
  · rename_i hcons
    rw [hcons]
    rfl

/-- The splitter reads a text without a cut. -/
def Passes (n : Nesting) (cs : List Char) (n' : Nesting) : Prop :=
  ∀ rest, cutAtCommas n (cs ++ rest) = (cutAtCommas n' rest).modifyHead (cs ++ ·)

variable {n n' n'' : Nesting}

theorem Passes.nil (n : Nesting) : Passes n [] n := fun rest => by
  obtain ⟨piece, pieces, h⟩ := List.exists_cons_of_ne_nil (cutAtCommas_ne_nil n rest)
  rw [List.nil_append, h]
  rfl

theorem Passes.char (h : n.separates c = false) (hstep : n.step c = n') : Passes n [c] n' := fun rest => by
  rw [List.singleton_append, cutAtCommas_cons h, hstep]
  rfl

theorem Passes.append (h : Passes n cs n') (h' : Passes n' ds n'') : Passes n (cs ++ ds) n'' := fun rest => by
  obtain ⟨piece, pieces, hp⟩ := List.exists_cons_of_ne_nil (cutAtCommas_ne_nil n'' rest)
  rw [List.append_assoc, h, h', hp]
  simp

theorem Passes.cons (h : n.separates c = false) (h' : Passes (n.step c) cs n') : Passes n (c :: cs) n' :=
  (Passes.char h rfl).append h'

/-- A text that is plain and that the splitter does not care about. -/
structure Silent (w : List Char) : Prop where
  plain : Plain w
  passes : ∀ parens brackets, Passes (.level parens brackets) w (.level parens brackets)

theorem Silent.nil : Silent [] := ⟨plain_nil, fun _ _ => .nil _⟩

theorem Silent.append (h : Silent cs) (h' : Silent ds) : Silent (cs ++ ds) :=
  ⟨h.plain.append h'.plain, fun parens brackets => (h.passes parens brackets).append (h'.passes parens brackets)⟩

theorem separates_of_not_isMark (hc : isMark c = false) (n : Nesting) : n.separates c = false := by
  rw [Nesting.separates, beq_false_of_ne (ne_of_isMark hc rfl)]
  rfl

theorem step_level_of_not_isMark (hc : isMark c = false) (parens brackets : Nat) :
    (Nesting.level parens brackets).step c = .level parens brackets := by
  have hne {d : Char} (hd : isMark d = true) : c ≠ d := ne_of_isMark hc hd
  unfold Nesting.step Nesting.level
  dsimp only
  split
  all_goals first | rfl | exact absurd rfl (hne rfl)

theorem Quiet.silent (h : Quiet c) : Silent [c] where
  plain := by
    rw [Plain, Place.run_cons, h.step]
    rfl
  passes parens brackets := .char (separates_of_not_isMark h.mark _) (step_level_of_not_isMark h.mark parens brackets)

theorem silent_of_quiet (h : ∀ c ∈ w, Quiet c) : Silent w := by
  induction w with
  | nil => exact .nil
  | cons c w ih => exact (h c List.mem_cons_self).silent.append (ih fun d hd => h d (List.mem_cons_of_mem _ hd))

/-- An escape outside of strings. -/
theorem silent_escape (hmark : isMark c = false) (hblank : isBlank c = false) : Silent ['\\', c] where
  plain := by
    have hstep : Place.escape.step c = some .bare := by
      rw [Place.step, if_neg (by rw [hmark, hblank]; decide)]
    rw [Plain, Place.run_cons]
    change (Place.escape.run [c]) = _
    rw [Place.run_cons, hstep]
    rfl
  passes parens brackets := by
    refine .cons (separates_of_not_isMark rfl _) ?_
    rw [step_level_of_not_isMark rfl]
    exact .char (separates_of_not_isMark hmark _) (step_level_of_not_isMark hmark parens brackets)

/-! ## Names, numbers and strings -/

theorem not_isNamePart_of_isMark (h : isMark c = true) : isNamePart c = false := by
  simp only [isMark, List.contains_eq_mem, List.mem_cons, List.not_mem_nil, or_false, decide_eq_true_eq] at h
  rcases h with rfl | rfl | rfl | rfl | rfl | rfl | rfl <;> decide

theorem isMark_of_isNamePart (h : isNamePart c = true) : isMark c = false := by
  by_contra hmark
  rw [not_isNamePart_of_isMark (Bool.not_eq_false _ ▸ hmark)] at h
  cases h

/-- A character of a name that begins a plain text is quiet. -/
theorem Plain.quiet_of_isNamePart (h : Plain (c :: cs)) (hc : isNamePart c = true) : Quiet c := by
  refine h.quiet (isMark_of_isNamePart hc) ?_
  rintro rfl
  exact absurd hc (by decide)

theorem quiet_of_toNat (h : 32 < c.toNat ∧ c.toNat < 127) (hmark : isMark c = false) (hbackslash : c ≠ '\\')
    (hslash : c ≠ '/') : Quiet c := by
  refine ⟨hmark, hbackslash, hslash, fun hblank => ?_⟩
  simp only [isBlank, blankRanges, List.any_cons, List.any_nil, Bool.or_false, Bool.or_eq_true, Bool.and_eq_true,
    decide_eq_true_eq] at hblank
  omega

theorem toNat_of_isDigitOf (h : isDigitOf 16 c = true) :
    (48 ≤ c.toNat ∧ c.toNat ≤ 57) ∨ (65 ≤ c.toNat ∧ c.toNat ≤ 70) ∨ (97 ≤ c.toNat ∧ c.toNat ≤ 102) := by
  by_contra hno
  have hvalue : digitValue? 16 c = none := by
    have hlower : ¬ ('0' ≤ c ∧ c ≤ '9') := fun h' =>
      hno (.inl ⟨UInt32.le_iff_toNat_le.1 h'.1, UInt32.le_iff_toNat_le.1 h'.2⟩)
    have hsmall : ¬ ('a' ≤ c ∧ c ≤ 'f') := fun h' =>
      hno (.inr (.inr ⟨UInt32.le_iff_toNat_le.1 h'.1, UInt32.le_iff_toNat_le.1 h'.2⟩))
    have hlarge : ¬ ('A' ≤ c ∧ c ≤ 'F') := fun h' =>
      hno (.inr (.inl ⟨UInt32.le_iff_toNat_le.1 h'.1, UInt32.le_iff_toNat_le.1 h'.2⟩))
    rw [digitValue?, if_neg hlower, if_neg hsmall, if_neg hlarge]
    rfl
  rw [isDigitOf, hvalue] at h
  cases h

theorem isNamePart_of_toNat (h : (48 ≤ c.toNat ∧ c.toNat ≤ 57) ∨ (65 ≤ c.toNat ∧ c.toNat ≤ 90) ∨
    (97 ≤ c.toNat ∧ c.toNat ≤ 122)) : isNamePart c = true := by
  rw [isNamePart, isNameStart, Bool.or_eq_true, Bool.or_eq_true, Bool.or_eq_true, Bool.or_eq_true, isAlpha_iff]
  rcases h with h | h | h
  · refine .inl (.inr ?_)
    rw [Char.isDigit, Bool.and_eq_true, decide_eq_true_eq, decide_eq_true_eq, ge_iff_le, UInt32.le_iff_toNat_le,
      UInt32.le_iff_toNat_le]
    exact h
  · exact .inl (.inl (.inl (.inl (.inl h))))
  · exact .inl (.inl (.inl (.inl (.inr h))))

theorem quiet_of_isAsciiSpace (h : isAsciiSpace c = true) : Quiet c := by
  rw [isAsciiSpace_iff] at h
  refine ⟨?_, ?_, ?_, fun _ => (isAsciiSpace_iff c).2 h⟩
  · by_contra hmark
    simp only [isMark, List.contains_eq_mem, List.mem_cons, List.not_mem_nil, or_false, decide_eq_true_eq,
      Bool.not_eq_false] at hmark
    rcases hmark with rfl | rfl | rfl | rfl | rfl | rfl | rfl <;> exact absurd h (by decide)
  · rintro rfl
    exact absurd h (by decide)
  · rintro rfl
    exact absurd h (by decide)

theorem quiet_of_isDigitOf (h : isDigitOf 16 c = true) : Quiet c := by
  have hc := toNat_of_isDigitOf h
  refine quiet_of_toNat (by omega) (isMark_of_isNamePart (isNamePart_of_toNat (by omega))) ?_ ?_
  · rintro rfl
    exact absurd h (by decide)
  · rintro rfl
    exact absurd h (by decide)

theorem quiet_of_isDigit (h : c.isDigit = true) : Quiet c := by
  rw [Char.isDigit, Bool.and_eq_true, decide_eq_true_eq, decide_eq_true_eq, ge_iff_le, UInt32.le_iff_toNat_le,
    UInt32.le_iff_toNat_le] at h
  have hc : 48 ≤ c.toNat ∧ c.toNat ≤ 57 := h
  refine quiet_of_toNat (by omega) (isMark_of_isNamePart (isNamePart_of_toNat (.inl hc))) ?_ ?_
  · rintro rfl
    exact absurd hc (by decide)
  · rintro rfl
    exact absurd hc (by decide)

theorem takeHex_append (limit : Nat) (cs : List Char) :
    cs = (takeHex limit cs).1 ++ (takeHex limit cs).2 ∧ ∀ d ∈ (takeHex limit cs).1, isDigitOf 16 d = true := by
  fun_induction takeHex limit cs with
  | case1 limit c cs hc digits rest h ih =>
    rw [h] at ih
    exact ⟨congrArg (c :: ·) ih.1, List.forall_mem_cons.2 ⟨hc, ih.2⟩⟩
  | case2 => exact ⟨rfl, by simp⟩
  | case3 => exact ⟨rfl, by simp⟩

theorem exists_dropSpace (cs : List Char) : ∃ w, cs = w ++ dropSpace cs ∧ ∀ c ∈ w, isAsciiSpace c = true := by
  cases cs with
  | nil => exact ⟨[], rfl, by simp⟩
  | cons c cs =>
    rw [dropSpace]
    split
    · rename_i hc
      exact ⟨[c], rfl, by simpa using hc⟩
    · exact ⟨[], rfl, by simp⟩

/-- Behind the first character of an escape there are only digits and white space. -/
theorem exists_takeEscape (c : Char) (cs : List Char) :
    ∃ w, cs = w ++ (takeEscape (c :: cs)).2 ∧ ∀ d ∈ w, isDigitOf 16 d = true ∨ isAsciiSpace d = true := by
  rw [takeEscape]
  split
  · obtain ⟨hcs, hdigits⟩ := takeHex_append 5 cs
    obtain ⟨w, hw, hspace⟩ := exists_dropSpace (takeHex 5 cs).2
    refine ⟨(takeHex 5 cs).1 ++ w, ?_, fun d hd => ?_⟩
    · change cs = _ ++ dropSpace (takeHex 5 cs).2
      rw [List.append_assoc, ← hw, ← hcs]
    · exact (List.mem_append.1 hd).imp (hdigits d) (hspace d)
  · exact ⟨[], rfl, by simp⟩

theorem startsEscape_iff : startsEscape cs = true ↔ ∃ c ds, cs = '\\' :: c :: ds ∧ c ≠ '\n' := by
  constructor
  · intro h
    unfold startsEscape at h
    split at h
    · exact ⟨_, _, rfl, bne_iff_ne.1 h⟩
    · cases h
  · rintro ⟨c, ds, rfl, hc⟩
    exact bne_iff_ne.2 hc

theorem exists_escape (h : Plain ('\\' :: d :: ds)) :
    ∃ w, '\\' :: d :: ds = w ++ (takeEscape (d :: ds)).2 ∧ Silent w := by
  obtain ⟨p, hp, hrun⟩ := Place.exists_step h
  obtain rfl : p = .escape := (Option.some.inj hp).symm
  obtain ⟨q, hq, -⟩ := Place.exists_step hrun
  obtain ⟨hmark, hblank, -⟩ := Place.step_escape hq
  obtain ⟨e, he, hdigits⟩ := exists_takeEscape d ds
  have hsilent : Silent e := silent_of_quiet fun x hx => (hdigits x hx).elim quiet_of_isDigitOf quiet_of_isAsciiSpace
  refine ⟨['\\', d] ++ e, ?_, (silent_escape hmark hblank).append hsilent⟩
  rw [List.append_assoc, ← he]
  rfl

/-- **The splitter does not care about a name.** -/
theorem exists_takeName (h : Plain cs) : ∃ w, cs = w ++ (takeName cs).2 ∧ Silent w := by
  fun_induction takeName cs with
  | case1 => exact ⟨[], rfl, .nil⟩
  | case2 c cs hc name rest hname ih =>
    have hquiet := h.quiet_of_isNamePart hc
    obtain ⟨w, hw, hsilent⟩ := ih (h.right (w := [c]) hquiet.silent.plain)
    rw [hname] at hw
    exact ⟨c :: w, congrArg (c :: ·) hw, hquiet.silent.append hsilent⟩
  | case3 c cs hpart hescape name rest hname ih =>
    obtain ⟨d, ds, hcs, -⟩ := startsEscape_iff.1 hescape
    obtain ⟨rfl, rfl⟩ := List.cons.inj hcs
    obtain ⟨e, he, hsilent⟩ := exists_escape h
    rw [he] at h
    obtain ⟨w, hw, hrest⟩ := ih (h.right hsilent.plain)
    rw [hname] at hw
    refine ⟨e ++ w, ?_, hsilent.append hrest⟩
    rw [List.append_assoc, ← hw]
    exact he
  | case4 => exact ⟨[], rfl, .nil⟩

theorem quiet_takeWhile_isDigit (cs : List Char) : ∀ c ∈ cs.takeWhile Char.isDigit, Quiet c := fun _ hc =>
  quiet_of_isDigit (List.mem_takeWhile_imp hc)

theorem exists_takeSign (cs : List Char) : ∃ w, cs = w ++ (takeSign cs).2 ∧ ∀ c ∈ w, Quiet c := by
  unfold takeSign
  split
  · exact ⟨['-'], rfl, by simpa using ⟨by decide, by decide, by decide, by decide⟩⟩
  · exact ⟨['+'], rfl, by simpa using ⟨by decide, by decide, by decide, by decide⟩⟩
  · exact ⟨[], rfl, by simp⟩

theorem exists_takeDigits {digits rest : List Char} (h : takeDigits cs = some (digits, rest)) :
    ∃ w, cs = w ++ rest ∧ ∀ c ∈ w, Quiet c := by
  unfold takeDigits at h
  split at h
  · split at h
    · obtain ⟨-, rfl⟩ := Prod.mk.inj (Option.some.inj h)
      exact ⟨_, List.takeWhile_append_dropWhile.symm, quiet_takeWhile_isDigit _⟩
    · cases h
  · cases h

theorem exists_afterFraction (cs : List Char) : ∃ w, cs = w ++ afterFraction cs ∧ ∀ c ∈ w, Quiet c := by
  unfold afterFraction
  cases h : takeFraction cs with
  | none => exact ⟨[], rfl, by simp⟩
  | some r =>
    unfold takeFraction at h
    split at h
    · obtain ⟨w, hw, hquiet⟩ := exists_takeDigits h
      exact ⟨'.' :: w, congrArg ('.' :: ·) hw,
        List.forall_mem_cons.2 ⟨⟨by decide, by decide, by decide, by decide⟩, hquiet⟩⟩
    · cases h

theorem takeExponent_cons (c : Char) (cs : List Char) :
    takeExponent (c :: cs) =
      if c == 'e' || c == 'E' then
        (takeDigits (takeSign cs).2).map fun r =>
          (if (takeSign cs).1 then -(digitsValue 10 r.1 : Int) else digitsValue 10 r.1, r.2)
      else none := rfl

/-- What is left after an exponent, or all if there is none. -/
def afterExponent (cs : List Char) : List Char := ((takeExponent cs).getD (0, cs)).2

theorem exists_afterExponent (cs : List Char) : ∃ w, cs = w ++ afterExponent cs ∧ ∀ c ∈ w, Quiet c := by
  unfold afterExponent
  cases cs with
  | nil => exact ⟨[], rfl, by simp⟩
  | cons c cs =>
    rw [takeExponent_cons]
    split
    · rename_i he
      have hquiet : Quiet c := by
        rw [Bool.or_eq_true, beq_iff_eq, beq_iff_eq] at he
        rcases he with rfl | rfl <;> exact ⟨by decide, by decide, by decide, by decide⟩
      cases hdigits : takeDigits (takeSign cs).2 with
      | none => exact ⟨[], rfl, by simp⟩
      | some r =>
        obtain ⟨v, hv, hsign⟩ := exists_takeSign cs
        obtain ⟨w, hw, hplaces⟩ := exists_takeDigits hdigits
        refine ⟨c :: (v ++ w), ?_, List.forall_mem_cons.2 ⟨hquiet, fun d hd => ?_⟩⟩
        · change c :: cs = c :: (v ++ w) ++ r.2
          rw [List.cons_append, List.append_assoc, ← hw, ← hv]
        · exact (List.mem_append.1 hd).elim (hsign d) (hplaces d)
    · exact ⟨[], rfl, by simp⟩

theorem snd_takeNumber (cs : List Char) :
    (takeNumber cs).2 = afterExponent (afterFraction ((takeSign cs).2.dropWhile Char.isDigit)) := rfl

/-- **The splitter does not care about a number.** -/
theorem exists_takeNumber (cs : List Char) : ∃ w, cs = w ++ (takeNumber cs).2 ∧ ∀ c ∈ w, Quiet c := by
  rw [snd_takeNumber]
  obtain ⟨u, hu, hsign⟩ := exists_takeSign cs
  obtain ⟨v, hv, hfraction⟩ := exists_afterFraction ((takeSign cs).2.dropWhile Char.isDigit)
  obtain ⟨w, hw, hexponent⟩ := exists_afterExponent (afterFraction ((takeSign cs).2.dropWhile Char.isDigit))
  refine ⟨u ++ ((takeSign cs).2.takeWhile Char.isDigit ++ (v ++ w)), ?_, fun c hc => ?_⟩
  · rw [List.append_assoc, List.append_assoc, List.append_assoc, ← hw, ← hv, List.takeWhile_append_dropWhile, ← hu]
  · simp only [List.mem_append] at hc
    rcases hc with hc | hc | hc | hc
    · exact hsign c hc
    · exact quiet_takeWhile_isDigit _ c hc
    · exact hfraction c hc
    · exact hexponent c hc

/-- The splitter is in a string. -/
def Nesting.quoted (parens brackets : Nat) (quote : Char) : Nesting := ⟨parens, brackets, some quote, false⟩

theorem separates_quoted (parens brackets : Nat) (quote c : Char) :
    (Nesting.quoted parens brackets quote).separates c = false := by
  simp [Nesting.separates, Nesting.quoted]

/-- The splitter stays in a string at a character that neither ends it nor escapes one. -/
theorem passes_quoted (hbackslash : c ≠ '\\') (hquote : c ≠ quote) (parens brackets : Nat) :
    Passes (.quoted parens brackets quote) [c] (.quoted parens brackets quote) := by
  refine .char (separates_quoted _ _ _ _) ?_
  simp [Nesting.step, Nesting.quoted, hbackslash, hquote]

/-- The splitter passes an escape in a string. -/
theorem passes_quoted_escape (c quote : Char) (parens brackets : Nat) :
    Passes (.quoted parens brackets quote) ['\\', c] (.quoted parens brackets quote) := by
  refine .cons (separates_quoted _ _ _ _) (.char ?_ ?_)
  · simp [Nesting.separates, Nesting.step, Nesting.quoted]
  · simp [Nesting.step, Nesting.quoted]

/-- The splitter leaves a string at its quote. -/
theorem passes_quoted_quote (hquote : quote ≠ '\\') (parens brackets : Nat) :
    Passes (.quoted parens brackets quote) [quote] (.level parens brackets) := by
  refine .char (separates_quoted _ _ _ _) ?_
  simp [Nesting.step, Nesting.quoted, Nesting.level, hquote]

/-- A string of a plain text, up to its closing quote. -/
structure Quoted (quote : Char) (w : List Char) : Prop where
  run : (Place.inside quote).run w = some .bare
  passes : ∀ parens brackets, Passes (.quoted parens brackets quote) w (.level parens brackets)

theorem Quoted.append {quote : Char} {v : List Char} (hv : (Place.inside quote).run v = some (.inside quote))
    (hpasses : ∀ parens brackets, Passes (.quoted parens brackets quote) v (.quoted parens brackets quote))
    (h : Quoted quote w) : Quoted quote (v ++ w) where
  run := by
    rw [Place.run_append, hv]
    exact h.run
  passes parens brackets := (hpasses parens brackets).append (h.passes parens brackets)

/-- Digits and white space do not end a string. -/
theorem quoted_of_digits {e : List Char} (hquote : quote = '"' ∨ quote = '\'')
    (he : ∀ d ∈ e, isDigitOf 16 d = true ∨ isAsciiSpace d = true)
    (h : (Place.inside quote).run (e ++ cs) = some .bare) :
    (Place.inside quote).run e = some (.inside quote) ∧
      ∀ parens brackets, Passes (.quoted parens brackets quote) e (.quoted parens brackets quote) := by
  induction e with
  | nil => exact ⟨rfl, fun _ _ => .nil _⟩
  | cons d e ih =>
    have hquiet : Quiet d := (he d List.mem_cons_self).elim quiet_of_isDigitOf quiet_of_isAsciiSpace
    have hne : d ≠ quote := by
      rcases hquote with rfl | rfl
      · exact ne_of_isMark hquiet.mark rfl
      · exact ne_of_isMark hquiet.mark rfl
    obtain ⟨p, hp, hrun⟩ := Place.exists_step h
    obtain rfl : p = .inside quote := by
      rw [Place.step, if_neg hquiet.backslash, if_neg hne] at hp
      split at hp
      · cases hp
      · exact (Option.some.inj hp).symm
    obtain ⟨hrun', hpasses⟩ := ih (fun x hx => he x (List.mem_cons_of_mem _ hx)) hrun
    refine ⟨?_, fun parens brackets => (passes_quoted hquiet.backslash hne parens brackets).append (hpasses _ _)⟩
    rw [Place.run_cons, hp]
    exact hrun'

/-- **The lexer and the splitter see the same string.** -/
theorem exists_takeString (hquote : quote = '"' ∨ quote = '\'') (h : (Place.inside quote).run cs = some .bare) :
    ∃ text w, (takeString quote cs).1 = some text ∧ cs = w ++ (takeString quote cs).2 ∧ Quoted quote w := by
  have hne : quote ≠ '\\' := by rcases hquote with rfl | rfl <;> decide
  fun_induction takeString quote cs with
  | case1 => cases h
  | case2 cs =>
    refine ⟨[], [quote], rfl, rfl, ?_, passes_quoted_quote hne⟩
    rw [Place.run_cons, Place.step, if_neg hne, if_pos rfl]
    rfl
  | case3 cs hc =>
    obtain ⟨p, hp, -⟩ := Place.exists_step h
    rw [Place.step, if_neg (by decide), if_neg hc, if_pos rfl] at hp
    cases hp
  | case4 => cases h
  | case5 rest hc hnewline ih =>
    obtain ⟨text, w, htext, hw, hquoted⟩ := ih h
    exact ⟨text, ['\\', '\n'] ++ w, htext, congrArg ('\\' :: '\n' :: ·) hw,
      .append rfl (passes_quoted_escape '\n' quote) hquoted⟩
  | case6 d ds hd text rest htake hc _ ih =>
    obtain ⟨e, he, hdigits⟩ := exists_takeEscape d ds
    have hrun : (Place.inside quote).run (e ++ (takeEscape (d :: ds)).2) = some .bare := by
      rw [← he]
      exact h
    obtain ⟨hinside, hpasses⟩ := quoted_of_digits hquote hdigits hrun
    rw [Place.run_append, hinside] at hrun
    obtain ⟨text', w, htext, hw, hquoted⟩ := ih hrun
    rw [htake] at htext hw
    refine ⟨(takeEscape (d :: ds)).1 :: text', ['\\', d] ++ (e ++ w), ?_, ?_,
      .append rfl (passes_quoted_escape d quote) (.append hinside hpasses hquoted)⟩
    · exact congrArg (Option.map _) htext
    · change '\\' :: d :: ds = '\\' :: d :: (e ++ w) ++ rest
      rw [List.cons_append, List.cons_append, List.append_assoc, ← hw, ← he]
  | case7 c cs hc hnewline hbackslash text rest htake ih =>
    obtain ⟨p, hp, hrun⟩ := Place.exists_step h
    rw [Place.step, if_neg hbackslash, if_neg hc, if_neg hnewline] at hp
    obtain rfl := Option.some.inj hp
    obtain ⟨text', w, htext, hw, hquoted⟩ := ih hrun
    rw [htake] at htext hw
    refine ⟨c :: text', [c] ++ w, ?_, congrArg (c :: ·) hw, .append ?_ (passes_quoted hbackslash hc) hquoted⟩
    · exact congrArg (Option.map _) htext
    · rw [Place.run_cons, Place.step, if_neg hbackslash, if_neg hc, if_neg hnewline]
      rfl

/-! ## Tokens -/

/-- What is open after a token. -/
def Token.after (t : Token) (parens brackets : Nat) : Nesting :=
  match t with
  | .function _ | .openParen => .level (parens + 1) brackets
  | .closeParen => .level (parens - 1) brackets
  | .openBracket => .level parens (brackets + 1)
  | .closeBracket => .level parens (brackets - 1)
  | _ => .level parens brackets

/-- A token that opens and closes nothing. -/
structure Token.Still (t : Token) : Prop where
  not_comma : t ≠ .comma
  not_end : t ≠ .endOfInput
  after : ∀ parens brackets, t.after parens brackets = .level parens brackets

/-- The piece of a plain text that a token was read from. -/
structure Reads (t : Token) (w : List Char) : Prop where
  ne_nil : w ≠ []
  not_end : t ≠ .endOfInput
  plain : Plain w
  comma : t = .comma → w = [',']
  passes : t ≠ .comma → ∀ parens brackets, Passes (.level parens brackets) w (t.after parens brackets)

theorem reads_of_silent {t : Token} (ht : t.Still) (hw : Silent w) (hne : w ≠ []) : Reads t w where
  ne_nil := hne
  not_end := ht.not_end
  plain := hw.plain
  comma h := absurd h ht.not_comma
  passes _ parens brackets := by
    rw [ht.after]
    exact hw.passes parens brackets

/-- The token of one character that is no quote. -/
theorem reads_mark {t : Token} (ht : t ≠ .comma) (hend : t ≠ .endOfInput) (hplain : Plain [c])
    (h : ∀ parens brackets, (Nesting.level parens brackets).separates c = false ∧
      (Nesting.level parens brackets).step c = t.after parens brackets) : Reads t [c] where
  ne_nil := List.cons_ne_nil _ _
  not_end := hend
  plain := hplain
  comma h' := absurd h' ht
  passes _ parens brackets := .char (h parens brackets).1 (h parens brackets).2

theorem exists_takeNamed (h : Plain cs) (hne : (takeName cs).2 ≠ cs) :
    ∃ w, cs = w ++ (takeNamed cs).2 ∧ Reads (takeNamed cs).1 w := by
  obtain ⟨w, hw, hsilent⟩ := exists_takeName h
  have hne' : w ≠ [] := by
    rintro rfl
    exact hne hw.symm
  rw [takeNamed]
  generalize takeName cs = r at hw
  obtain ⟨name, rest⟩ := r
  dsimp only
  split
  · rename_i rest
    refine ⟨w ++ ['('], by rw [hw, List.append_assoc]; rfl, by simp, nofun,
      hsilent.plain.append rfl, nofun, fun _ p b => ?_⟩
    exact (hsilent.passes p b).append (.char rfl rfl)
  · exact ⟨w, hw, reads_of_silent ⟨nofun, nofun, fun _ _ => rfl⟩ hsilent hne'⟩

theorem exists_takeNumeric (h : Plain cs) (hne : (takeNumber cs).2 ≠ cs) :
    ∃ w, cs = w ++ (takeNumeric cs).2 ∧ Reads (takeNumeric cs).1 w := by
  obtain ⟨w, hw, hquiet⟩ := exists_takeNumber cs
  have hne' : w ≠ [] := by
    rintro rfl
    exact hne hw.symm
  have hsilent := silent_of_quiet hquiet
  rw [hw] at h
  have hrest := h.right hsilent.plain
  rw [takeNumeric]
  generalize takeNumber cs = r at hw hrest
  obtain ⟨n, rest⟩ := r
  dsimp only at hw hrest ⊢
  split
  · obtain ⟨v, hv, hunit⟩ := exists_takeName hrest
    refine ⟨w ++ v, by rw [List.append_assoc, ← hv, hw], ?_⟩
    exact reads_of_silent ⟨nofun, nofun, fun _ _ => rfl⟩ (hsilent.append hunit) (by simp [hne'])
  · split
    · rename_i rest _
      refine ⟨w ++ ['%'], by rw [List.append_assoc, hw]; rfl, ?_⟩
      refine reads_of_silent ⟨nofun, nofun, fun _ _ => rfl⟩ (hsilent.append (Quiet.silent ?_)) (by simp)
      exact ⟨by decide, by decide, by decide, by decide⟩
    · exact ⟨w, hw, reads_of_silent ⟨nofun, nofun, fun _ _ => rfl⟩ hsilent hne'⟩

/-- A sign and what may be a name behind it. -/
theorem exists_takeName_sign {t : Token} (ht : t.Still) (hc : Quiet c) (h : Plain (c :: cs)) :
    ∃ w, c :: cs = w ++ (takeName cs).2 ∧ Reads t w := by
  obtain ⟨w, hw, hsilent⟩ := exists_takeName (h.right (w := [c]) hc.silent.plain)
  exact ⟨c :: w, congrArg (c :: ·) hw, reads_of_silent ht (hc.silent.append hsilent) (List.cons_ne_nil _ _)⟩

/-- In a plain text every backslash outside of strings begins an escape. -/
theorem startsName_backslash (h : Plain ('\\' :: cs)) : startsName ('\\' :: cs) = true := by
  obtain ⟨p, hp, hrun⟩ := Place.exists_step h
  obtain rfl : p = .escape := (Option.some.inj hp).symm
  cases cs with
  | nil => cases hrun
  | cons d ds =>
    obtain ⟨q, hq, -⟩ := Place.exists_step hrun
    obtain ⟨-, hblank, -⟩ := Place.step_escape hq
    refine startsEscape_iff.2 ⟨d, ds, rfl, ?_⟩
    rintro rfl
    exact absurd hblank (by decide)

/-- **A token of a plain text is read from a piece of it that the splitter passes**, unless it is a comma. -/
theorem reads_next (h : Plain (c :: cs)) : ∃ w, c :: cs = w ++ (next c cs).2 ∧ Reads (next c cs).1 w := by
  unfold next
  split
  · rename_i hspace
    have hquiet : ∀ d ∈ c :: cs.takeWhile isAsciiSpace, Quiet d :=
      List.forall_mem_cons.2 ⟨quiet_of_isAsciiSpace hspace,
        fun d hd => quiet_of_isAsciiSpace (List.mem_takeWhile_imp hd)⟩
    exact ⟨_, congrArg (c :: ·) List.takeWhile_append_dropWhile.symm,
      reads_of_silent ⟨nofun, nofun, fun _ _ => rfl⟩ (silent_of_quiet hquiet) (List.cons_ne_nil _ _)⟩
  split
  · rename_i hquote
    rw [Bool.or_eq_true, beq_iff_eq, beq_iff_eq] at hquote
    obtain ⟨p, hp, hrun⟩ := Place.exists_step h
    have hinside : Place.bare.step c = some (.inside c) := by
      rw [Place.step, if_neg (by rcases hquote with rfl | rfl <;> decide), if_pos hquote]
    rw [hinside] at hp
    obtain rfl := Option.some.inj hp
    obtain ⟨text, w, htext, hw, hquoted⟩ := exists_takeString hquote hrun
    generalize takeString c cs = r at htext hw
    obtain ⟨_, rest⟩ := r
    obtain rfl := htext
    refine ⟨c :: w, congrArg (c :: ·) hw, List.cons_ne_nil _ _, nofun, ?_, nofun, fun _ parens brackets => ?_⟩
    · rw [Plain, Place.run_cons, hinside]
      exact hquoted.run
    · refine (Passes.char ?_ ?_).append (hquoted.passes parens brackets)
      · rcases hquote with rfl | rfl <;> rfl
      · rcases hquote with rfl | rfl <;> rfl
  split
  · rename_i hhash
    rw [beq_iff_eq] at hhash
    subst hhash
    have hquiet : Quiet '#' := ⟨by decide, by decide, by decide, by decide⟩
    split
    · exact exists_takeName_sign ⟨nofun, nofun, fun _ _ => rfl⟩ hquiet h
    · exact ⟨['#'], rfl, reads_of_silent ⟨nofun, nofun, fun _ _ => rfl⟩ hquiet.silent (List.cons_ne_nil _ _)⟩
  split
  · rename_i hat
    rw [beq_iff_eq] at hat
    subst hat
    have hquiet : Quiet '@' := ⟨by decide, by decide, by decide, by decide⟩
    split
    · exact exists_takeName_sign ⟨nofun, nofun, fun _ _ => rfl⟩ hquiet h
    · exact ⟨['@'], rfl, reads_of_silent ⟨nofun, nofun, fun _ _ => rfl⟩ hquiet.silent (List.cons_ne_nil _ _)⟩
  split
  · rename_i hnumber
    exact exists_takeNumeric h fun heq => absurd (congrArg List.length heq) (Nat.ne_of_lt (takeNumber_lt hnumber))
  split
  · rename_i hname
    exact exists_takeNamed h fun heq => absurd (congrArg List.length heq) (Nat.ne_of_lt (takeName_lt hname))
  rename_i hspace hquote hhash hat hnumber hname
  refine ⟨[c], rfl, ?_⟩
  dsimp only
  split
  · exact reads_mark nofun nofun rfl fun _ _ => ⟨rfl, rfl⟩
  · exact reads_mark nofun nofun rfl fun _ _ => ⟨rfl, rfl⟩
  · exact reads_mark nofun nofun rfl fun _ _ => ⟨rfl, rfl⟩
  · exact reads_mark nofun nofun rfl fun _ _ => ⟨rfl, rfl⟩
  · exact reads_mark nofun nofun rfl fun _ _ => ⟨rfl, rfl⟩
  · exact reads_mark nofun nofun rfl fun _ _ => ⟨rfl, rfl⟩
  · exact ⟨List.cons_ne_nil _ _, nofun, rfl, fun _ => rfl, fun h => absurd rfl h⟩
  · exact reads_mark nofun nofun rfl fun _ _ => ⟨rfl, rfl⟩
  · exact reads_mark nofun nofun rfl fun _ _ => ⟨rfl, rfl⟩
  · rename_i hopen hclose hopen' hclose' _ _ hcomma _ _
    refine reads_of_silent ⟨nofun, nofun, fun _ _ => rfl⟩ (h.quiet ?_ ?_).silent (List.cons_ne_nil _ _)
    · by_contra hmark
      simp only [isMark, List.contains_eq_mem, List.mem_cons, List.not_mem_nil, or_false, decide_eq_true_eq,
        Bool.not_eq_false] at hmark
      rw [Bool.or_eq_true, beq_iff_eq, beq_iff_eq] at hquote
      tauto
    · rintro rfl
      exact hname (startsName_backslash h)

end LiveMarkup.Css
