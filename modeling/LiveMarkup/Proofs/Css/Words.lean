/-
The words of a text.

Media queries are read from the tokens of a text without the white space. These words are told piece by piece: those of a
firm text stay when an ending follows it (`words_append`), and so does a name without escapes (`words_name`).
-/
import LiveMarkup.Proofs.Css.Pieces

set_option autoImplicit false

namespace LiveMarkup.Css

open Text

variable {c : Char} {cs w x : List Char} {ps : List Piece} {t : Token}

/-- The tokens of a text, without white space. -/
def words (cs : List Char) : List Token := ((lexFrom 0 cs).map (·.token)).filter (· != .space)

theorem bne_space (h : t ≠ .space) : (t != .space) = true := by
  cases t
  case space => exact absurd rfl h
  all_goals rfl

theorem words_of_paves (h : Paves cs ps) : words cs = (tokensOf ps).filter (· != .space) ++ [.endOfInput] := by
  rw [words, lexFrom_of_paves h, List.map_append, map_token_lay, List.filter_append]
  rfl

theorem words_next (hcomment : ¬ StartsComment (c :: cs)) :
    words (c :: cs) = [(next c cs).1].filter (· != .space) ++ words (next c cs).2 := by
  obtain ⟨ps, hps⟩ := exists_paves (next c cs).2
  obtain ⟨w, hw⟩ := next_suffix c cs
  rw [words_of_paves hps, words_of_paves (.tile hcomment (w := c :: w) (congrArg (c :: ·) hw.symm) hps),
    ← List.append_assoc, ← List.filter_append]
  rfl

theorem words_of_next (hc : c ≠ '/') (hnext : next c cs = (t, x)) (ht : (t != .space) = true) :
    words (c :: cs) = t :: words x := by
  have hfilter : [t].filter (· != .space) = [t] := List.filter_cons_of_pos ht
  rw [words_next (not_startsComment hc cs), hnext, hfilter]
  rfl

theorem ne_slash_of_space (h : isAsciiSpace c = true) : c ≠ '/' := by
  rintro rfl
  cases h

/-- White space before a text adds no word. -/
theorem words_dropWhile (cs : List Char) : words (cs.dropWhile isAsciiSpace) = words cs := by
  cases cs with
  | nil => rfl
  | cons c cs =>
    by_cases hc : isAsciiSpace c = true
    · rw [List.dropWhile_cons_of_pos hc, words_next (not_startsComment (ne_slash_of_space hc) cs), next_of_space hc]
      rfl
    · rw [List.dropWhile_cons_of_neg hc]

theorem words_space_append (hw : ∀ c ∈ w, isAsciiSpace c = true) (x : List Char) : words (w ++ x) = words x := by
  rw [← words_dropWhile, List.dropWhile_append_of_pos hw, words_dropWhile]

theorem words_space (x : List Char) : words (' ' :: x) = words x :=
  words_space_append (w := [' ']) (List.forall_mem_singleton.2 (by decide)) x

/-- **The words of a firm text stay when an ending follows.** -/
theorem words_append (h : Paves cs ps) (hfirm : Firm ps) (hx : Ending x) (hstar : x.head? ≠ some '*') :
    words (cs ++ x) = (tokensOf ps).filter (· != .space) ++ words x := by
  obtain ⟨qs, w, x', hkin, rfl, hspaces, hall⟩ := h.append hfirm hx hstar
  obtain ⟨rs, hrs⟩ := exists_paves x'
  rw [words_of_paves (hall rs hrs), words_space_append hspaces, words_of_paves hrs, hkin.tokensOf_eq,
    ← List.append_assoc, ← List.filter_append, tokensOf, tokensOf, tokensOf, List.filterMap_append]

theorem takeName_of_forall (hw : ∀ c ∈ w, isNamePart c = true) (hx : ∀ c, x.head? = some c → isEnder c = true) :
    takeName (w ++ x) = (w, x) := by
  induction w with
  | nil =>
    cases x with
    | nil => rw [List.nil_append, takeName]
    | cons c x =>
      have hc := hx c rfl
      rw [List.nil_append, takeName, if_neg (by rw [not_isNamePart_of_isEnder hc]; exact Bool.false_ne_true), if_neg]
      intro hescape
      obtain ⟨d, ds, hcs, -⟩ := startsEscape_iff.1 hescape
      exact ne_of_isEnder hc rfl (List.cons.inj hcs).1
  | cons c w ih =>
    rw [List.cons_append, takeName, if_pos (hw c List.mem_cons_self), ih fun d hd => hw d (List.mem_cons_of_mem _ hd)]

/-- Whether a text is a name that starts with a lower case letter and has no escapes. -/
def isPlainName : List Char → Bool
  | [] => false
  | c :: ds => c.isLower && ds.all isNamePart

theorem ne_of_isLower {d : Char} (hc : c.isLower = true) (hd : d.isLower = false) : c ≠ d := by
  rintro rfl
  rw [hc] at hd
  cases hd

theorem isNameStart_of_isLower (h : c.isLower = true) : isNameStart c = true := by
  rw [isNameStart, Char.isAlpha, h, Bool.or_true]
  rfl

theorem isAsciiSpace_of_isLower (h : c.isLower = true) : isAsciiSpace c = false := by
  simp only [isAsciiSpace, Bool.or_eq_false_iff, beq_eq_false_iff_ne]
  exact ⟨⟨⟨⟨ne_of_isLower h rfl, ne_of_isLower h rfl⟩, ne_of_isLower h rfl⟩, ne_of_isLower h rfl⟩, ne_of_isLower h rfl⟩

theorem startsNumber_of_isLower (h : c.isLower = true) (cs : List Char) : startsNumber (c :: cs) = false := by
  rw [startsNumber_of_ne (ne_of_isLower h rfl) (ne_of_isLower h rfl), startsUnsigned_of_ne (ne_of_isLower h rfl),
    Bool.eq_false_iff]
  intro hdigit
  have halpha := (isAlpha_iff c).1 (by rw [Char.isAlpha, h, Bool.or_true])
  have hle : c.toNat ≤ 57 := (Char.isDigit_iff_toNat.1 hdigit).2
  omega

/-- **A name is one word.** -/
theorem words_name (hw : isPlainName w = true) (hx : ∀ c, x.head? = some c → isEnder c = true) :
    words (w ++ x) = .ident (String.ofList w) :: words x := by
  obtain ⟨c, ds, rfl⟩ : ∃ c ds, w = c :: ds := List.exists_cons_of_ne_nil (by rintro rfl; cases hw)
  obtain ⟨hc, hds⟩ := Bool.and_eq_true_iff.1 hw
  rw [List.all_eq_true] at hds
  have hpart : isNamePart c = true := by rw [isNamePart, isNameStart_of_isLower hc]; rfl
  have htake : takeName (c :: ds ++ x) = (c :: ds, x) := takeName_of_forall (List.forall_mem_cons.2 ⟨hpart, hds⟩) hx
  have hnext : next c (ds ++ x) = (.ident (String.ofList (c :: ds)), x) := by
    unfold next
    rw [if_neg (by rw [isAsciiSpace_of_isLower hc]; exact Bool.false_ne_true),
      if_neg (by simp [ne_of_isLower hc (d := '"') rfl, ne_of_isLower hc (d := '\'') rfl]),
      if_neg (by simp [ne_of_isLower hc (d := '#') rfl]), if_neg (by simp [ne_of_isLower hc (d := '@') rfl]),
      if_neg (by rw [startsNumber_of_isLower hc]; exact Bool.false_ne_true), if_pos ?_, takeNamed,
      ← List.cons_append, htake]
    · dsimp only
      split
      · exact absurd rfl (ne_of_isEnder (hx _ rfl) rfl)
      · rfl
    · rw [startsName_of_ne (ne_of_isLower hc rfl), isNameStart_of_isLower hc]
      rfl
  exact words_of_next (ne_of_isLower hc rfl) hnext rfl

end LiveMarkup.Css
