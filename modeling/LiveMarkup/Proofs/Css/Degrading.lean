/-
Selectors with a pseudo-element at the end. They are not read; the search for pseudo-elements takes the last one away,
and what is left is trimmed and read in its stead. The search reads the text on its own: it knows strings, but neither
comments nor escapes outside strings. So it is compared piece by piece with what the lexer reads.

`Piece.isClear` tells the pieces that the search keeps. Strings are among them, since both readers find the same end of
a string (`dropPseudos_string`), and so are colons of the selector's own: behind them stand names of pseudo-classes that
are read, and no pseudo-element has such a name (`pseudoElements_unread`). What is left out are colons that are escaped
or in a comment, where they stand before the name of a pseudo-element, and quotes there that the search takes for the
start of a string. The last theorem is about a colon of this kind.
-/
import LiveMarkup.Css.Degrade
import LiveMarkup.Proofs.Css.Trimming

set_option autoImplicit false

namespace LiveMarkup.Css

open Text Selector

variable {c quote : Char} {cs w x rest : List Char} {ps qs : List Piece} {name : String}

/-! ## The search -/

/-- What the search gives behind some characters that it keeps. -/
def keep (w : List Char) (r : List Char × Bool) : List Char × Bool := (w ++ r.1, r.2)

theorem keep_keep (v w : List Char) (r : List Char × Bool) : keep v (keep w r) = keep (v ++ w) r := by
  rw [keep, keep, keep, List.append_assoc]

theorem dropPseudos_keep (hquote : c ≠ '"' ∧ c ≠ '\'') (hcolon : c = ':' → pseudoElementLength? cs = none) :
    dropPseudos 0 none (c :: cs) = keep [c] (dropPseudos 0 none cs) := by
  have hnone : (if c = ':' then pseudoElementLength? cs else none) = none := by
    split
    · exact hcolon ‹_›
    · rfl
  rw [dropPseudos, hnone]
  dsimp only
  rw [if_neg (not_or.2 hquote)]
  rfl

theorem dropPseudos_quote (hquote : c = '"' ∨ c = '\'') (cs : List Char) :
    dropPseudos 0 none (c :: cs) = keep [c] (dropPseudos 0 (some c) cs) := by
  have hcolon : c ≠ ':' := by rcases hquote with rfl | rfl <;> decide
  rw [dropPseudos, if_neg hcolon]
  dsimp only
  rw [if_pos hquote]
  rfl

theorem dropPseudos_escape (quote c : Char) (cs : List Char) :
    dropPseudos 0 (some quote) ('\\' :: c :: cs) = keep ['\\', c] (dropPseudos 0 (some quote) cs) := rfl

theorem dropPseudos_inside (hc : c ≠ '\\') (quote : Char) (cs : List Char) :
    dropPseudos 0 (some quote) (c :: cs) = keep [c] (dropPseudos 0 (if c = quote then none else some quote) cs) := by
  rw [dropPseudos]
  · rfl
  · rintro d ds rfl
    exact absurd rfl hc

theorem dropPseudos_inside_append (hw : ∀ c ∈ w, c ≠ '\\' ∧ c ≠ quote) (cs : List Char) :
    dropPseudos 0 (some quote) (w ++ cs) = keep w (dropPseudos 0 (some quote) cs) := by
  induction w with
  | nil => rfl
  | cons c w ih =>
    obtain ⟨hbackslash, hquote⟩ := hw c List.mem_cons_self
    rw [List.cons_append, dropPseudos_inside hbackslash, if_neg hquote, ih fun d hd => hw d (List.mem_cons_of_mem _ hd),
      keep_keep]
    rfl

/-- **The search and the lexer agree on strings** that end before the text does. -/
theorem dropPseudos_string (hquote : quote = '"' ∨ quote = '\'') (hne : (takeString quote cs).2 ≠ [])
    (hsome : (takeString quote cs).1.isSome = true) :
    ∃ w, cs = w ++ (takeString quote cs).2 ∧
      dropPseudos 0 (some quote) cs = keep w (dropPseudos 0 none (takeString quote cs).2) := by
  have hbackslash : '\\' ≠ quote := by rcases hquote with rfl | rfl <;> decide
  fun_induction takeString quote cs with
  | case1 => exact absurd rfl hne
  | case2 cs =>
    refine ⟨[quote], rfl, ?_⟩
    rw [dropPseudos_inside hbackslash.symm, if_pos rfl]
  | case3 => cases hsome
  | case4 => exact absurd rfl hne
  | case5 rest _ _ ih =>
    obtain ⟨w, hw, hdrop⟩ := ih hne hsome
    refine ⟨'\\' :: '\n' :: w, congrArg ('\\' :: '\n' :: ·) hw, ?_⟩
    rw [dropPseudos_escape, hdrop, keep_keep]
    rfl
  | case6 d ds _ text rest htake _ _ ih =>
    rw [htake] at ih
    obtain ⟨w, hw, hdrop⟩ := ih hne (by simpa using hsome)
    -- the search skips the character behind the backslash only
    obtain ⟨e, he, hdigits⟩ := exists_takeEscape d ds
    have hkept (c : Char) (hc : c ∈ e) : c ≠ '\\' ∧ c ≠ quote := by
      constructor
      · rintro rfl
        rcases hdigits _ hc with h | h <;> cases h
      · rintro rfl
        rcases hquote with rfl | rfl <;> rcases hdigits _ hc with h | h <;> cases h
    refine ⟨'\\' :: d :: (e ++ w), ?_, ?_⟩
    · rw [List.cons_append, List.cons_append, List.append_assoc, ← hw, ← he]
    · conv_lhs => rw [dropPseudos_escape, he, dropPseudos_inside_append hkept, hdrop, keep_keep, keep_keep]
      rfl
  | case7 c cs hc _ hslash text rest htake ih =>
    rw [htake] at ih
    obtain ⟨w, hw, hdrop⟩ := ih hne (by simpa using hsome)
    refine ⟨c :: w, congrArg (c :: ·) hw, ?_⟩
    rw [dropPseudos_inside hslash, if_neg hc, hdrop, keep_keep]
    rfl

/-! ## Names behind colons -/

/-- Whether the search takes a character for a part of a name. -/
def isLetter (c : Char) : Bool := c.isAlphanum || c == '-' || c == '_'

/-- The name that the search finds behind a colon. -/
def nameBehind (cs : List Char) : List Char :=
  (cs.drop (if cs.head? == some ':' then 1 else 0)).takeWhile isLetter

theorem pseudoElementLength?_eq_none :
    pseudoElementLength? cs = none ↔ pseudoElements.any (eqIgnoreCase (String.ofList (nameBehind cs))) = false := by
  unfold pseudoElementLength?
  dsimp only
  change (if pseudoElements.any (eqIgnoreCase (String.ofList (nameBehind cs))) = true then _ else _) = _ ↔ _
  split <;> simp_all

theorem map_toLower_of_eqIgnoreCase {s t : String} (h : eqIgnoreCase s t = true) :
    s.toList.map Char.toLower = t.toList.map Char.toLower := by
  have hequal := congrArg String.toList (eq_of_beq h)
  rwa [String.toLower, String.toLower, String.toList_map, String.toList_map] at hequal

/-- Where there is no name there is no pseudo-element. -/
theorem pseudoElementLength?_of_nil (h : nameBehind cs = []) : pseudoElementLength? cs = none := by
  rw [pseudoElementLength?_eq_none, h, List.any_eq_false]
  intro p hp heq
  have hnil := (map_toLower_of_eqIgnoreCase heq).symm
  rw [String.toList_ofList, List.map_nil, List.map_eq_nil_iff] at hnil
  have hne : (pseudoElements.all fun p => !p.toList.isEmpty) = true := rfl
  have hp := List.all_eq_true.1 hne p hp
  rw [hnil] at hp
  cases hp

theorem takeWhile_colon (w x : List Char) : (w ++ ':' :: x).takeWhile isLetter = w.takeWhile isLetter := by
  induction w with
  | nil => rfl
  | cons c w ih =>
    rw [List.cons_append, List.takeWhile_cons, List.takeWhile_cons, ih]

/-- Two colons end a name. -/
theorem nameBehind_append (cs x : List Char) : nameBehind (cs ++ ':' :: ':' :: x) = nameBehind cs := by
  cases cs with
  | nil => rfl
  | cons c cs =>
    unfold nameBehind
    rw [List.cons_append, List.head?_cons, List.head?_cons]
    split
    · exact takeWhile_colon cs (':' :: x)
    · exact takeWhile_colon (c :: cs) (':' :: x)

theorem pseudoElementLength?_append (h : pseudoElementLength? cs = none) (x : List Char) :
    pseudoElementLength? (cs ++ ':' :: ':' :: x) = none := by
  rw [pseudoElementLength?_eq_none] at h ⊢
  rw [nameBehind_append]
  exact h

/-- The names of pseudo-classes are made of small letters and dashes. -/
theorem pseudoNames_letters :
    (pseudoNames.all fun k => !k.toList.isEmpty && k.toList.all fun c => c.isLower || c == '-') = true := by
  rfl

/-- No pseudo-class that is read has the name of a pseudo-element. -/
theorem pseudoElements_unread :
    (pseudoElements.all fun p => pseudoNames.all fun k => p.toList.map Char.toLower != k.toList) = true := by
  rfl

theorem isLetter_of_toLower (h : c.toLower.isLower = true ∨ c.toLower = '-') : isLetter c = true := by
  have hcode := toNat_toLower c
  have hlower (d : Char) : d.isLower = true ↔ 97 ≤ d.toNat ∧ d.toNat ≤ 122 := by
    simp only [Char.isLower, Bool.and_eq_true, decide_eq_true_eq, ge_iff_le, UInt32.le_iff_toNat_le]
    rfl
  rw [isLetter, Bool.or_eq_true, Bool.or_eq_true, isAlphanum_iff, isAlpha_iff, beq_iff_eq, beq_iff_eq]
  rcases h with h | h
  · rw [hlower] at h
    refine .inl (.inl (.inl ?_))
    split at hcode <;> omega
  · have hdash : c.toLower.toNat = 45 := by rw [h]; rfl
    refine .inl (.inr (Char.toNat_inj.1 (?_ : c.toNat = 45)))
    split at hcode <;> omega

theorem isNamePart_of_isLetter (h : isLetter c = true) : isNamePart c = true := by
  simp only [isLetter, Char.isAlphanum, Bool.or_eq_true, beq_iff_eq] at h
  simp only [isNamePart, isNameStart, Bool.or_eq_true, beq_iff_eq]
  tauto

/-- The search and the lexer find the same name when the characters of the longer one are letters. -/
theorem takeWhile_isLetter (h : ∀ c ∈ cs.takeWhile isNamePart, isLetter c = true) :
    cs.takeWhile isLetter = cs.takeWhile isNamePart := by
  induction cs with
  | nil => rfl
  | cons c cs ih =>
    by_cases hc : isNamePart c = true
    · rw [List.takeWhile_cons_of_pos hc] at h ⊢
      rw [List.takeWhile_cons_of_pos (h c List.mem_cons_self), ih fun d hd => h d (List.mem_cons_of_mem _ hd)]
    · rw [List.takeWhile_cons_of_neg hc, List.takeWhile_cons_of_neg fun hletter => hc (isNamePart_of_isLetter hletter)]

/-- **The name of a pseudo-class that is read is not that of a pseudo-element.** -/
theorem pseudoElementLength?_of_name (h : (String.ofList (cs.takeWhile isNamePart)).toLower ∈ pseudoNames) :
    pseudoElementLength? cs = none := by
  have hlower : (String.ofList (cs.takeWhile isNamePart)).toLower.toList = (cs.takeWhile isNamePart).map Char.toLower := by
    rw [String.toLower, String.toList_map, String.toList_ofList]
  have hletters := List.all_eq_true.1 pseudoNames_letters _ h
  rw [hlower, Bool.and_eq_true, List.all_eq_true] at hletters
  obtain ⟨hne, hletters⟩ := hletters
  have hname : nameBehind cs = cs.takeWhile isNamePart := by
    cases cs with
    | nil => cases hne
    | cons c cs =>
      have hc : isNamePart c = true := by
        by_contra hc
        rw [List.takeWhile_cons_of_neg hc] at hne
        cases hne
      have hcolon : ((c :: cs).head? == some ':') = false := by
        refine beq_false_of_ne fun heq => ?_
        obtain rfl := Option.some.inj heq
        cases hc
      unfold nameBehind
      rw [hcolon]
      refine takeWhile_isLetter fun d hd => isLetter_of_toLower ?_
      simpa using hletters _ (List.mem_map_of_mem hd)
  rw [pseudoElementLength?_eq_none, hname, List.any_eq_false]
  intro p hp heq
  have hunread := List.all_eq_true.1 (List.all_eq_true.1 pseudoElements_unread p hp) _ h
  rw [hlower] at hunread
  refine absurd ?_ (bne_iff_ne.1 hunread)
  have hequal := map_toLower_of_eqIgnoreCase heq
  rw [String.toList_ofList] at hequal
  exact hequal.symm

theorem takeName_of_plain (h : (cs.dropWhile isNamePart).head? ≠ some '\\') :
    (takeName cs).1 = cs.takeWhile isNamePart := by
  induction cs with
  | nil =>
    rw [takeName]
    rfl
  | cons c cs ih =>
    by_cases hc : isNamePart c = true
    · rw [List.dropWhile_cons_of_pos hc] at h
      rw [takeName, if_pos hc, List.takeWhile_cons_of_pos hc]
      exact congrArg (c :: ·) (ih h)
    · rw [List.dropWhile_cons_of_neg hc] at h
      have hescape : startsEscape (c :: cs) ≠ true := fun hescape => by
        obtain ⟨d, ds, hcs, -⟩ := startsEscape_iff.1 hescape
        exact h (by rw [hcs]; rfl)
      rw [takeName, if_neg hc, if_neg hescape, List.takeWhile_cons_of_neg hc]

/-- An identifier or a function is read from its name. -/
theorem takeName_of_next (h : (next c cs).1 = .ident name ∨ (next c cs).1 = .function name) :
    String.ofList (takeName (c :: cs)).1 = name := by
  unfold next takeNumeric takeNamed at h
  dsimp only at h
  repeat' split at h
  all_goals simp_all

/-! ## Clear pieces -/

/-- Whether the search, outside strings or in one, keeps a part of a text and is outside strings behind it. No colon in it
stands before the name of a pseudo-element, but in what the search takes for a string. The text goes on with `rest`. -/
def isKept : Option Char → List Char → List Char → Bool
  | quote, [], _ => quote.isNone
  | some quote, '\\' :: _ :: w, rest => isKept (some quote) w rest
  | some quote, c :: w, rest => c != '\\' && isKept (if c = quote then none else some quote) w rest
  | none, c :: w, rest =>
    (c != ':' || (pseudoElementLength? (w ++ rest)).isNone) &&
      isKept (if c = '"' ∨ c = '\'' then some c else none) w rest

theorem dropPseudos_kept {quote : Option Char} (h : isKept quote w rest = true) (x : List Char) :
    dropPseudos 0 quote (w ++ (rest ++ ':' :: ':' :: x)) = keep w (dropPseudos 0 none (rest ++ ':' :: ':' :: x)) := by
  fun_induction isKept quote w rest with
  | case1 quote =>
    rw [Option.isNone_iff_eq_none.1 h]
    rfl
  | case2 quote c w _ ih =>
    rw [List.cons_append, List.cons_append, dropPseudos_escape, ih h, keep_keep]
    rfl
  | case3 quote c w _ _ ih =>
    rw [Bool.and_eq_true, bne_iff_ne] at h
    rw [List.cons_append, dropPseudos_inside h.1, ih h.2, keep_keep]
    rfl
  | case4 c w _ ih =>
    rw [Bool.and_eq_true, Bool.or_eq_true, bne_iff_ne, Option.isNone_iff_eq_none] at h
    obtain ⟨hcolon, hw⟩ := h
    by_cases hquote : c = '"' ∨ c = '\''
    · rw [if_pos hquote] at hw ih
      rw [List.cons_append, dropPseudos_quote hquote, ih hw, keep_keep]
      rfl
    · rw [if_neg hquote] at hw ih
      rw [List.cons_append, dropPseudos_keep (not_or.1 hquote), ih hw, keep_keep]
      · rfl
      · intro hc
        rw [← List.append_assoc]
        exact pseudoElementLength?_append (hcolon.resolve_left fun hne => hne hc) x

/-- Whether a comment is closed, by its last characters. -/
def isClosed (w : List Char) : Bool := ['/', '*'].isPrefixOf (w.drop 2).reverse

/-- Whether the search sees in a piece what the lexer sees; the text goes on with `rest`. Strings are the same for both.
A name behind a colon is written without escapes, or there is none of a pseudo-element. All else is kept, but for a
comment that is never closed: what follows belongs to it. -/
def Piece.isClear : Piece → List Char → Bool
  | .comment w, rest => !isClosed w || isKept none w rest
  | .tile p, rest =>
    match p.token with
    | .string _ => true
    | .colon => (rest.dropWhile isNamePart).head? != some '\\' || (pseudoElementLength? rest).isNone
    | _ => isKept none p.text rest

/-- Whether the search sees in a text what the lexer sees. -/
def isClear : List Piece → Bool
  | [] => true
  | p :: ps => p.isClear (textOfPieces ps) && isClear ps

theorem Orderly.of_cons {t : Token} {ts : List Token} (h : Orderly (t :: ts)) : Orderly ts where
  colon before after hts := h.colon (t :: before) after (by rw [hts]; rfl)
  whole u hu := h.whole u (List.mem_cons_of_mem _ hu)
  string before text after hts := h.string (t :: before) text after (by rw [hts]; rfl)

/-- **Behind a colon of a list that is read there is no pseudo-element**, if the name there is written without escapes. -/
theorem pseudoElementLength?_of_orderly (hps : Paves cs ps) (h : Orderly (.colon :: tokensOf ps))
    (hplain : (cs.dropWhile isNamePart).head? ≠ some '\\') : pseudoElementLength? cs = none := by
  obtain ⟨t, ts, name, htokens, ht, hname⟩ := h.colon [] _ rfl
  cases hps with
  | nil => cases htokens
  | comment => exact pseudoElementLength?_of_nil rfl
  | @tile c cs w ps _ _ _ =>
    obtain ⟨rfl, -⟩ := List.cons.inj htokens
    refine pseudoElementLength?_of_name ?_
    rw [← takeName_of_plain hplain, takeName_of_next ht]
    exact hname

theorem next_of_colon (h : (next c cs).1 = .colon) : c = ':' ∧ (next c cs).2 = cs := by
  unfold next takeNumeric takeNamed at h ⊢
  dsimp only at h ⊢
  repeat' split at h
  all_goals simp_all

theorem isKept_of_whole (h : (Piece.comment w).Whole) (hclear : (Piece.comment w).isClear rest = true) :
    isKept none w rest = true := by
  cases h with
  | @comment body _ =>
    have hclosed : isClosed ('/' :: '*' :: (body ++ ['*', '/'])) = true := by
      rw [isClosed, List.drop_succ_cons, List.drop_succ_cons, List.drop_zero, List.reverse_append]
      exact List.isPrefixOf_iff_prefix.2 (List.prefix_append _ _)
    rw [Piece.isClear, hclosed] at hclear
    exact hclear

/-- **The search keeps a clear text** in front of two colons. -/
theorem dropPseudos_of_clear (hps : Paves cs ps) (horderly : Orderly (tokensOf ps)) (hclosed : Closed ps)
    (hclear : isClear ps = true) (x : List Char) :
    dropPseudos 0 none (cs ++ ':' :: ':' :: x) = keep cs (dropPseudos 0 none (':' :: ':' :: x)) := by
  induction hps with
  | nil => rfl
  | @comment cs w ps hw hrest ih =>
    rw [isClear, Bool.and_eq_true, hrest.text] at hclear
    have hkept := isKept_of_whole (hclosed w List.mem_cons_self) hclear.1
    rw [hw, List.append_assoc, dropPseudos_kept hkept, ih horderly hclosed.of_cons hclear.2, keep_keep]
  | @tile c cs w ps hcomment hw hrest ih =>
    rw [isClear, Bool.and_eq_true, Piece.isClear, hrest.text] at hclear
    obtain ⟨hpiece, hclear⟩ := hclear
    have hih := ih horderly.of_cons hclosed.of_cons hclear
    dsimp only at hpiece
    split at hpiece
    · rename_i text htoken
      obtain ⟨hquote, hsome, hleft⟩ := takeString_of_string htoken
      have hlast (hnil : (next c cs).2 = []) (text' : String) : (next c cs).1 ≠ .string text' := fun htoken' => by
        rw [hnil] at hrest
        cases hrest
        exact horderly.last [] text' (congrArg ([·]) htoken')
      have hstring := takeString_of_next hquote hlast (':' :: ':' :: x)
      rw [← hleft] at hstring
      have hne : (takeString c (cs ++ ':' :: ':' :: x)).2 ≠ [] := by simp [hstring]
      obtain ⟨v, hv, hdrop⟩ := dropPseudos_string hquote hne (by rw [hstring]; exact hsome)
      rw [hstring] at hv hdrop
      rw [← List.append_assoc] at hv
      rw [List.cons_append, dropPseudos_quote hquote, hdrop, hih, keep_keep, keep_keep]
      exact congrArg (fun cs => keep (c :: cs) _) (List.append_cancel_right hv).symm
    · rename_i htoken
      obtain ⟨rfl, hleft⟩ := next_of_colon htoken
      rw [hleft] at hrest hih hpiece
      have hnone : pseudoElementLength? cs = none := by
        rw [Bool.or_eq_true, bne_iff_ne, Option.isNone_iff_eq_none] at hpiece
        refine hpiece.elim (fun hplain => ?_) id
        refine pseudoElementLength?_of_orderly hrest ?_ hplain
        have htokens : Orderly ((next ':' cs).1 :: tokensOf ps) := horderly
        rwa [htoken] at htokens
      rw [List.cons_append, dropPseudos_keep (by decide) fun _ => pseudoElementLength?_append hnone x, hih, keep_keep]
      rfl
    · rw [hw, List.append_assoc, dropPseudos_kept hpiece, hih, keep_keep]

/-! ## Reading once more -/

theorem firm_of_orderly (horderly : Orderly (tokensOf ps)) (hclosed : Closed ps) : Firm ps := by
  refine firm_of_pieces (fun t ht => (horderly.whole t ht).1) hclosed fun before p hlast text htoken => ?_
  refine horderly.last (tokensOf before) text ?_
  rw [hlast, tokensOf_append, ← htoken]
  rfl

theorem paves_colon (h : Paves cs ps) : Paves (':' :: cs) (.tile ⟨.colon, [':']⟩ :: ps) :=
  .of_next (not_startsComment (by decide) cs) rfl rfl h

/-- **No list is read with two colons behind it.** -/
theorem not_parse_colons {text : String} {list list' : SelectorList} (hparse : Selector.parse text = .ok list)
    (hclosed : Closed (pieces text.toList)) (x : String) : Selector.parse (text ++ "::" ++ x) ≠ .ok list' := by
  intro hparse'
  have hps := paves_pieces text.toList
  have hfirm := firm_of_orderly (orderly_of_parse hparse hps) hclosed
  have hx : Ending (':' :: ':' :: x.toList) := .stop (by decide) (by decide)
  obtain ⟨qs, w, x', -, hsplit, hspaces, hall⟩ := hps.append hfirm hx (by simp)
  obtain rfl : w = [] := by
    cases w with
    | nil => rfl
    | cons c w =>
      obtain ⟨rfl, -⟩ := List.cons.inj hsplit
      exact absurd (hspaces ':' List.mem_cons_self) (by decide)
  have hpaves := hall _ (hsplit ▸ paves_colon (paves_colon (paves_pieces x.toList)))
  have htext : (text ++ "::" ++ x).toList = text.toList ++ ':' :: ':' :: x.toList := by simp
  rw [← htext] at hpaves
  have horderly := orderly_of_parse hparse' hpaves
  obtain ⟨t, rest, name, hafter, ht, -⟩ := horderly.colon (tokensOf qs) _ (by rw [tokensOf, List.filterMap_append]; rfl)
  obtain ⟨rfl, -⟩ := List.cons.inj hafter
  rcases ht with ht | ht <;> cases ht

theorem dropPseudos_length (quote : Option Char) (cs : List Char) : dropPseudos cs.length quote cs = ([], false) := by
  induction cs with
  | nil => rfl
  | cons c cs ih => exact ih

/-- The search takes a pseudo-element away. -/
theorem dropPseudos_pseudoElement {p : String} (hp : p ∈ pseudoElements) :
    dropPseudos 0 none (':' :: ':' :: p.toList) = ([], true) := by
  have hletters : (pseudoElements.all fun p => p.toList.all isLetter) = true := rfl
  have hname : p.toList.takeWhile (fun c => c.isAlphanum || c == '-' || c == '_') = p.toList :=
    List.takeWhile_eq_self_iff.2 (List.all_eq_true.1 (List.all_eq_true.1 hletters p hp))
  have hany : pseudoElements.any (eqIgnoreCase p) = true := List.any_eq_true.2 ⟨p, hp, beq_self_eq_true _⟩
  have hlength : pseudoElementLength? (':' :: p.toList) = some (':' :: p.toList).length := by
    simp [pseudoElementLength?, hname, hany, Nat.add_comm]
  rw [dropPseudos, if_pos rfl, hlength]
  dsimp only
  rw [dropPseudos_length]

theorem stripPseudos?_pseudoElement {text p : String} {list : SelectorList} (hparse : Selector.parse text = .ok list)
    (hclosed : Closed (pieces text.toList)) (hclear : isClear (pieces text.toList) = true) (hp : p ∈ pseudoElements) :
    stripPseudos? (text ++ "::" ++ p) = some (String.ofList (trim text.toList)) := by
  have hps := paves_pieces text.toList
  have htext : (text ++ "::" ++ p).toList = text.toList ++ ':' :: ':' :: p.toList := by simp
  rw [stripPseudos?, htext, dropPseudos_of_clear hps (orderly_of_parse hparse hps) hclosed hclear,
    dropPseudos_pseudoElement hp,
    keep]
  dsimp only
  rw [List.append_nil]

/-- **A selector with a pseudo-element at the end selects what it selects without it.** -/
theorem selectsOrDegrades_pseudoElement {text p : String} {list : SelectorList} (hparse : Selector.parse text = .ok list)
    (hclear : isClear (pieces text.toList) = true) (htrims : trimsSpace text.toList = true) (hp : p ∈ pseudoElements)
    (t : Tree) (id : NodeId) : selectsOrDegrades t (text ++ "::" ++ p) id = selectsAny t list id := by
  have hps := paves_pieces text.toList
  rcases hps.closed with hclosed | ⟨qs, w, hlast, hopen⟩
  · rw [selectsOrDegrades]
    cases hread : Selector.parse (text ++ "::" ++ p) with
    | ok list' => exact absurd hread (not_parse_colons hparse hclosed p)
    | error e =>
      dsimp only
      rw [stripPseudos?_pseudoElement hparse hclosed hclear hp]
      dsimp only
      rw [parse_trim hparse hps hclosed htrims]
  · -- the comment at the end goes on to the end of the pseudo-element
    rw [hlast] at hps
    have hcolons : ("::" ++ p).toList = ':' :: ':' :: p.toList := by simp
    have hslashes : (pseudoElements.all fun p => p.toList.all (· != '/')) = true := rfl
    have hslash : '/' ∉ ("::" ++ p).toList := by
      intro hmem
      have hname := List.all_eq_true.1 (List.all_eq_true.1 hslashes p hp) '/'
      simp_all
    have hread := parse_append_open hparse hps hopen (hcolons ▸ .stop (by decide) (by decide))
      (by simp [hcolons]) hslash
    rw [selectsOrDegrades, String.append_assoc, hread]

/-- A tree of a paragraph with a class. -/
def classed (name : String) : Tree :=
  (Tree.empty.alloc (.element { Element.ofName "p" with attributes := [⟨"class", name⟩] })).1

theorem selectsOrDegrades_classed :
    isClear (pieces " p.sm\\:block /* \":x\" */ ".toList) = true ∧ trimsSpace " p.sm\\:block /* \":x\" */ ".toList = true ∧
      selectsOrDegrades (classed "sm:block") (" p.sm\\:block /* \":x\" */ " ++ "::" ++ "before") 1 = true := by
  have hclear : isClear (pieces " p.sm\\:block /* \":x\" */ ".toList) = true := by decide +kernel
  have htrims : trimsSpace " p.sm\\:block /* \":x\" */ ".toList = true := by decide +kernel
  obtain ⟨list, hparse, hselects⟩ : ∃ list, Selector.parse " p.sm\\:block /* \":x\" */ " = .ok list ∧
      selectsAny (classed "sm:block") list 1 = true := exists_of_selectsAsList (by decide +kernel)
  refine ⟨hclear, htrims, ?_⟩
  rw [selectsOrDegrades_pseudoElement hparse hclear htrims (by decide)]
  exact hselects

/-- An escaped colon before the name of a pseudo-element is taken for one: the list selects an element, and with a
pseudo-element at its end it does not. -/
theorem exists_selectsOrDegrades_ne_selectsAny : ∃ (text p : String) (list : SelectorList) (t : Tree) (id : NodeId),
    Selector.parse text = .ok list ∧ p ∈ pseudoElements ∧ selectsAny t list id = true ∧
      selectsOrDegrades t (text ++ "::" ++ p) id = false := by
  obtain ⟨list, hparse, hselects⟩ : ∃ list, Selector.parse ".md\\:before\\:block" = .ok list ∧
      selectsAny (classed "md:before:block") list 1 = true := exists_of_selectsAsList (by decide +kernel)
  exact ⟨".md\\:before\\:block", "after", list, classed "md:before:block", 1, hparse, by decide, hselects,
    by decide +kernel⟩

end LiveMarkup.Css
