/-
The pieces of a text.

The lexer goes through a text piece by piece. A piece is a comment or the text of a token (`Paves`), the pieces make up
the text, and what the lexer gives is the tokens among them, each with its place (`lexFrom_of_paves`). So every byte of
a text belongs to one token or to one comment (`lex_covers`).
-/
import LiveMarkup.Proofs.Css.Lexing

set_option autoImplicit false

namespace LiveMarkup.Css

open Text

/-! ## Pieces -/

/-- A piece of a text: a comment, or a token with the text that it was read from. -/
inductive Piece where
  | comment (text : List Char)
  | tile (p : Tile)

/-- The text of a piece. -/
def Piece.text : Piece → List Char
  | comment w => w
  | tile p => p.text

/-- The text of pieces. -/
def textOfPieces (ps : List Piece) : List Char := ps.flatMap (·.text)

/-- The tokens among pieces that lie one behind the other from an offset on. -/
def lay : Nat → List Piece → List Lexeme
  | _, [] => []
  | offset, .comment w :: ps => lay (offset + byteLength w) ps
  | offset, .tile p :: ps =>
    ⟨p.token, ⟨offset, offset + byteLength p.text⟩⟩ :: lay (offset + byteLength p.text) ps

/-- The text starts with a comment. -/
def StartsComment (cs : List Char) : Prop := ['/', '*'] <+: cs

/-- The pieces of a text, as the lexer goes through it. -/
inductive Paves : List Char → List Piece → Prop
  | nil : Paves [] []
  | comment {cs w : List Char} {ps : List Piece} : '/' :: '*' :: cs = w ++ afterComment cs →
      Paves (afterComment cs) ps → Paves ('/' :: '*' :: cs) (.comment w :: ps)
  | tile {c : Char} {cs w : List Char} {ps : List Piece} : ¬ StartsComment (c :: cs) → c :: cs = w ++ (next c cs).2 →
      Paves (next c cs).2 ps → Paves (c :: cs) (.tile ⟨(next c cs).1, w⟩ :: ps)

variable {c : Char} {cs w : List Char} {ps qs : List Piece} {offset : Nat}

@[simp] theorem textOfPieces_nil : textOfPieces [] = [] := rfl

@[simp] theorem textOfPieces_cons (p : Piece) (ps : List Piece) :
    textOfPieces (p :: ps) = p.text ++ textOfPieces ps := rfl

theorem textOfPieces_append (ps qs : List Piece) : textOfPieces (ps ++ qs) = textOfPieces ps ++ textOfPieces qs :=
  List.flatMap_append

theorem lay_append (offset : Nat) (ps qs : List Piece) :
    lay offset (ps ++ qs) = lay offset ps ++ lay (offset + byteLength (textOfPieces ps)) qs := by
  induction ps generalizing offset with
  | nil => rfl
  | cons p ps ih =>
    cases p with
    | comment w => rw [List.cons_append, lay, lay, ih, textOfPieces_cons, byteLength_append, Nat.add_assoc]; rfl
    | tile p =>
      rw [List.cons_append, lay, lay, ih, textOfPieces_cons, byteLength_append, Nat.add_assoc]
      rfl

theorem Paves.text (h : Paves cs ps) : textOfPieces ps = cs := by
  induction h with
  | nil => rfl
  | comment hw _ ih => rw [textOfPieces_cons, ih, Piece.text, ← hw]
  | tile _ hw _ ih => rw [textOfPieces_cons, ih, Piece.text, ← hw]

theorem Paves.isInfix_text (h : Paves cs ps) {p : Piece} (hp : p ∈ ps) : p.text <:+: cs := by
  obtain ⟨before, after, rfl⟩ := List.append_of_mem hp
  rw [← h.text, textOfPieces, List.flatMap_append, List.flatMap_cons, ← List.append_assoc]
  exact ⟨_, _, rfl⟩

theorem exists_of_startsComment (h : StartsComment cs) : ∃ rest, cs = '/' :: '*' :: rest := by
  obtain ⟨rest, rfl⟩ := h
  exact ⟨rest, rfl⟩

theorem not_startsComment (h : c ≠ '/') (cs : List Char) : ¬ StartsComment (c :: cs) := fun hcomment => by
  obtain ⟨rest, hrest⟩ := exists_of_startsComment hcomment
  exact h (List.cons.inj hrest).1

theorem Paves.of_next {t : Token} {rest : List Char} (hcomment : ¬ StartsComment (c :: cs))
    (hnext : next c cs = (t, rest)) (hw : c :: cs = w ++ rest) (h : Paves rest ps) :
    Paves (c :: cs) (.tile ⟨t, w⟩ :: ps) := by
  have := Paves.tile hcomment (w := w) (by rw [hnext]; exact hw) (show Paves _ ps by rw [hnext]; exact h)
  rwa [hnext] at this

theorem Paves.right (h : Paves cs (ps ++ qs)) : Paves (textOfPieces qs) qs := by
  induction ps generalizing cs with
  | nil =>
    rw [List.nil_append] at h
    rw [h.text]
    exact h
  | cons p ps ih =>
    cases h with
    | comment _ hrest => exact ih hrest
    | tile _ _ hrest => exact ih hrest

/-- The beginning of a text, of which the rest is left. -/
def taken (cs rest : List Char) : List Char := cs.take (cs.length - rest.length)

/-- The pieces of a text. -/
def pieces : List Char → List Piece
  | [] => []
  | '/' :: '*' :: cs => .comment (taken ('/' :: '*' :: cs) (afterComment cs)) :: pieces (afterComment cs)
  | c :: cs => .tile ⟨(next c cs).1, taken (c :: cs) (next c cs).2⟩ :: pieces (next c cs).2
termination_by cs => cs.length
decreasing_by
  · have := (afterComment_suffix cs).length_le
    simp only [List.length_cons]
    omega
  · exact Nat.lt_succ_of_le (next_suffix c cs).length_le

theorem taken_append {rest : List Char} (h : rest <:+ cs) : cs = taken cs rest ++ rest :=
  (List.suffix_iff_eq_append.1 h).symm

/-- **Every text has its pieces**, since each of them takes at least one character. -/
theorem paves_pieces (cs : List Char) : Paves cs (pieces cs) := by
  fun_induction pieces cs with
  | case1 => exact .nil
  | case2 cs ih => exact .comment (taken_append ((afterComment_suffix cs).trans ⟨['/', '*'], rfl⟩)) ih
  | case3 c cs hcomment ih =>
    refine .tile (fun h => ?_) (taken_append ((next_suffix c cs).trans (List.suffix_cons c cs))) ih
    obtain ⟨rest, hrest⟩ := exists_of_startsComment h
    obtain ⟨rfl, rfl⟩ := List.cons.inj hrest
    exact hcomment rest rfl rfl

theorem exists_paves (cs : List Char) : ∃ ps, Paves cs ps := ⟨pieces cs, paves_pieces cs⟩

/-- A text has one list of pieces. -/
theorem Paves.unique (h : Paves cs ps) (h' : Paves cs qs) : ps = qs := by
  induction h generalizing qs with
  | nil =>
    cases h'
    rfl
  | comment hw _ ih =>
    cases h' with
    | comment hw' hrest => rw [List.append_cancel_right (hw.symm.trans hw'), ih hrest]
    | tile hcomment => exact absurd ⟨_, rfl⟩ hcomment
  | tile hcomment hw _ ih =>
    cases h' with
    | comment => exact absurd ⟨_, rfl⟩ hcomment
    | tile _ hw' hrest => rw [List.append_cancel_right (hw.symm.trans hw'), ih hrest]

/-- The tokens among pieces. -/
def tokensOf (ps : List Piece) : List Token := ps.filterMap fun
  | .comment _ => none
  | .tile p => some p.token

theorem tokensOf_append (ps qs : List Piece) : tokensOf (ps ++ qs) = tokensOf ps ++ tokensOf qs :=
  List.filterMap_append

theorem map_token_lay (offset : Nat) (ps : List Piece) : (lay offset ps).map (·.token) = tokensOf ps := by
  induction ps generalizing offset with
  | nil => rfl
  | cons p ps ih =>
    cases p with
    | comment w => exact ih _
    | tile p => exact congrArg (p.token :: ·) (ih _)

/-! ## What the lexer gives -/

theorem skipComments_comment (cs : List Char) : skipComments ('/' :: '*' :: cs) = skipComments (afterComment cs) := by
  rw [skipComments]

theorem skipComments_of_not (h : ¬ StartsComment cs) : skipComments cs = cs := by
  rw [skipComments.eq_def]
  split
  · exact absurd ⟨_, rfl⟩ h
  · rfl

/-- The lexer behind the comments at the start of a text. -/
def lexToken (start : Nat) : List Char → List Lexeme
  | [] => [endAt start]
  | c :: cs =>
    let stop := start + (byteLength (c :: cs) - byteLength (next c cs).2)
    ⟨(next c cs).1, ⟨start, stop⟩⟩ :: lexFrom stop (next c cs).2

theorem lexFrom_eq (offset : Nat) (cs : List Char) :
    lexFrom offset cs = lexToken (offset + (byteLength cs - byteLength (skipComments cs))) (skipComments cs) := by
  rw [lexFrom]
  split
  · rename_i heq
    rw [heq]
    rfl
  · rename_i heq
    rw [heq]
    rfl

theorem lexFrom_comment (hw : '/' :: '*' :: cs = w ++ afterComment cs) (offset : Nat) :
    lexFrom offset ('/' :: '*' :: cs) = lexFrom (offset + byteLength w) (afterComment cs) := by
  obtain ⟨v, hv⟩ := skipComments_suffix (afterComment cs)
  have htotal : byteLength ('/' :: '*' :: cs) = byteLength w + byteLength (afterComment cs) := by
    rw [hw, byteLength_append]
  have hrest : byteLength (afterComment cs) = byteLength v + byteLength (skipComments (afterComment cs)) := by
    conv_lhs => rw [← hv, byteLength_append]
  rw [lexFrom_eq, lexFrom_eq, skipComments_comment, htotal]
  congr 1
  omega

theorem lexFrom_tile (hcomment : ¬ StartsComment (c :: cs)) (hw : c :: cs = w ++ (next c cs).2) (offset : Nat) :
    lexFrom offset (c :: cs) =
      ⟨(next c cs).1, ⟨offset, offset + byteLength w⟩⟩ :: lexFrom (offset + byteLength w) (next c cs).2 := by
  have hlength : byteLength (c :: cs) - byteLength (next c cs).2 = byteLength w := by
    conv_lhs => rw [hw, byteLength_append]
    omega
  rw [lexFrom_eq, skipComments_of_not hcomment, Nat.sub_self, Nat.add_zero, lexToken, hlength]

/-- **The lexer gives the tokens among the pieces**, and the end of the input behind them. -/
theorem lexFrom_of_paves (h : Paves cs ps) (offset : Nat) :
    lexFrom offset cs = lay offset ps ++ [endAt (offset + byteLength cs)] := by
  induction h generalizing offset with
  | nil => exact lexFrom_nil offset
  | @comment cs w ps hw _ ih =>
    rw [lexFrom_comment hw, ih, lay, hw, byteLength_append, Nat.add_assoc]
  | @tile c cs w ps hcomment hw _ ih =>
    have htotal : byteLength (c :: cs) = byteLength w + byteLength (next c cs).2 := by
      conv_lhs => rw [hw, byteLength_append]
    rw [lexFrom_tile hcomment hw, ih, lay, List.cons_append, htotal, Nat.add_assoc]

/-! ## Whole pieces -/

/-- A piece that is complete: a comment that is closed where its text first says so, or a token with some text. -/
inductive Piece.Whole : Piece → Prop
  | comment {body : List Char} : ¬ ['*', '/'] <:+: body →
      Whole (.comment ('/' :: '*' :: (body ++ ['*', '/'])))
  | tile {p : Tile} : p.text ≠ [] → p.token ≠ .endOfInput → Whole (.tile p)

/-- A comment that is never closed. -/
inductive Piece.Open : Piece → Prop
  | comment {body : List Char} : ¬ ['*', '/'] <:+: body → Open (.comment ('/' :: '*' :: body))

/-- A comment ends where its text first says so, or it is never closed and nothing is left. -/
theorem afterComment_cases (cs : List Char) :
    (∃ body, cs = body ++ '*' :: '/' :: afterComment cs ∧ ¬ ['*', '/'] <:+: body) ∨
      (afterComment cs = [] ∧ ¬ ['*', '/'] <:+: cs) := by
  fun_induction afterComment cs with
  | case1 cs => exact .inl ⟨[], rfl, by simp⟩
  | case2 c cs hclose ih =>
    have hinfix {body rest : List Char} (hcs : cs = body ++ rest) (hbody : ¬ ['*', '/'] <:+: body) :
        ¬ ['*', '/'] <:+: c :: body := by
      intro hin
      rcases List.infix_cons_iff.1 hin with hprefix | hin
      · obtain ⟨tail, htail⟩ := hprefix
        obtain ⟨rfl, rfl⟩ := List.cons.inj htail
        exact hclose (tail ++ rest) rfl hcs
      · exact hbody hin
    rcases ih with ⟨body, hcs, hbody⟩ | ⟨hnil, hcs⟩
    · exact .inl ⟨c :: body, congrArg (c :: ·) hcs, hinfix hcs hbody⟩
    · exact .inr ⟨hnil, hinfix (List.append_nil cs).symm hcs⟩
  | case3 => exact .inr ⟨rfl, by simp⟩

/-- No character starts the end of the input. -/
theorem next_ne_end (c : Char) (cs : List Char) : (next c cs).1 ≠ .endOfInput := by
  unfold next takeNumeric takeNamed
  dsimp only
  repeat' split
  all_goals exact nofun

/-- **The pieces of a text are whole**, but for a comment at its end. -/
theorem Paves.whole (h : Paves cs ps) {before after : List Piece} {p : Piece} (hps : ps = before ++ p :: after) :
    p.Whole ∨ (after = [] ∧ p.Open) := by
  induction h generalizing before with
  | nil => exact absurd hps (by simp)
  | @comment cs w ps hw hrest ih =>
    cases before with
    | cons q before => exact ih (List.cons.inj hps).2
    | nil =>
      obtain ⟨rfl, rfl⟩ := List.cons.inj hps
      rcases afterComment_cases cs with ⟨body, hcs, hbody⟩ | ⟨hnil, hbody⟩
      · obtain rfl : '/' :: '*' :: (body ++ ['*', '/']) = w := by
          refine List.append_cancel_right (Eq.trans ?_ hw)
          conv_rhs => rw [hcs]
          simp
        exact .inl (.comment hbody)
      · rw [hnil] at hw hrest
        cases hrest
        rw [List.append_nil] at hw
        exact .inr ⟨rfl, hw ▸ .comment hbody⟩
  | @tile c cs w ps hcomment hw _ ih =>
    cases before with
    | cons q before => exact ih (List.cons.inj hps).2
    | nil =>
      obtain ⟨rfl, rfl⟩ := List.cons.inj hps
      refine .inl (.tile (fun hnil => ?_) (next_ne_end c cs))
      have hle := (next_suffix c cs).length_le
      have hlength := congrArg List.length hw
      obtain rfl : w = [] := hnil
      rw [List.length_cons, List.nil_append] at hlength
      omega

/-! ## Text that goes on -/

/-- Pieces that end where they end, whatever follows that no token goes on with: no comment is open, no backslash stands
alone, and the last piece is no string, which might be open. -/
inductive Firm : List Piece → Prop
  | nil : Firm []
  | comment {w : List Char} {ps : List Piece} : (Piece.comment w).Whole → Firm ps → Firm (.comment w :: ps)
  | tile {p : Tile} {ps : List Piece} : p.token ≠ .delim '\\' → (ps = [] → ∀ text, p.token ≠ .string text) →
      Firm ps → Firm (.tile p :: ps)

/-- The same pieces, except for the text of a token at the end. -/
inductive Kin : List Piece → List Piece → Prop
  | nil : Kin [] []
  | last {p q : Tile} : p.token = q.token → Kin [.tile p] [.tile q]
  | cons {p : Piece} {ps qs : List Piece} : Kin ps qs → Kin (p :: ps) (p :: qs)

/-- A text does not end with a lone backslash when none is among its tokens. -/
theorem Paves.not_hooked (hps : Paves cs ps) (h : ∀ t ∈ tokensOf ps, t ≠ .delim '\\') : ¬ Hooked cs := by
  have hbackslash {ps : List Piece} (hps : Paves ['\\'] ps) : .delim '\\' ∈ tokensOf ps := by
    cases hps with
    | tile => exact List.mem_cons_self
  rintro (rfl | rfl)
  · exact h _ (hbackslash hps) rfl
  · cases hps with
    | tile _ _ hrest =>
      exact h _ (List.mem_cons_of_mem _ (hbackslash (show Paves (next '-' ['\\']).2 _ from hrest))) rfl

theorem Firm.ne_backslash (h : Firm ps) : ∀ t ∈ tokensOf ps, t ≠ .delim '\\' := by
  induction h with
  | nil => exact nofun
  | comment _ _ ih => exact ih
  | tile htoken _ _ ih => exact List.forall_mem_cons.2 ⟨htoken, ih⟩

theorem Firm.not_hooked (h : Firm ps) (hps : Paves cs ps) : ¬ Hooked cs := hps.not_hooked h.ne_backslash

theorem firm_of_pieces (hbackslash : ∀ t ∈ tokensOf ps, t ≠ .delim '\\')
    (hcomment : ∀ w, .comment w ∈ ps → (Piece.comment w).Whole)
    (hlast : ∀ before p, ps = before ++ [.tile p] → ∀ text, p.token ≠ .string text) : Firm ps := by
  induction ps with
  | nil => exact .nil
  | cons p ps ih =>
    have hlast' (before : List Piece) (q : Tile) (hps : ps = before ++ [.tile q]) (text : String) :
        q.token ≠ .string text := hlast (p :: before) q (congrArg (p :: ·) hps) text
    have hcomment' (w : List Char) (hw : .comment w ∈ ps) := hcomment w (List.mem_cons_of_mem _ hw)
    cases p with
    | comment w => exact .comment (hcomment w List.mem_cons_self) (ih hbackslash hcomment' hlast')
    | tile p =>
      obtain ⟨hp, hbackslash'⟩ := List.forall_mem_cons.1 hbackslash
      exact .tile hp (fun hnil => hlast [] p (by rw [hnil]; rfl)) (ih hbackslash' hcomment' hlast')

/-- A text without comments is firm when its tokens are neither backslashes nor strings. -/
theorem firm_of_tokens (hps : Paves cs ps) (hfree : ¬ ['/', '*'] <:+: cs)
    (htokens : ∀ t ∈ tokensOf ps, t ≠ .delim '\\' ∧ ∀ text, t ≠ .string text) : Firm ps := by
  refine firm_of_pieces (fun t ht => (htokens t ht).1) (fun w hw => ?_) fun before p hsplit text => ?_
  · obtain ⟨before, after, hsplit⟩ := List.append_of_mem hw
    have hstart : ['/', '*'] <+: w := by
      rcases hps.whole hsplit with hwhole | ⟨-, hopen⟩
      · cases hwhole
        exact ⟨_, rfl⟩
      · cases hopen
        exact ⟨_, rfl⟩
    exact absurd (hstart.isInfix.trans (hps.isInfix_text hw)) hfree
  · exact (htokens p.token (by rw [hsplit, tokensOf_append]; exact List.mem_append_right _ List.mem_cons_self)).2 text

theorem afterComment_append (h : ['*', '/'] <:+: cs) (x : List Char) :
    afterComment (cs ++ x) = afterComment cs ++ x := by
  fun_induction afterComment cs with
  | case1 cs => rfl
  | case2 c cs hclose ih =>
    rcases List.infix_cons_iff.1 h with hprefix | hin
    · obtain ⟨tail, htail⟩ := hprefix
      obtain ⟨rfl, rfl⟩ := List.cons.inj htail
      exact absurd rfl (hclose tail rfl)
    · obtain ⟨d, ds, rfl⟩ : ∃ d ds, cs = d :: ds := by
        cases cs with
        | nil => exact absurd hin (by simp)
        | cons d ds => exact ⟨d, ds, rfl⟩
      rw [← ih hin, List.cons_append, List.cons_append, afterComment]
      rintro tail rfl htail
      obtain ⟨rfl, -⟩ := List.cons.inj htail
      exact hclose ds rfl rfl
  | case3 => exact absurd h (by simp)

/-- A string that does not reach the end of a text stays as it is. -/
theorem takeString_append_of_ne_nil {quote : Char} (h : (takeString quote cs).2 ≠ []) (x : List Char) :
    takeString quote (cs ++ x) = ((takeString quote cs).1, (takeString quote cs).2 ++ x) := by
  fun_induction takeString quote cs with
  | case1 => exact absurd rfl h
  | case2 cs => rw [List.cons_append, takeString_cons, if_pos rfl]
  | case3 cs hc => rw [List.cons_append, takeString_cons, if_neg hc, if_pos rfl]
  | case4 => exact absurd rfl h
  | case5 rest hc hnewline ih =>
    rw [List.cons_append, List.cons_append, takeString_cons, if_neg hc, if_neg (by decide), if_pos rfl]
    exact ih h
  | case6 d ds hd text rest htake hc _ ih =>
    rw [htake] at ih
    have hne : (takeEscape (d :: ds)).2 ≠ [] := fun hnil => by
      rw [hnil, takeString] at htake
      exact h (Prod.mk.inj htake).2.symm
    rw [List.cons_append, List.cons_append, takeString_cons, if_neg hc, if_neg (by decide), if_pos rfl]
    dsimp only
    rw [if_neg hd, takeEscape_append_of_ne_nil hne]
    dsimp only
    rw [ih h]
  | case7 c cs hc hnewline hbackslash text rest htake ih =>
    rw [htake] at ih
    rw [List.cons_append, takeString_cons, if_neg hc, if_neg hnewline, if_neg hbackslash, ih h]

/-- A string that is cut off leaves the line feed. -/
theorem takeString_of_none {quote : Char} (h : (takeString quote cs).1 = none) : (takeString quote cs).2 ≠ [] := by
  fun_induction takeString quote cs with
  | case1 => cases h
  | case2 cs => cases h
  | case3 cs => exact List.cons_ne_nil _ _
  | case4 => cases h
  | case5 rest _ _ ih => exact ih h
  | case6 d ds _ text rest htake _ _ ih =>
    rw [htake] at ih
    exact ih (Option.map_eq_none_iff.1 h)
  | case7 c cs _ _ _ text rest htake ih =>
    rw [htake] at ih
    exact ih (Option.map_eq_none_iff.1 h)

/-- A string token that does not end a text. -/
theorem takeString_of_next (hquote : c = '"' ∨ c = '\'') (h : (next c cs).2 = [] → ∀ text, (next c cs).1 ≠ .string text)
    (x : List Char) : takeString c (cs ++ x) = ((takeString c cs).1, (takeString c cs).2 ++ x) := by
  refine takeString_append_of_ne_nil (fun hnil => ?_) x
  have hspace : ¬ isAsciiSpace c = true := by rcases hquote with rfl | rfl <;> decide
  have hbeq : (c == '"' || c == '\'') = true := by rcases hquote with rfl | rfl <;> decide
  unfold next at h
  rw [if_neg hspace, if_pos hbeq] at h
  generalize htake : takeString c cs = r at h hnil
  obtain ⟨text, rest⟩ := r
  obtain rfl : rest = [] := hnil
  cases text with
  | some text => exact h rfl _ rfl
  | none => exact takeString_of_none (congrArg Prod.fst htake) (congrArg Prod.snd htake)

theorem next_of_space (h : isAsciiSpace c = true) : next c cs = (.space, cs.dropWhile isAsciiSpace) := by
  unfold next
  rw [if_pos h]

theorem Kin.tokensOf_eq (h : Kin ps qs) : tokensOf ps = tokensOf qs := by
  induction h with
  | nil => rfl
  | last htoken => exact congrArg (fun t => [t]) htoken
  | @cons p ps qs _ ih =>
    cases p with
    | comment w => exact ih
    | tile p => exact congrArg (p.token :: ·) ih

theorem Kin.symm (h : Kin ps qs) : Kin qs ps := by
  induction h with
  | nil => exact .nil
  | last htoken => exact .last htoken.symm
  | cons _ ih => exact .cons ih

theorem Kin.cases (h : Kin ps qs) : ps = qs ∨ ∃ rs p q, ps = rs ++ [.tile p] ∧ qs = rs ++ [.tile q] ∧
    p.token = q.token := by
  induction h with
  | nil => exact .inl rfl
  | @last p q htoken => exact .inr ⟨[], p, q, rfl, rfl, htoken⟩
  | @cons p _ _ _ ih =>
    rcases ih with rfl | ⟨rs, q, r, rfl, rfl, htoken⟩
    · exact .inl rfl
    · exact .inr ⟨p :: rs, q, r, rfl, rfl, htoken⟩

theorem Kin.refl (ps : List Piece) : Kin ps ps := by
  induction ps with
  | nil => exact .nil
  | cons p ps ih => exact .cons ih

theorem not_startsComment_append {x : List Char} (h : ¬ StartsComment (c :: cs)) (hstar : x.head? ≠ some '*') :
    ¬ StartsComment (c :: (cs ++ x)) := by
  intro hcomment
  obtain ⟨rest, hrest⟩ := exists_of_startsComment hcomment
  obtain ⟨rfl, hcs⟩ := List.cons.inj hrest
  cases cs with
  | nil => exact hstar (by rw [List.nil_append] at hcs; rw [hcs]; rfl)
  | cons d cs =>
    obtain ⟨rfl, -⟩ := List.cons.inj hcs
    exact h ⟨cs, rfl⟩

/-- **Firm pieces stay when an ending follows the text.** White space at its start may become a part of the last of
them. -/
theorem Paves.append {x : List Char} (h : Paves cs ps) (hfirm : Firm ps) (hx : Ending x) (hstar : x.head? ≠ some '*') :
    ∃ qs w x', Kin ps qs ∧ x = w ++ x' ∧ (∀ c ∈ w, isAsciiSpace c = true) ∧
      ∀ rs, Paves x' rs → Paves (cs ++ x) (qs ++ rs) := by
  induction h with
  | nil => exact ⟨[], [], x, .nil, rfl, by simp, fun rs hrs => hrs⟩
  | @comment cs w ps hw hrest ih =>
    cases hfirm with
    | comment hwhole hfirm =>
      obtain ⟨qs, v, x', hkin, hv, hspaces, hall⟩ := ih hfirm
      have hclosed : ['*', '/'] <:+: cs := by
        generalize hcomment : Piece.comment w = p at hwhole
        cases hwhole with
        | tile => cases hcomment
        | @comment body _ =>
          obtain rfl := Piece.comment.inj hcomment
          obtain ⟨-, hcs⟩ := List.cons.inj hw
          obtain ⟨-, hcs⟩ := List.cons.inj hcs
          exact ⟨body, afterComment cs, hcs.symm⟩
      refine ⟨_ :: qs, v, x', .cons hkin, hv, hspaces, fun rs hrs => ?_⟩
      have hafter := afterComment_append hclosed x
      show Paves ('/' :: '*' :: (cs ++ x)) (.comment w :: (qs ++ rs))
      refine .comment ?_ (by rw [hafter]; exact hall rs hrs)
      rw [hafter, ← List.append_assoc, ← hw]
      rfl
  | @tile c cs w ps hcomment hw hrest ih =>
    have hhooked := hfirm.not_hooked (.tile hcomment hw hrest)
    cases hfirm with
    | tile htoken hstring hfirm' =>
      have hnot := not_startsComment_append hcomment hstar
      have hnil (hl : (next c cs).2 = []) : ps = [] := by
        rw [hl] at hrest
        cases hrest
        rfl
      by_cases hspace : isAsciiSpace c = true ∧ (next c cs).2 = []
      · -- the white space at the end of the text takes that at the start of what follows
        obtain ⟨hc, hl⟩ := hspace
        obtain rfl := hnil hl
        have hnext : next c (cs ++ x) = ((next c cs).1, x.dropWhile isAsciiSpace) := by
          have hdrop : cs.dropWhile isAsciiSpace = [] := by rwa [next_of_space hc] at hl
          rw [next_of_space hc, next_of_space hc, List.dropWhile_append, hdrop]
          rfl
        rw [hl, List.append_nil] at hw
        refine ⟨[.tile ⟨(next c cs).1, w ++ x.takeWhile isAsciiSpace⟩], x.takeWhile isAsciiSpace,
          x.dropWhile isAsciiSpace, .last rfl, List.takeWhile_append_dropWhile.symm, fun d hd => ?_, fun rs hrs => ?_⟩
        · exact List.mem_takeWhile_imp hd
        · refine .of_next hnot hnext ?_ hrs
          rw [List.append_assoc, List.takeWhile_append_dropWhile, ← hw]
          rfl
      · obtain ⟨x', hx', hfollows⟩ := next_append hhooked (hfirm'.not_hooked hrest) hx
          (fun hc hdrop => absurd ⟨hc, by rw [next_of_space hc]; exact hdrop⟩ hspace)
          fun hquote => takeString_of_next hquote (fun hl => hstring (hnil hl)) x
        by_cases hl : (next c cs).2 = []
        · obtain rfl := hnil hl
          rw [hl, List.append_nil] at hw
          rw [hl, List.nil_append] at hx'
          rcases hfollows with rfl | ⟨-, d, hd, rfl⟩
          · exact ⟨[.tile ⟨(next c cs).1, w⟩], [], x', Kin.refl _, rfl, by simp, fun rs hrs =>
              .of_next hnot hx' (by rw [← hw]; rfl) hrs⟩
          · exact ⟨[.tile ⟨(next c cs).1, w ++ [d]⟩], [d], x', .last rfl, rfl, by simpa using hd, fun rs hrs =>
              .of_next hnot hx' (by rw [List.append_assoc, ← hw]; rfl) hrs⟩
        · obtain rfl : x' = x := hfollows.resolve_right fun h => absurd h.1 hl
          obtain ⟨qs, v, x'', hkin, hv, hspaces, hall⟩ := ih hfirm'
          exact ⟨_ :: qs, v, x'', .cons hkin, hv, hspaces, fun rs hrs =>
            .of_next hnot hx' (by rw [← List.append_assoc, ← hw]; rfl) (hall rs hrs)⟩

/-! ## Every byte of a text -/

theorem le_of_mem_lay {l : Lexeme} (h : l ∈ lay offset ps) : offset ≤ l.span.start := by
  induction ps generalizing offset with
  | nil => cases h
  | cons q ps ih =>
    cases q with
    | comment w => exact Nat.le_trans (Nat.le_add_right _ _) (ih h)
    | tile p =>
      rcases List.mem_cons.1 h with rfl | h
      · exact Nat.le_refl _
      · exact Nat.le_trans (Nat.le_add_right _ _) (ih h)

theorem stop_le_of_mem_lay {l : Lexeme} (h : l ∈ lay offset ps) :
    l.span.stop ≤ offset + byteLength (textOfPieces ps) := by
  induction ps generalizing offset with
  | nil => cases h
  | cons q ps ih =>
    rw [textOfPieces_cons, byteLength_append, ← Nat.add_assoc]
    cases q with
    | comment w => exact ih h
    | tile p =>
      rcases List.mem_cons.1 h with rfl | h
      · exact Nat.le_add_right _ _
      · exact ih h

/-- The tokens among pieces stand in order. -/
theorem pairwise_lay (offset : Nat) (ps : List Piece) :
    (lay offset ps).Pairwise fun l m => l.span.before m.span := by
  induction ps generalizing offset with
  | nil => exact .nil
  | cons q ps ih =>
    cases q with
    | comment w => exact ih _
    | tile p => exact List.pairwise_cons.2 ⟨fun m hm => le_of_mem_lay hm, ih _⟩

/-- A token among pieces stands where its text stands. -/
theorem exists_tile_of_mem_lay {before : List Char} {l : Lexeme} (h : l ∈ lay (byteLength before) ps) :
    ∃ p : Tile, .tile p ∈ ps ∧ l.token = p.token ∧ l.span.stop = l.span.start + byteLength p.text ∧
      slice? (before ++ textOfPieces ps) l.span.start l.span.stop = some p.text := by
  induction ps generalizing before with
  | nil => cases h
  | cons q ps ih =>
    have htail (h : l ∈ lay (byteLength (before ++ q.text)) ps) :
        ∃ p : Tile, .tile p ∈ q :: ps ∧ l.token = p.token ∧ l.span.stop = l.span.start + byteLength p.text ∧
          slice? (before ++ textOfPieces (q :: ps)) l.span.start l.span.stop = some p.text := by
      obtain ⟨p, hp, htoken, hstop, hslice⟩ := ih h
      rw [List.append_assoc, ← textOfPieces_cons] at hslice
      exact ⟨p, List.mem_cons_of_mem _ hp, htoken, hstop, hslice⟩
    rw [byteLength_append] at htail
    cases q with
    | comment w => exact htail h
    | tile p =>
      rcases List.mem_cons.1 h with rfl | h
      · exact ⟨p, List.mem_cons_self, rfl, rfl, slice?_append before p.text (textOfPieces ps)⟩
      · exact htail h

/-- **Every byte of a text belongs to one token or to one comment.** The text is made up of pieces. All but the last
are whole: closed comments, and tokens with some text; the last one is whole as well, or a comment that is never closed.
The lexer gives the tokens among the pieces, each with its place, and then the end of the input with the length of the
text. The tokens stand in order, on boundaries of characters, and share no byte. -/
theorem lex_covers (text : String) : ∃ ps,
    textOfPieces ps = text.toList ∧
    (∀ before p after, ps = before ++ p :: after → p.Whole ∨ (after = [] ∧ p.Open)) ∧
    lex text = lay 0 ps ++ [endAt text.utf8ByteSize] ∧
    (∀ l ∈ lay 0 ps, l.token ≠ .endOfInput ∧ l.span.start < l.span.stop ∧ l.span.fits text.toList = true) ∧
    (lay 0 ps).Pairwise fun l m => l.span.before m.span := by
  obtain ⟨ps, hps⟩ := exists_paves text.toList
  refine ⟨ps, hps.text, fun before p after => hps.whole, ?_, fun l hl => ?_, pairwise_lay 0 ps⟩
  · rw [lex, lexFrom_of_paves hps, utf8ByteSize_eq, Nat.zero_add]
  · obtain ⟨p, hp, htoken, hstop, hslice⟩ := exists_tile_of_mem_lay (show l ∈ lay (byteLength []) ps from hl)
    obtain ⟨before, after, hsplit⟩ := List.append_of_mem hp
    have hwhole : (Piece.tile p).Whole := (hps.whole hsplit).resolve_right fun hopen => by cases hopen.2
    cases hwhole with
    | tile htext hend =>
      have hpos : 0 < byteLength p.text := by
        obtain ⟨c, w, hw⟩ := List.exists_cons_of_ne_nil htext
        rw [hw, byteLength]
        exact Nat.add_pos_left c.utf8Size_pos _
      rw [List.nil_append, hps.text] at hslice
      exact ⟨by rw [htoken]; exact hend, by omega, by rw [Span.fits, hslice]; rfl⟩

end LiveMarkup.Css
