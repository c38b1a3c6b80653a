/-
White space and comments at the ends of a selector list.

Only the last piece of a text sees what follows the text (`Paves.append_last`). So a list is read the same when a comment
at its end, which is never closed, goes on (`parse_append_open`), and when white space at its ends is trimmed
(`parse_trim`). Trimming knows more white space than the lexer, and does not know that a space may be escaped.
-/
import LiveMarkup.Proofs.Css.Grammar

set_option autoImplicit false

namespace LiveMarkup.Css

open Text Selector

variable {c quote : Char} {cs w x : List Char} {ps qs rs : List Piece} {p q : Piece} {list : SelectorList}

/-! ## The last piece -/

theorem Paves.ne_nil (h : Paves cs ps) (hp : p ∈ ps) : cs ≠ [] := by
  rintro rfl
  cases h
  cases hp

/-- **Only the last piece of a text sees what follows.** -/
theorem Paves.append_last (h : Paves cs (ps ++ [q])) (hbackslash : ∀ t ∈ tokensOf (ps ++ [q]), t ≠ .delim '\\')
    (hx : Ending x) (hstar : x.head? ≠ some '*') (hrs : Paves (q.text ++ x) rs) : Paves (cs ++ x) (ps ++ rs) := by
  induction ps generalizing cs with
  | nil =>
    have htext := h.text
    rw [List.nil_append, textOfPieces_cons, textOfPieces_nil, List.append_nil] at htext
    rw [← htext]
    exact hrs
  | cons p ps ih =>
    have hlast : q ∈ ps ++ [q] := by simp
    rw [List.cons_append] at h hbackslash
    cases h with
    | @comment cs w _ hw hrest =>
      have hclosed : ['*', '/'] <:+: cs := by
        rcases afterComment_cases cs with ⟨body, hcs, -⟩ | ⟨hnil, -⟩
        · exact ⟨body, afterComment cs, by rw [List.append_assoc]; exact hcs.symm⟩
        · exact absurd hnil (hrest.ne_nil hlast)
      have hafter := afterComment_append hclosed x
      show Paves ('/' :: '*' :: (cs ++ x)) (.comment w :: (ps ++ rs))
      refine .comment ?_ (by rw [hafter]; exact ih hrest hbackslash)
      rw [hafter, ← List.append_assoc, ← hw]
      rfl
    | @tile c cs w _ hcomment hw hrest =>
      have hne := hrest.ne_nil hlast
      have hbackslash' : ∀ t ∈ tokensOf (ps ++ [q]), t ≠ .delim '\\' := fun t ht =>
        hbackslash t (List.mem_cons_of_mem _ ht)
      obtain ⟨x', hx', hfollows⟩ := next_append ((Paves.tile hcomment hw hrest).not_hooked hbackslash)
        (hrest.not_hooked hbackslash') hx (fun hc hnil => absurd (by rw [next_of_space hc]; exact hnil) hne)
        fun hquote => takeString_of_next hquote (fun hnil => absurd hnil hne) x
      obtain rfl := hfollows.resolve_right fun h => absurd h.1 hne
      exact .of_next (not_startsComment_append hcomment hstar) hx' (by rw [← List.append_assoc, ← hw]; rfl)
        (ih hrest hbackslash')

/-! ## Comments that are never closed -/

theorem not_closed_append {body : List Char} (h : ¬ ['*', '/'] <:+: body) (hx : '/' ∉ x) :
    ¬ ['*', '/'] <:+: body ++ x := by
  rintro ⟨before, after, hsplit⟩
  rw [List.append_assoc] at hsplit
  rcases List.append_eq_append_iff.1 hsplit with ⟨us, hbody, hafter⟩ | ⟨us, -, hx'⟩
  · change '*' :: '/' :: after = us ++ x at hafter
    match us with
    | [] => exact hx (by rw [List.nil_append] at hafter; simp [← hafter])
    | [_] =>
      have hx' : '/' :: after = x := (List.cons.inj hafter).2
      exact hx (by simp [← hx'])
    | a :: b :: us =>
      obtain ⟨rfl, hrest⟩ := List.cons.inj hafter
      obtain ⟨rfl, -⟩ := List.cons.inj hrest
      exact h ⟨before, us, by rw [hbody, List.append_assoc]; rfl⟩
  · exact hx (by simp [hx'])

theorem Piece.Open.append (h : (Piece.comment w).Open) (hx : '/' ∉ x) : (Piece.comment (w ++ x)).Open := by
  cases h with
  | comment hbody => exact .comment (not_closed_append hbody hx)

theorem Piece.Open.not_whole (h : (Piece.comment w).Open) : ¬ (Piece.comment w).Whole := by
  cases h with
  | comment hbody =>
    intro hwhole
    cases hwhole
    exact hbody (List.suffix_append _ _).isInfix

theorem paves_open (h : (Piece.comment w).Open) : Paves w [.comment w] := by
  cases h with
  | @comment body hbody =>
    have hnil : afterComment body = [] := by
      rcases afterComment_cases body with ⟨closed, hclosed, -⟩ | ⟨hnil, -⟩
      · exact absurd ⟨closed, afterComment body, by rw [List.append_assoc]; exact hclosed.symm⟩ hbody
      · exact hnil
    exact .comment (by rw [hnil, List.append_nil]) (hnil ▸ .nil)

/-- All comments among the pieces are closed. -/
def Closed (ps : List Piece) : Prop := ∀ w, .comment w ∈ ps → (Piece.comment w).Whole

theorem Closed.of_cons {p : Piece} (h : Closed (p :: ps)) : Closed ps := fun w hw => h w (List.mem_cons_of_mem _ hw)

/-- All comments of a text are closed, or the text ends in a comment. -/
theorem Paves.closed (h : Paves cs ps) :
    Closed ps ∨ ∃ qs w, ps = qs ++ [.comment w] ∧ (Piece.comment w).Open := by
  by_cases hopen : ∃ qs w, ps = qs ++ [.comment w] ∧ (Piece.comment w).Open
  · exact .inr hopen
  · refine .inl fun w hw => ?_
    obtain ⟨before, after, hsplit⟩ := List.append_of_mem hw
    refine (h.whole hsplit).resolve_right ?_
    rintro ⟨rfl, hw⟩
    exact hopen ⟨before, w, hsplit, hw⟩

/-- A comment that is never closed goes on with the text. -/
theorem Paves.append_open (h : Paves cs (ps ++ [.comment w])) (hopen : (Piece.comment w).Open)
    (hbackslash : ∀ t ∈ tokensOf (ps ++ [.comment w]), t ≠ .delim '\\') (hx : Ending x) (hstar : x.head? ≠ some '*')
    (hslash : '/' ∉ x) : Paves (cs ++ x) (ps ++ [.comment (w ++ x)]) :=
  h.append_last hbackslash hx hstar (paves_open (hopen.append hslash))

/-! ## White space -/

/-- White space in front of a text without any is one token. -/
theorem exists_paves_spaces (hw : ∀ c ∈ w, isAsciiSpace c = true) (hx : x.dropWhile isAsciiSpace = x) :
    ∃ qs, (∀ t ∈ tokensOf qs, t = .space) ∧ ∀ rs, Paves x rs → Paves (w ++ x) (qs ++ rs) := by
  cases w with
  | nil => exact ⟨[], nofun, fun rs hrs => hrs⟩
  | cons c w =>
    have hc := hw c List.mem_cons_self
    have hnext : next c (w ++ x) = (.space, x) := by
      rw [next_of_space hc, List.dropWhile_append_of_pos fun d hd => hw d (List.mem_cons_of_mem _ hd), hx]
    have hslash : c ≠ '/' := by
      rintro rfl
      exact absurd hc (by decide)
    exact ⟨[.tile ⟨.space, c :: w⟩], by simp [tokensOf], fun rs => .of_next (not_startsComment hslash _) hnext rfl⟩

/-- White space takes a string that reaches the end of a text no further than itself. -/
theorem takeString_append_suffix (h : (takeString quote cs).2 = []) (hx : ∀ c ∈ x, isAsciiSpace c = true) :
    (takeString quote (cs ++ x)).2 <:+ x := by
  have hending : Ending x := List.append_nil x ▸ Ending.append_space hx .nil
  fun_induction takeString quote cs with
  | case1 => exact takeString_suffix quote x
  | case2 cs =>
    obtain rfl : cs = [] := h
    rw [List.cons_append, takeString_cons, if_pos rfl]
    exact List.suffix_refl x
  | case3 cs => cases h
  | case4 hquote =>
    rw [List.cons_append, List.nil_append, takeString_cons, if_neg hquote, if_neg (by decide), if_pos rfl]
    cases x with
    | nil => exact List.nil_suffix
    | cons d x =>
      dsimp only
      split
      · exact (takeString_suffix quote x).trans (List.suffix_cons d x)
      · exact (takeString_suffix quote _).trans (takeEscape_suffix (d :: x))
  | case5 rest hquote _ ih =>
    rw [List.cons_append, List.cons_append, takeString_cons, if_neg hquote, if_neg (by decide), if_pos rfl]
    exact ih h
  | case6 d ds hd text rest htake hquote _ ih =>
    rw [htake] at ih
    rw [List.cons_append, List.cons_append, takeString_cons, if_neg hquote, if_neg (by decide), if_pos rfl]
    dsimp only
    rw [if_neg hd]
    obtain ⟨x', hx', hfollows⟩ := takeEscape_append hending d ds
    rw [hx']
    dsimp only
    rcases hfollows with rfl | ⟨hnil, e, -, rfl⟩
    · exact ih h
    · rw [hnil]
      exact (takeString_suffix quote x').trans (List.suffix_cons e x')
  | case7 c cs hquote hnewline hbackslash text rest htake ih =>
    rw [htake] at ih
    rw [List.cons_append, takeString_cons, if_neg hquote, if_neg hnewline, if_neg hbackslash]
    exact ih h

/-- A string is read from its quote on. -/
theorem takeString_of_string {text : String} (h : (next c cs).1 = .string text) :
    (c = '"' ∨ c = '\'') ∧ (takeString c cs).1.isSome = true ∧ (next c cs).2 = (takeString c cs).2 := by
  unfold next takeNumeric takeNamed at h ⊢
  dsimp only at h ⊢
  repeat' split at h
  all_goals simp_all

theorem next_of_quote (hquote : c = '"' ∨ c = '\'') (cs : List Char) :
    ∃ t, next c cs = (t, (takeString c cs).2) ∧ (t = .badString ∨ ∃ text, t = .string text) := by
  have hspace : ¬ isAsciiSpace c = true := by rcases hquote with rfl | rfl <;> decide
  have hbeq : (c == '"' || c == '\'') = true := by rcases hquote with rfl | rfl <;> decide
  unfold next
  rw [if_neg hspace, if_pos hbeq]
  generalize takeString c cs = r
  obtain ⟨text, rest⟩ := r
  cases text with
  | none => exact ⟨_, rfl, .inl rfl⟩
  | some text => exact ⟨_, rfl, .inr ⟨_, rfl⟩⟩

/-- White space behind a string that ends a text belongs to the string, or it is one token. -/
theorem exists_paves_string {text : String} (h : Paves w [.tile ⟨.string text, w⟩])
    (hx : ∀ c ∈ x, isAsciiSpace c = true) :
    ∃ rs t spaces, Paves (w ++ x) rs ∧ tokensOf rs = t :: spaces ∧ (t = .badString ∨ ∃ text, t = .string text) ∧
      ∀ t ∈ spaces, t = .space := by
  generalize hp : Piece.tile ⟨.string text, w⟩ = p at h
  cases h with
  | comment => cases hp
  | @tile c cs w' _ hcomment _ hrest =>
    obtain ⟨htoken, -⟩ := Tile.mk.inj (Piece.tile.inj hp)
    obtain ⟨hquote, -, hleft⟩ := takeString_of_string htoken.symm
    have hnil : (takeString c cs).2 = [] := by
      rw [← hleft]
      cases hnext : (next c cs).2 with
      | nil => rfl
      | cons d ds =>
        rw [hnext] at hrest
        cases hrest
    obtain ⟨v, hv⟩ := takeString_append_suffix hnil hx
    obtain ⟨t, ht, hstring⟩ := next_of_quote hquote (cs ++ x)
    generalize (takeString c (cs ++ x)).2 = left at hv ht
    subst hv
    obtain ⟨qs, hspaces, hall⟩ :=
      exists_paves_spaces (w := left) (x := []) (fun d hd => hx d (List.mem_append_right v hd)) rfl
    have hqs := hall [] .nil
    rw [List.append_nil, List.append_nil] at hqs
    have hslash : c ≠ '/' := by rcases hquote with rfl | rfl <;> decide
    exact ⟨.tile ⟨t, c :: cs ++ v⟩ :: qs, t, tokensOf qs, .of_next (not_startsComment hslash _) ht (by simp) hqs, rfl,
      hstring, hspaces⟩

/-! ## Reading -/

/-- **A list is read the same from another text with the same tokens**, apart from white space at the ends. -/
theorem parse_of_kin {text text' : String} {lead trail rest : List Piece} (hparse : Selector.parse text = .ok list)
    (hps : Paves text.toList (lead ++ (ps ++ trail))) (hqs : Paves text'.toList (qs ++ rest)) (hkin : Kin ps qs)
    (hlead : ∀ t ∈ tokensOf lead, t = .space) (htrail : ∀ t ∈ tokensOf trail, t = .space)
    (hrest : tokensOf rest = []) : Selector.parse text' = .ok list := by
  have hspace {ps : List Piece} (hps : ∀ t ∈ tokensOf ps, t = .space) (offset : Nat) :
      ∀ l ∈ lay offset ps, l.token = .space := fun l hl => hps _ (by
    rw [← map_token_lay offset ps]
    exact List.mem_map_of_mem hl)
  have htwin := twin_lay hkin (textOfPieces lead) (textOfPieces trail) [] (textOfPieces rest)
  rw [← textOfPieces_append, ← textOfPieces_append, hps.text, ← textOfPieces_append, List.nil_append, hqs.text] at htwin
  have hnil (offset : Nat) : lay offset rest = [] := by
    rw [← List.map_eq_nil_iff, map_token_lay, hrest]
  obtain ⟨depth, hlist⟩ := listing_of_parse hparse hps
  rw [lay_append, lay_append, List.append_assoc, List.append_assoc, Nat.zero_add] at hlist
  have hlist' := hlist.of_spaces (hspace hlead 0)
  rw [Selector.parse, lex, lexFrom_of_paves hqs, lay_append, hnil, List.append_nil, Nat.zero_add]
  let c : Cut := ⟨text.toList, text'.toList, [endAt (byteLength text.toList)], [endAt (byteLength text'.toList)],
    (lay 0 qs ++ [endAt (byteLength text'.toList)]).length, .inr rfl, .inr rfl⟩
  have hnested : c.Agree (takeNested c.source depth) (takeNested c.piece c.bound) :=
    ⟨readsBalanced_takeNested _ _, readsBalanced_takeNested _ _,
      fun _ _ _ hlt htwin hvs hread => takeNested_of_twin htwin hvs hlt hread⟩
  have hnear : c.Near (lay (byteLength (textOfPieces lead)) ps ++ (lay (byteLength (textOfPieces lead) +
      byteLength (textOfPieces ps)) trail ++ c.stop)) (lay 0 qs ++ c.stop') :=
    ⟨Nat.le_refl _, _, _, _, rfl, rfl, hspace htrail _, htwin⟩
  exact takeAll_of_listing hnested.balanced' rfl (hnear.listing hnested hlist')

/-- **A comment at the end of a list may go on.** -/
theorem parse_append_open {text x : String} (hparse : Selector.parse text = .ok list)
    (hps : Paves text.toList (ps ++ [.comment w])) (hopen : (Piece.comment w).Open) (hx : Ending x.toList)
    (hstar : x.toList.head? ≠ some '*') (hslash : '/' ∉ x.toList) : Selector.parse (text ++ x) = .ok list := by
  have hbackslash (t : Token) (ht : t ∈ tokensOf (ps ++ [.comment w])) : t ≠ .delim '\\' :=
    ((orderly_of_parse hparse hps).whole t ht).1
  have hqs := hps.append_open hopen hbackslash hx hstar hslash
  rw [← String.toList_append] at hqs
  exact parse_of_kin hparse (show Paves _ ([] ++ (ps ++ [.comment w])) from hps) hqs (Kin.refl ps) nofun nofun rfl

/-- Trimming takes from the ends of a text what the lexer takes for white space: characters of ASCII, and none of them
from behind a backslash. -/
def trimsSpace (cs : List Char) : Bool :=
  (cs.takeWhile isBlank).all isAsciiSpace && ((trimStart cs).reverse.takeWhile isBlank).all isAsciiSpace &&
    (tokensOf (pieces (trim cs))).all fun
      | .delim c => c != '\\'
      | _ => true

theorem exists_of_trimsSpace (h : trimsSpace cs = true) :
    ∃ lead trail, cs = lead ++ (trim cs ++ trail) ∧ (∀ c ∈ lead, isAsciiSpace c = true) ∧
      (∀ c ∈ trail, isAsciiSpace c = true) ∧ (trim cs ++ trail).dropWhile isAsciiSpace = trim cs ++ trail ∧
      ∀ t ∈ tokensOf (pieces (trim cs)), t ≠ .delim '\\' := by
  rw [trimsSpace, Bool.and_eq_true, Bool.and_eq_true, List.all_eq_true, List.all_eq_true, List.all_eq_true] at h
  obtain ⟨⟨hlead, htrail⟩, hbackslash⟩ := h
  have hcore : trimStart cs = trim cs ++ ((trimStart cs).reverse.takeWhile isBlank).reverse := by
    rw [trim, trimEnd, ← List.reverse_append, List.takeWhile_append_dropWhile, List.reverse_reverse]
  refine ⟨_, _, ?_, hlead, fun c hc => htrail c (List.mem_reverse.1 hc), ?_, fun t ht => ?_⟩
  · rw [← hcore]
    exact List.takeWhile_append_dropWhile.symm
  · rw [← hcore]
    obtain ⟨-, -, -, hflush⟩ := exists_trimStart cs
    cases hstart : trimStart cs with
    | nil => rfl
    | cons c rest =>
      refine List.dropWhile_cons_of_neg fun hc => ?_
      have hblank := hflush c (by rw [hstart]; rfl)
      rw [isBlank_of_isAsciiSpace hc] at hblank
      cases hblank
  · rintro rfl
    exact absurd (hbackslash _ ht) (by decide)

/-- **White space at the ends of a list may be trimmed.** -/
theorem parse_trim {text : String} (hparse : Selector.parse text = .ok list) (hps : Paves text.toList ps)
    (hclosed : Closed ps) (htrims : trimsSpace text.toList = true) :
    Selector.parse (String.ofList (trim text.toList)) = .ok list := by
  have horderly := orderly_of_parse hparse hps
  obtain ⟨lead, trail, hsplit, hlead, htrail, hflush, hbackslash⟩ := exists_of_trimsSpace htrims
  obtain ⟨ls, hls, hall⟩ := exists_paves_spaces hlead hflush
  rw [← hsplit] at hall
  have hqs := paves_pieces (trim text.toList)
  generalize trim text.toList = core at *
  generalize pieces core = qs at *
  have hending : Ending trail := List.append_nil trail ▸ Ending.append_space htrail .nil
  have hstar : trail.head? ≠ some '*' := fun h => absurd (htrail '*' (List.mem_of_head? h)) (by decide)
  have hfirm : Firm qs := by
    refine firm_of_pieces hbackslash (fun w hw => ?_) fun before p hlast text' htoken => ?_
    · obtain ⟨before, after, rfl⟩ := List.append_of_mem hw
      refine (hqs.whole rfl).resolve_right ?_
      rintro ⟨rfl, hopen⟩
      -- a comment that is open in what is left is open in the text
      have hslash : '/' ∉ trail := fun h => absurd (htrail '/' h) (by decide)
      have hwhole := hps.unique (hall _ (hqs.append_open hopen hbackslash hending hstar hslash))
      exact (hopen.append hslash).not_whole (hclosed _ (by rw [hwhole]; simp))
    · obtain rfl := hlast
      obtain ⟨token, w⟩ := p
      obtain rfl : token = .string text' := htoken
      -- and no list ends with a string
      have hstring := hqs.right
      rw [textOfPieces_cons, textOfPieces_nil, List.append_nil] at hstring
      obtain ⟨rs, t, spaces, hrs, htokens, ht, hspaces⟩ := exists_paves_string hstring htrail
      obtain rfl := hps.unique (hall _ (hqs.append_last hbackslash hending hstar hrs))
      rw [tokensOf_append, tokensOf_append, htokens, ← List.append_assoc] at horderly
      rcases ht with rfl | ⟨text', rfl⟩
      · exact (horderly.whole .badString (by simp)).2 rfl
      · cases hspaces _ (horderly.string _ _ _ rfl)
  obtain ⟨qs', v, x', hkin, rfl, -, happend⟩ := hqs.append hfirm hending hstar
  obtain ⟨ts, hts, hspaces⟩ :=
    exists_paves_spaces (x := []) (fun c hc => htrail c (List.mem_append_right v hc)) rfl
  have hend := hspaces [] .nil
  rw [List.append_nil, List.append_nil] at hend
  obtain rfl := hps.unique (hall _ (happend _ hend))
  refine parse_of_kin hparse hps ?_ hkin.symm hls hts (show tokensOf [] = [] from rfl)
  rw [String.toList_ofList, List.append_nil]
  exact hqs

end LiveMarkup.Css
