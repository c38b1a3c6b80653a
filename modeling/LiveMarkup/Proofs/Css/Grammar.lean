/-
The tokens of a selector list.

In a list that is read every colon stands before the name of a pseudo-class, no backslash stands alone, no string is cut
off and a bracket is closed behind each of them (`orderly_of_parse`). The positions of a pseudo-class are read from their text and
not from their tokens, so for them this is a fact about the characters.
-/
import LiveMarkup.Proofs.Css.Agreement
import LiveMarkup.Proofs.Css.Pieces

set_option autoImplicit false

namespace LiveMarkup.Css

open Text Selector

variable {c : Char} {cs source w : List Char} {ps : List Piece} {us vs : List Lexeme} {l : Lexeme} {t : Token}
variable {ts ts' : List Token} {commas : Bool} {name : String}

/-! ## Order -/

/-- Tokens in the order of a list that is read. -/
structure Orderly (ts : List Token) : Prop where
  /-- A colon stands before the name of a pseudo-class. -/
  colon : ∀ before after, ts = before ++ .colon :: after → ∃ t rest name, after = t :: rest ∧
    (t = .ident name ∨ t = .function name) ∧ name.toLower ∈ pseudoNames
  whole : ∀ t ∈ ts, t ≠ .delim '\\' ∧ t ≠ .badString
  /-- A bracket is closed behind a string. -/
  string : ∀ before text after, ts = before ++ .string text :: after → .closeBracket ∈ after

/-- The last token is no string. -/
theorem Orderly.last (h : Orderly ts) (before : List Token) (text : String) : ts ≠ before ++ [.string text] :=
  fun hsplit => nomatch h.string before text [] hsplit

theorem Orderly.append (h : Orderly ts) (h' : Orderly ts') : Orderly (ts ++ ts') where
  colon before after hsplit := by
    rcases exists_of_append_eq hsplit with ⟨rest, hts, rfl⟩ | ⟨before', hts'⟩
    · obtain ⟨t, rest', name, rfl, ht⟩ := h.colon before rest hts
      exact ⟨t, rest' ++ ts', name, rfl, ht⟩
    · exact h'.colon before' after hts'
  whole t ht := (List.mem_append.1 ht).elim (h.whole t) (h'.whole t)
  string before text after hsplit := by
    rcases exists_of_append_eq hsplit with ⟨rest, hts, rfl⟩ | ⟨before', hts'⟩
    · exact List.mem_append_left _ (h.string before text rest hts)
    · exact h'.string before' text after hts'

/-- A token that can stand anywhere. -/
structure Token.Free (t : Token) : Prop where
  ne_colon : t ≠ .colon
  ne_backslash : t ≠ .delim '\\'
  ne_badString : t ≠ .badString
  ne_string : ∀ text, t ≠ .string text

theorem orderly_of_free (h : ∀ t ∈ ts, t.Free) : Orderly ts where
  colon before after hsplit := absurd rfl (h .colon (by simp [hsplit])).ne_colon
  whole t ht := ⟨(h t ht).ne_backslash, (h t ht).ne_badString⟩
  string before text after hsplit := absurd rfl ((h (.string text) (by simp [hsplit])).ne_string text)

theorem Selector.Loose.free (h : Loose t) : t.Free := by
  cases h with
  | delim hc => exact ⟨nofun, fun heq => hc (Token.delim.inj heq), nofun, fun _ => nofun⟩
  | _ => exact ⟨nofun, nofun, nofun, fun _ => nofun⟩

/-- Strings stand in brackets. -/
theorem orderly_bracketed (h : ∀ t ∈ ts, Inner t) : Orderly (.openBracket :: (ts ++ [.closeBracket])) where
  colon before after hsplit := by
    have hcolon : Token.colon ∈ Token.openBracket :: (ts ++ [.closeBracket]) := by simp [hsplit]
    have hmem : Token.colon ∈ ts := by simpa using hcolon
    cases h _ hmem with
    | loose h => exact absurd rfl h.free.ne_colon
  whole t ht := by
    rcases List.mem_cons.1 ht with rfl | ht
    · exact ⟨nofun, nofun⟩
    rcases List.mem_append.1 ht with ht | ht
    · cases h t ht with
      | loose h => exact ⟨h.free.ne_backslash, h.free.ne_badString⟩
      | string => exact ⟨nofun, nofun⟩
    · rw [List.mem_singleton.1 ht]
      exact ⟨nofun, nofun⟩
  string before text after hsplit := by
    rcases List.eq_nil_or_concat' after with rfl | ⟨after, t, rfl⟩
    · have hlast := (List.append_inj' (show (Token.openBracket :: ts) ++ [Token.closeBracket] = _ from hsplit) rfl).2
      cases hlast
    · have hlast : (Token.openBracket :: ts) ++ [.closeBracket] = (before ++ .string text :: after) ++ [t] := by
        simpa using hsplit
      obtain ⟨rfl, -⟩ := List.cons.inj (List.append_inj' hlast rfl).2
      exact List.mem_append_right _ List.mem_cons_self

theorem orderly_colon (ht : t = .ident name ∨ t = .function name) (hname : name.toLower ∈ pseudoNames) :
    Orderly [.colon, t] where
  colon before after hsplit := by
    have hne : t ≠ .colon := by rcases ht with rfl | rfl <;> exact nofun
    cases before with
    | nil => exact ⟨t, [], name, (List.cons.inj hsplit).2.symm, ht, hname⟩
    | cons b before =>
      have hmem : Token.colon ∈ [t] := by simp [(List.cons.inj hsplit).2]
      exact absurd (List.mem_singleton.1 hmem).symm hne
  whole u hu := by
    rcases List.mem_cons.1 hu with rfl | hu
    · exact ⟨nofun, nofun⟩
    · rw [List.mem_singleton.1 hu]
      rcases ht with rfl | rfl <;> exact ⟨nofun, nofun⟩
  string before text after hsplit := by
    have hmem : Token.string text ∈ [.colon, t] := by simp [hsplit]
    simp only [List.mem_cons, List.not_mem_nil, or_false, reduceCtorEq, false_or] at hmem
    rcases ht with rfl | rfl <;> cases hmem

/-! ## The characters of tokens -/

/-- A token that is not free starts with its own character. -/
theorem mem_of_not_free (h : ¬ (next c cs).1.Free) : c ∈ [':', '\\', '"', '\''] := by
  by_contra hc
  simp only [List.mem_cons, List.not_mem_nil, or_false, not_or] at hc
  refine h ⟨?_, ?_, ?_, ?_⟩
  all_goals
    unfold next takeNumeric takeNamed
    dsimp only
    repeat' split
  all_goals simp_all

/-- Tokens of a text, in order and each where it was read. -/
structure Row (source : List Char) (us : List Lexeme) : Prop where
  ordered : us.Pairwise fun l m => l.span.before m.span
  reads : ∀ l ∈ us, ∃ c cs w, l.token = (next c cs).1 ∧ slice? source l.span.start l.span.stop = some (c :: w)

theorem Row.sublist (h : Row source vs) (hsub : us.Sublist vs) : Row source us :=
  ⟨h.ordered.sublist hsub, fun l hl => h.reads l (hsub.subset hl)⟩

theorem Row.left (h : Row source (us ++ vs)) : Row source us := h.sublist (List.sublist_append_left us vs)

theorem Row.right (h : Row source (us ++ vs)) : Row source vs := h.sublist (List.sublist_append_right us vs)

theorem Row.tail (h : Row source (l :: us)) : Row source us := h.sublist (List.sublist_cons_self l us)

theorem Row.start_le (h : Row source us) (hl : l ∈ us) : l.span.start ≤ l.span.stop := by
  obtain ⟨c, cs, w, -, hslice⟩ := h.reads l hl
  obtain ⟨head, tail, -, hstart, hstop⟩ := exists_of_slice? hslice
  omega

/-- **The text of tokens holds what each of them was read from.** -/
theorem Row.mem_textOf (h : Row source us) (hl : l ∈ us) (htext : textOf source us ≠ []) :
    ∃ c cs, l.token = (next c cs).1 ∧ c ∈ textOf source us := by
  obtain ⟨c, cs, w, htoken, hslice⟩ := h.reads l hl
  refine ⟨c, cs, htoken, ?_⟩
  obtain ⟨first, rest, hfirst⟩ := List.exists_cons_of_ne_nil (List.ne_nil_of_mem hl)
  obtain ⟨init, last, hlast⟩ := (List.eq_nil_or_concat' us).resolve_left (List.ne_nil_of_mem hl)
  have hstart : first.span.start ≤ l.span.start := by
    have hle := h.start_le (l := first) (by simp [hfirst])
    have hordered := h.ordered
    rw [hfirst] at hl hordered
    rcases List.mem_cons.1 hl with rfl | hl
    · exact Nat.le_refl _
    · exact Nat.le_trans hle (List.rel_of_pairwise_cons hordered hl)
  have hstop : l.span.stop ≤ last.span.stop := by
    have hle := h.start_le (l := last) (by simp [hlast])
    have hordered := h.ordered
    rw [hlast] at hl hordered
    rcases List.mem_append.1 hl with hl | hl
    · exact Nat.le_trans ((List.pairwise_append.1 hordered).2.2 l hl last List.mem_cons_self) hle
    · rw [List.mem_singleton.1 hl]
  have hhead : us.head? = some first := by rw [hfirst]; rfl
  have hgetLast : us.getLast? = some last := by rw [hlast]; simp
  unfold textOf at htext ⊢
  rw [hhead, hgetLast] at htext ⊢
  dsimp only at htext ⊢
  cases houter : slice? source first.span.start last.span.stop with
  | none =>
    rw [houter] at htext
    exact absurd rfl htext
  | some v => exact (isInfix_of_slice? hslice houter hstart hstop).subset List.mem_cons_self

/-- What positions are read from holds free tokens only. -/
theorem Row.free_of_positions {n : Nth} (h : Row source us) (hn : Nth.parse? (textOf source us) = some n) :
    ∀ l ∈ us, l.token.Free := by
  intro l hl
  have htext : textOf source us ≠ [] := fun hnil => by
    rw [hnil] at hn
    cases hn
  obtain ⟨c, cs, htoken, hc⟩ := h.mem_textOf hl htext
  by_contra hfree
  rw [htoken] at hfree
  have hform := isForm_of_positions hn c hc
  have hsign := mem_of_not_free hfree
  simp only [List.mem_cons, List.not_mem_nil, or_false] at hsign
  rcases hsign with rfl | rfl | rfl | rfl <;> exact absurd hform (by decide)

/-- **Balanced tokens are in order.** -/
theorem orderly_of_balanced (h : Balanced source commas us) (hrow : Row source us) :
    Orderly (us.map (·.token)) := by
  have hone {l : Lexeme} {us : List Lexeme} (hl : l.token.Free) (hus : Orderly (us.map (·.token))) :
      Orderly ((l :: us).map (·.token)) :=
    (show Orderly [l.token] from orderly_of_free (List.forall_mem_singleton.2 hl)).append hus
  induction h with
  | nil => exact orderly_of_free (by simp)
  | loose hl _ ih => exact hone hl.free (ih hrow.tail)
  | comma hl _ ih => exact hone (by rw [hl]; exact ⟨nofun, nofun, nofun, fun _ => nofun⟩) (ih hrow.tail)
  | positions hn _ _ ih =>
    rw [List.map_append]
    exact (orderly_of_free (List.forall_mem_map.2 (hrow.left.free_of_positions hn))).append (ih hrow.right)
  | @bracketed _ l r us ts hl hus hr _ ih =>
    have hsplit : (l :: (us ++ r :: ts)).map (·.token) =
        (.openBracket :: (us.map (·.token) ++ [.closeBracket])) ++ ts.map (·.token) := by simp [hl, hr]
    rw [hsplit]
    exact (orderly_bracketed (List.forall_mem_map.2 hus)).append (ih hrow.tail.right.tail)
  | @pseudo _ c l name ts hc hl hname _ ih =>
    have hsplit : (c :: l :: ts).map (·.token) = [.colon, .ident name] ++ ts.map (·.token) := by simp [hc, hl]
    rw [hsplit]
    exact (orderly_colon (.inl rfl) hname).append (ih hrow.tail.tail)
  | @function _ c l r name us ts hc hl hname _ hr _ ihArguments ih =>
    have hsplit : (c :: l :: (us ++ r :: ts)).map (·.token) =
        [.colon, .function name] ++ (us.map (·.token) ++ (r :: ts).map (·.token)) := by simp [hc, hl]
    have hfree : r.token.Free := by
      constructor <;> intros <;> intro heq <;> rw [heq] at hr <;> cases hr
    rw [hsplit]
    exact (orderly_colon (.inr rfl) hname).append
      ((ihArguments hrow.tail.tail.left).append (hone hfree (ih hrow.tail.tail.right.tail)))

/-! ## Lists -/

/-- A token among pieces was read where its text starts. -/
theorem Paves.exists_next (h : Paves cs ps) {p : Tile} (hp : .tile p ∈ ps) :
    ∃ c ds w, p.token = (next c ds).1 ∧ p.text = c :: w := by
  induction h with
  | nil => cases hp
  | comment _ _ ih =>
    rcases List.mem_cons.1 hp with hp | hp
    · cases hp
    · exact ih hp
  | @tile c cs w ps _ hw _ ih =>
    rcases List.mem_cons.1 hp with hp | hp
    · obtain rfl := Piece.tile.inj hp
      obtain ⟨v, hv⟩ := next_suffix c cs
      have htext : w ++ (next c cs).2 = (c :: v) ++ (next c cs).2 := by rw [← hw, List.cons_append, hv]
      exact ⟨c, cs, v, rfl, List.append_cancel_right htext⟩
    · exact ih hp

theorem Paves.row (h : Paves cs ps) : Row cs (lay 0 ps) where
  ordered := pairwise_lay 0 ps
  reads l hl := by
    obtain ⟨p, hp, htoken, -, hslice⟩ := exists_tile_of_mem_lay (show l ∈ lay (byteLength []) ps from hl)
    obtain ⟨c, ds, w, hnext, htext⟩ := h.exists_next hp
    rw [List.nil_append, h.text, htext] at hslice
    exact ⟨c, ds, w, htoken.trans hnext, hslice⟩

/-- What is read as a list is one, up to the end of the text. -/
theorem listing_of_parse {text : String} {list : SelectorList} (hparse : Selector.parse text = .ok list)
    (hps : Paves text.toList ps) :
    ∃ depth, Listing text.toList (takeNested text.toList depth) [endAt (byteLength text.toList)]
      (lay 0 ps ++ [endAt (byteLength text.toList)]) list := by
  rw [Selector.parse, lex, lexFrom_of_paves hps, Nat.zero_add] at hparse
  obtain ⟨stop, hstop, hlist⟩ := exists_listing hparse
  obtain ⟨us, hus, hbalanced⟩ := hlist.takes (readsBalanced_takeNested _ _)
  have hend (l : Lexeme) (hl : l ∈ lay 0 ps) : l.token ≠ .endOfInput := by
    obtain ⟨c, cs, w, htoken, -⟩ := hps.row.reads l hl
    rw [htoken]
    exact next_ne_end c cs
  obtain ⟨-, rfl⟩ := eq_of_append_endAt hend hbalanced.not_end hus hstop
  exact ⟨_, hlist⟩

/-- **The tokens of a list that is read are in order.** -/
theorem orderly_of_parse {text : String} {list : SelectorList} (hparse : Selector.parse text = .ok list)
    (hps : Paves text.toList ps) : Orderly (tokensOf ps) := by
  obtain ⟨depth, hlist⟩ := listing_of_parse hparse hps
  obtain ⟨us, hus, hbalanced⟩ := hlist.takes (readsBalanced_takeNested _ _)
  obtain rfl := List.append_cancel_right hus
  rw [← map_token_lay 0 ps]
  exact orderly_of_balanced hbalanced hps.row

end LiveMarkup.Css
