/-
Reading a part of a selector list again.

A piece of a selector list has the tokens that the list has in its place, but for white space at the ends. So the
parser, which stops at commas, reads the same from it (`takeAll_of_listing`). The two readings go side by side: what
is still to be read in the list, up to where the piece stops, is what is still to be read in the piece (`Cut.Near`).
-/
import LiveMarkup.Proofs.Css.Splitting
import LiveMarkup.Proofs.Css.Pieces

set_option autoImplicit false

namespace LiveMarkup.Css

/-- What ends a complex selector, and white space. -/
def Token.isIdle : Token → Bool
  | .space | .comma | .endOfInput => true
  | _ => false

namespace Selector

open Text

variable {source piece : List Char} {ts us vs ts' us' r : List Lexeme} {l : Lexeme} {t : Token}

/-! ## The same tokens in two texts -/

/-- Tokens of two texts in pairs: the same tokens, and the same texts from one to another. -/
structure Aligned (source piece : List Char) (zs : List (Lexeme × Lexeme)) : Prop where
  token_eq : ∀ z ∈ zs, z.2.token = z.1.token
  slice_eq : ∀ z ∈ zs, ∀ z' ∈ zs,
    slice? source z.1.span.start z'.1.span.stop = slice? piece z.2.span.start z'.2.span.stop

/-- The same tokens, read from the same texts. -/
def Same (source piece : List Char) (us us' : List Lexeme) : Prop :=
  ∃ zs, us = zs.map (·.1) ∧ us' = zs.map (·.2) ∧ Aligned source piece zs

/-- The same tokens, read from the same texts but for that of the last one. -/
inductive Twin (source piece : List Char) : List Lexeme → List Lexeme → Prop
  | same {us us' : List Lexeme} : Same source piece us us' → Twin source piece us us'
  | last {us us' : List Lexeme} {l l' : Lexeme} : Same source piece us us' → l'.token = l.token →
    Twin source piece (us ++ [l]) (us' ++ [l'])

theorem Aligned.subset {ys zs : List (Lexeme × Lexeme)} (h : Aligned source piece zs) (hsub : ys ⊆ zs) :
    Aligned source piece ys :=
  ⟨fun z hz => h.token_eq z (hsub hz), fun z hz z' hz' => h.slice_eq z (hsub hz) z' (hsub hz')⟩

theorem same_nil : Same source piece [] [] := ⟨[], rfl, rfl, by simp, by simp⟩

theorem Same.textOf_eq (h : Same source piece us us') : textOf source us = textOf piece us' := by
  obtain ⟨zs, rfl, rfl, hzs⟩ := h
  rw [textOf, textOf, List.head?_map, List.head?_map, List.getLast?_map, List.getLast?_map]
  cases hfirst : zs.head? with
  | none => rfl
  | some first =>
    cases hlast : zs.getLast? with
    | none => rfl
    | some last =>
      have hslice := hzs.slice_eq first (List.mem_of_head? hfirst) last (List.mem_of_getLast? hlast)
      exact congrArg (·.getD []) hslice

theorem Same.of_nil (h : Same source piece [] us') : us' = [] := by
  obtain ⟨zs, hnil, rfl, -⟩ := h
  rw [List.map_eq_nil_iff.1 hnil.symm]
  rfl

theorem Same.of_append (h : Same source piece (us ++ vs) ts') :
    ∃ us' vs', ts' = us' ++ vs' ∧ Same source piece us us' ∧ Same source piece vs vs' := by
  obtain ⟨zs, hsplit, rfl, hzs⟩ := h
  obtain ⟨xs, ys, rfl, rfl, rfl⟩ := List.map_eq_append_iff.1 hsplit.symm
  exact ⟨_, _, List.map_append, ⟨xs, rfl, rfl, hzs.subset (List.subset_append_left xs ys)⟩,
    ys, rfl, rfl, hzs.subset (List.subset_append_right xs ys)⟩

theorem Same.of_cons (h : Same source piece (l :: us) ts') :
    ∃ l' us', ts' = l' :: us' ∧ l'.token = l.token ∧ Same source piece us us' := by
  obtain ⟨zs, hcons, rfl, hzs⟩ := h
  obtain ⟨z, zs, rfl, rfl, rfl⟩ := List.map_eq_cons_iff.1 hcons.symm
  exact ⟨_, _, List.map_cons, hzs.token_eq z List.mem_cons_self, zs, rfl, rfl,
    hzs.subset (List.subset_cons_self z zs)⟩

theorem Twin.of_nil (h : Twin source piece [] us') : us' = [] := by
  generalize hnil : [] = us at h
  cases h with
  | same h =>
    subst hnil
    exact h.of_nil
  | last => exact absurd hnil (by simp)

/-- **What stands before a token has the same text.** -/
theorem Twin.of_append_cons (h : Twin source piece (us ++ l :: vs) ts') :
    ∃ us' l' vs', ts' = us' ++ l' :: vs' ∧ Same source piece us us' ∧ l'.token = l.token ∧
      Twin source piece vs vs' := by
  generalize hts : us ++ l :: vs = ts at h
  cases h with
  | same h =>
    obtain ⟨us', ws', rfl, hus, hws⟩ := (hts ▸ h).of_append
    obtain ⟨l', vs', rfl, hl, hvs⟩ := hws.of_cons
    exact ⟨us', l', vs', rfl, hus, hl, .same hvs⟩
  | @last ws ws' m m' hws hm =>
    rcases List.eq_nil_or_concat' vs with rfl | ⟨vs, x, rfl⟩
    · obtain ⟨rfl, hlast⟩ := List.append_inj' hts rfl
      obtain ⟨rfl, -⟩ := List.cons.inj hlast
      exact ⟨ws', m', [], rfl, hws, hm, .same same_nil⟩
    · rw [← List.cons_append, ← List.append_assoc] at hts
      obtain ⟨rfl, hlast⟩ := List.append_inj' hts rfl
      obtain ⟨rfl, -⟩ := List.cons.inj hlast
      obtain ⟨us', xs', rfl, hus, hxs⟩ := hws.of_append
      obtain ⟨l', vs', rfl, hl, hvs⟩ := hxs.of_cons
      exact ⟨us', l', vs' ++ [m'], by simp, hus, hl, .last hvs hm⟩

theorem Twin.of_cons (h : Twin source piece (l :: us) ts') :
    ∃ l' us', ts' = l' :: us' ∧ l'.token = l.token ∧ Twin source piece us us' := by
  obtain ⟨us', l', vs', rfl, hus', hl', htwin⟩ := (show Twin source piece ([] ++ l :: us) ts' from h).of_append_cons
  obtain rfl := hus'.of_nil
  exact ⟨l', vs', rfl, hl', htwin⟩

/-! ## Places of the same tokens -/

/-- A lexeme of a text that stands behind an offset. -/
def shift (offset : Nat) (l : Lexeme) : Lexeme := ⟨l.token, ⟨offset + l.span.start, offset + l.span.stop⟩⟩

theorem lay_add (offset start : Nat) (ps : List Piece) : lay (offset + start) ps = (lay start ps).map (shift offset) := by
  induction ps generalizing start with
  | nil => rfl
  | cons p ps ih =>
    cases p with
    | comment w => rw [lay, lay, Nat.add_assoc, ih]
    | tile p =>
      rw [lay, lay, Nat.add_assoc, ih]
      rfl

/-- Pieces give the same tokens wherever they stand. -/
theorem same_lay (before after before' after' : List Char) (ps : List Piece) :
    Same (before ++ (textOfPieces ps ++ after)) (before' ++ (textOfPieces ps ++ after'))
      (lay (byteLength before) ps) (lay (byteLength before') ps) := by
  refine ⟨(lay 0 ps).map fun l => (shift (byteLength before) l, shift (byteLength before') l), ?_, ?_, ?_, ?_⟩
  · rw [List.map_map]
    exact lay_add (byteLength before) 0 ps
  · rw [List.map_map]
    exact lay_add (byteLength before') 0 ps
  · exact List.forall_mem_map.2 fun l _ => rfl
  · refine List.forall_mem_map.2 fun l _ => List.forall_mem_map.2 fun l' hl' => ?_
    have hstop := stop_le_of_mem_lay hl'
    rw [Nat.zero_add] at hstop
    exact (slice?_around before after hstop).trans (slice?_around before' after' hstop).symm

theorem twin_lay {ps qs : List Piece} (h : Kin ps qs) (before after before' after' : List Char) :
    Twin (before ++ (textOfPieces ps ++ after)) (before' ++ (textOfPieces qs ++ after'))
      (lay (byteLength before) ps) (lay (byteLength before') qs) := by
  rcases h.cases with rfl | ⟨rs, p, q, rfl, rfl, htoken⟩
  · exact .same (same_lay before after before' after' ps)
  · have hsame := same_lay before (p.text ++ after) before' (q.text ++ after') rs
    have htext (p : Tile) (x : List Char) : textOfPieces (rs ++ [.tile p]) ++ x = textOfPieces rs ++ (p.text ++ x) := by
      simp [textOfPieces_append, Piece.text]
    rw [lay_append, lay_append, htext, htext]
    exact .last hsame htoken.symm

/-- The tokens begin with what ends a complex selector. -/
def Ends (ts : List Lexeme) : Prop := peek ts = .comma ∨ peek ts = .endOfInput

/-- A text, and a piece of it that is read again. -/
structure Cut where
  source : List Char
  piece : List Char
  /-- The tokens of the text where the piece is left. -/
  stop : List Lexeme
  /-- The tokens of the piece where it ends. -/
  stop' : List Lexeme
  /-- No more tokens than these are read in the piece. -/
  bound : Nat
  ends : Ends stop
  ends' : Ends stop'

variable {c : Cut} {bound : Nat}

/-- What is still to be read in the text, up to where the piece is left, is what is still to be read in the piece. -/
structure Cut.Near (c : Cut) (ts ts' : List Lexeme) : Prop where
  length_le : ts'.length ≤ c.bound
  parts : ∃ us spaces us', ts = us ++ (spaces ++ c.stop) ∧ ts' = us' ++ c.stop' ∧ (∀ l ∈ spaces, l.token = .space) ∧
    Twin c.source c.piece us us'

theorem Ends.isIdle (h : Ends ts) : (peek ts).isIdle = true := by
  rcases h with h | h <;> rw [h] <;> rfl

theorem skipSpace_of_space (h : l.token = .space) (ts : List Lexeme) : skipSpace (l :: ts) = skipSpace ts := by
  rw [skipSpace, h]

theorem skipSpace_of_ne (h : peek ts ≠ .space) : skipSpace ts = ts := by
  cases ts with
  | nil => rfl
  | cons l ts =>
    rw [skipSpace]
    split
    · exact absurd ‹_› h
    · rfl

theorem Ends.skipSpace (h : Ends ts) : skipSpace ts = ts := by
  refine skipSpace_of_ne fun hspace => ?_
  rcases h with h | h <;> rw [h] at hspace <;> cases hspace

theorem skipSpace_append (h : ∀ l ∈ us, l.token = .space) (ts : List Lexeme) : skipSpace (us ++ ts) = skipSpace ts := by
  induction us with
  | nil => rfl
  | cons l us ih =>
    rw [List.cons_append, skipSpace_of_space (h l List.mem_cons_self)]
    exact ih fun x hx => h x (List.mem_cons_of_mem _ hx)

namespace Cut.Near

/-- **The next token is the same**, unless nothing but white space is left. -/
theorem step (h : c.Near ts ts') :
    (peek ts' = peek ts ∧ c.Near ts.tail ts'.tail) ∨ ((peek ts).isIdle = true ∧ (peek ts').isIdle = true) := by
  obtain ⟨hbound, us, spaces, us', rfl, rfl, hspaces, htwin⟩ := h
  cases us with
  | nil =>
    obtain rfl := htwin.of_nil
    refine .inr ⟨?_, c.ends'.isIdle⟩
    cases spaces with
    | nil => exact c.ends.isIdle
    | cons l spaces =>
      have hl : peek ([] ++ (l :: spaces ++ c.stop)) = .space := hspaces l List.mem_cons_self
      rw [hl]
      rfl
  | cons l us =>
    obtain ⟨l', us', rfl, hl', htail⟩ := htwin.of_cons
    refine .inl ⟨hl', ?_, us, spaces, us', rfl, rfl, hspaces, htail⟩
    exact Nat.le_trans (Nat.le_succ _) hbound

theorem of_peek (h : c.Near ts ts') (hpeek : peek ts = t) (ht : t.isIdle = false) :
    peek ts' = t ∧ c.Near ts.tail ts'.tail := by
  rcases h.step with ⟨heq, htail⟩ | ⟨hidle, -⟩
  · exact ⟨heq.trans hpeek, htail⟩
  · rw [hpeek, ht] at hidle
    cases hidle

theorem peek_eq (h : c.Near ts ts') (hpeek : peek ts' = t) (ht : t.isIdle = false) : peek ts = t := by
  rcases h.step with ⟨heq, -⟩ | ⟨-, hidle⟩
  · rw [← heq, hpeek]
  · rw [hpeek, ht] at hidle
    cases hidle

protected theorem skipSpace (h : c.Near ts ts') : c.Near (skipSpace ts) (skipSpace ts') := by
  obtain ⟨hbound, us, spaces, us', rfl, rfl, hspaces, htwin⟩ := h
  induction us generalizing us' with
  | nil =>
    obtain rfl := htwin.of_nil
    rw [List.nil_append, skipSpace_append hspaces, c.ends.skipSpace]
    rw [List.nil_append, c.ends'.skipSpace]
    exact ⟨hbound, [], [], [], rfl, rfl, by simp, htwin⟩
  | cons l us ih =>
    obtain ⟨l', us', rfl, hl', htail⟩ := htwin.of_cons
    by_cases hl : l.token = .space
    · rw [List.cons_append, List.cons_append, skipSpace_of_space hl, skipSpace_of_space (hl'.trans hl)]
      exact ih us' (Nat.le_trans (Nat.le_succ _) hbound) htail
    · have hne : peek (l :: us ++ (spaces ++ c.stop)) ≠ .space := hl
      have hne' : peek (l' :: us' ++ c.stop') ≠ .space := fun hspace => hl (hl'.symm.trans hspace)
      rw [skipSpace_of_ne hne, skipSpace_of_ne hne']
      exact ⟨hbound, l :: us, spaces, l' :: us', rfl, rfl, hspaces, htwin⟩

end Cut.Near

/-- No more tokens are left than there were. -/
theorem length_le_of_takes (h : Takes (Balanced source true) ts r) : r.length ≤ ts.length := h.length_le

theorem ok_bind {α β : Type} (a : α) (f : α → Read β) : (.ok a : Read α) >>= f = f a := rfl

/-! ## Attribute selectors -/

namespace Cut.Near

protected theorem takeComparison {v : Comparison} (h : c.Near ts ts') (hread : takeComparison ts = .ok (v, r)) :
    ∃ r', takeComparison ts' = .ok (v, r') ∧ c.Near r r' := by
  have htwo {d : Char} {v' : Comparison} (hd : peek ts = .delim d) (hread : takeEquals ts v' = .ok (v, r)) :
      ∃ r', takeEquals ts' v' = .ok (v, r') ∧ c.Near r r' := by
    unfold takeEquals at hread ⊢
    obtain ⟨-, htail⟩ := h.of_peek hd rfl
    split at hread
    · rename_i hsign
      obtain ⟨hsign', hrest⟩ := htail.of_peek hsign rfl
      cases hread
      rw [hsign']
      exact ⟨_, rfl, hrest⟩
    · cases hread
  unfold takeComparison at hread ⊢
  dsimp only at hread ⊢
  split at hread
  · rename_i hsign
    obtain ⟨hsign', hrest⟩ := h.of_peek hsign rfl
    cases hread
    rw [hsign']
    exact ⟨_, rfl, hrest⟩
  · rename_i hsign
    rw [(h.of_peek hsign rfl).1]
    exact htwo hsign hread
  · rename_i hsign
    rw [(h.of_peek hsign rfl).1]
    exact htwo hsign hread
  · rename_i hsign
    rw [(h.of_peek hsign rfl).1]
    exact htwo hsign hread
  · rename_i hsign
    rw [(h.of_peek hsign rfl).1]
    exact htwo hsign hread
  · rename_i hsign
    rw [(h.of_peek hsign rfl).1]
    exact htwo hsign hread
  · cases hread

protected theorem takeFlag {b : Bool} (h : c.Near ts ts') (hread : takeFlag ts = .ok (b, r)) :
    ∃ r', takeFlag ts' = .ok (b, r') ∧ c.Near r r' := by
  unfold takeFlag at hread ⊢
  split at hread
  · rename_i hflag
    obtain ⟨hflag', htail⟩ := h.of_peek hflag rfl
    rw [hflag']
    dsimp only
    split at hread
    · cases hread
      rw [if_pos ‹_›]
      exact ⟨_, rfl, htail.skipSpace⟩
    · rw [if_neg ‹_›]
      split at hread
      · cases hread
        rw [if_pos ‹_›]
        exact ⟨_, rfl, htail.skipSpace⟩
      · cases hread
  · rename_i hno
    cases hread
    split
    · rename_i hflag
      exact absurd (h.peek_eq hflag rfl) (hno _)
    · exact ⟨_, rfl, h⟩

/-- The flag and the closing bracket behind the value of an attribute selector. -/
def takeAttributeEnd (f : Bool → AttributeSelector) (ts : List Lexeme) : Read (AttributeSelector × List Lexeme) := do
  let (ignoresCase, ts) ← takeFlag (skipSpace ts.tail)
  match peek ts with
  | .closeBracket => return (f ignoresCase, ts.tail)
  | _ => .error (unexpected ts)

protected theorem takeAttribute {a : AttributeSelector} (h : c.Near ts ts') (hread : takeAttribute ts = .ok (a, r)) :
    ∃ r', takeAttribute ts' = .ok (a, r') ∧ c.Near r r' := by
  unfold takeAttribute at hread ⊢
  dsimp only at hread ⊢
  split at hread
  · rename_i hname
    obtain ⟨hname', hafter⟩ := h.skipSpace.of_peek hname rfl
    rw [hname']
    dsimp only
    split at hread
    · rename_i hclose
      obtain ⟨hclose', hrest⟩ := hafter.skipSpace.of_peek hclose rfl
      cases hread
      rw [hclose']
      exact ⟨_, rfl, hrest⟩
    · rename_i hno
      obtain ⟨⟨v, us⟩, hv, hread⟩ := read_bind hread
      obtain ⟨us', hv', hus⟩ := hafter.skipSpace.takeComparison hv
      have hvalue := hus.skipSpace
      -- the same steps follow an identifier and a string
      have hend {t : Token} (hpeek : peek (skipSpace us) = t) (ht : t.isIdle = false) {f : Bool → AttributeSelector}
          (hread : takeAttributeEnd f (skipSpace us) = .ok (a, r)) :
          ∃ r', takeAttributeEnd f (skipSpace us') = .ok (a, r') ∧ c.Near r r' := by
        unfold takeAttributeEnd at hread ⊢
        obtain ⟨⟨b, vs⟩, hb, hread⟩ := read_bind hread
        obtain ⟨vs', hb', hvs⟩ := (hvalue.of_peek hpeek ht).2.skipSpace.takeFlag hb
        rw [hb']
        dsimp only at hread
        split at hread
        · rename_i hclose
          obtain ⟨hclose', hrest⟩ := hvs.of_peek hclose rfl
          cases hread
          rw [ok_bind]
          dsimp only
          rw [hclose']
          exact ⟨_, rfl, hrest⟩
        · cases hread
      split
      · rename_i hclose
        exact absurd (hafter.skipSpace.peek_eq hclose rfl) hno
      · rw [hv', ok_bind]
        dsimp only at hread ⊢
        split at hread
        · rename_i hpeek
          rw [(hvalue.of_peek hpeek rfl).1]
          exact hend hpeek rfl hread
        · rename_i hpeek
          rw [(hvalue.of_peek hpeek rfl).1]
          exact hend hpeek rfl hread
        · cases hread
  · cases hread

end Cut.Near

/-! ## Pseudo-classes -/

theorem takeArguments_of_same {depth : Nat} {l' : Lexeme} {r' : List Lexeme} (hus : Same source piece us us')
    (hl : l'.token = l.token) (h : takeArguments depth (us ++ l :: r) = .ok (us, r)) :
    takeArguments depth (us' ++ l' :: r') = .ok (us', r') := by
  induction us generalizing us' depth with
  | nil =>
    obtain rfl := hus.of_nil
    rw [List.nil_append, takeArguments] at h ⊢
    rw [hl]
    split at h
    · cases h
    · rw [if_neg ‹_›]
      split at h
      · rw [if_pos ‹_›]
      · obtain ⟨_, -, h⟩ := read_bind h
        cases h
  | cons x us ih =>
    obtain ⟨x', us', rfl, hx, hus'⟩ := hus.of_cons
    rw [List.cons_append, takeArguments] at h ⊢
    rw [hx]
    split at h
    · cases h
    · rw [if_neg ‹_›]
      split at h
      · cases h
      · rw [if_neg ‹_›]
        obtain ⟨⟨vs, r''⟩, hvs, h⟩ := read_bind h
        cases h
        dsimp only
        rw [ih hus' hvs]
        rfl

theorem cutAtOf_of_same {after after' : List Lexeme} {l' : Lexeme} (hus : Same source piece us us')
    (hl : l'.token = l.token) (h : cutAtOf (us ++ l :: after) = some (us, after)) :
    cutAtOf (us' ++ l' :: after') = some (us', after') := by
  induction us generalizing us' with
  | nil =>
    obtain rfl := hus.of_nil
    rw [List.nil_append, cutAtOf_cons] at h ⊢
    rw [hl]
    split at h
    · rw [if_pos ‹_›]
    · obtain ⟨_, -, heq⟩ := Option.map_eq_some_iff.1 h
      cases heq
  | cons x us ih =>
    obtain ⟨x', us', rfl, hx, hus'⟩ := hus.of_cons
    rw [List.cons_append, cutAtOf_cons] at h ⊢
    rw [hx]
    split at h
    · cases h
    · obtain ⟨⟨before, after''⟩, hcut, heq⟩ := Option.map_eq_some_iff.1 h
      cases heq
      rw [if_neg ‹_›, ih hus' hcut]
      rfl

theorem Same.cutAtOf_none (h : Same source piece us us') (hcut : cutAtOf us = none) : cutAtOf us' = none := by
  induction us generalizing us' with
  | nil =>
    obtain rfl := h.of_nil
    rfl
  | cons l us ih =>
    obtain ⟨l', us', rfl, hl, hus'⟩ := h.of_cons
    rw [cutAtOf_cons] at hcut ⊢
    rw [hl]
    split at hcut
    · cases hcut
    · rw [if_neg ‹_›, ih hus' (Option.map_eq_none_iff.1 hcut)]
      rfl

theorem Same.cutAtOf_some {before after : List Lexeme} (h : Same source piece us us')
    (hcut : cutAtOf us = some (before, after)) :
    ∃ before' after', cutAtOf us' = some (before', after') ∧ Same source piece before before' ∧
      Same source piece after after' ∧ after'.length < us'.length := by
  obtain ⟨l, rfl, -⟩ := cutAtOf_eq hcut
  obtain ⟨before', vs', rfl, hbefore, hvs⟩ := h.of_append
  obtain ⟨l', after', rfl, hl, hafter⟩ := hvs.of_cons
  refine ⟨before', after', cutAtOf_of_same hbefore hl hcut, hbefore, hafter, ?_⟩
  rw [List.length_append, List.length_cons]
  omega

theorem Same.nthOf_eq (h : Same source piece us us') : nthOf source us = nthOf piece us' := by
  rw [nthOf, nthOf, h.textOf_eq]

/-- Lists in arguments are read the same in a text and in a piece of it. -/
structure Cut.Agree (c : Cut) (nested nested' : List Lexeme → Read SelectorList) : Prop where
  balanced : ReadsBalanced c.source nested
  balanced' : ReadsBalanced c.piece nested'
  reads : ∀ us us' list, us'.length < c.bound → Twin c.source c.piece us us' → (∀ l ∈ us, l.token ≠ .endOfInput) →
    nested us = .ok list → nested' us' = .ok list

variable {nested nested' : List Lexeme → Read SelectorList}

theorem Cut.Agree.pseudoFunction (hnested : c.Agree nested nested') (h : Same c.source c.piece us us')
    (hlt : us'.length < c.bound) (hend : ∀ l ∈ us, l.token ≠ .endOfInput) {name : String} {s : Simple}
    (hread : pseudoFunction c.source nested name us = .ok s) : pseudoFunction c.piece nested' name us' = .ok s := by
  have hlist {f : SelectorList → Simple} (hread : (nested us >>= fun list => pure (f list)) = .ok s) :
      (nested' us' >>= fun list => pure (f list)) = .ok s := by
    obtain ⟨list, hlist, hread⟩ := read_bind hread
    rw [hnested.reads us us' list hlt (.same h) hend hlist]
    exact hread
  have hchild {fromEnd : Bool} (hread : takePositions c.source nested us fromEnd = .ok s) :
      takePositions c.piece nested' us' fromEnd = .ok s := by
    unfold takePositions at hread ⊢
    split at hread
    · rename_i before after hcut
      obtain ⟨before', after', hcut', hbefore, hafter, hlength⟩ := h.cutAtOf_some hcut
      obtain ⟨n, hn, hread⟩ := read_bind hread
      obtain ⟨list, hlist, hread⟩ := read_bind hread
      obtain ⟨l, hus, -⟩ := cutAtOf_eq hcut
      rw [hcut']
      dsimp only
      rw [← hbefore.nthOf_eq, hn, ok_bind, hnested.reads after after' list (Nat.lt_trans hlength hlt) (.same hafter)
        (fun x hx => hend x (by rw [hus]; exact List.mem_append_right _ (List.mem_cons_of_mem _ hx))) hlist]
      exact hread
    · rename_i hcut
      rw [h.cutAtOf_none hcut, ← h.nthOf_eq]
      exact hread
  unfold Selector.pseudoFunction at hread ⊢
  dsimp only at hread ⊢
  split at hread
  · exact hlist hread
  · exact hlist hread
  · exact hlist hread
  · exact hlist hread
  · exact hlist hread
  · exact hchild hread
  · exact hchild hread
  · rw [← h.nthOf_eq]
    exact hread
  · rw [← h.nthOf_eq]
    exact hread
  all_goals cases hread

/-! ## Compounds and complex selectors -/

theorem exists_of_append_eq {α : Type} {xs ys as bs : List α} {x : α} (h : xs ++ ys = as ++ x :: bs) :
    (∃ cs, xs = as ++ x :: cs ∧ bs = cs ++ ys) ∨ ∃ cs, ys = cs ++ x :: bs := by
  rcases List.append_eq_append_iff.1 h with ⟨cs, -, hys⟩ | ⟨cs, hxs, hbs⟩
  · exact .inr ⟨cs, hys⟩
  · cases cs with
    | nil => exact .inr ⟨[], hbs.symm⟩
    | cons y cs =>
      obtain ⟨rfl, rfl⟩ := List.cons.inj hbs
      exact .inl ⟨cs, hxs, rfl⟩

namespace Cut.Near

protected theorem takeArguments {depth : Nat} (h : c.Near ts ts') (hread : takeArguments depth ts = .ok (us, r))
    (hr : c.stop.length ≤ r.length) :
    ∃ us' r', takeArguments depth ts' = .ok (us', r') ∧ Same c.source c.piece us us' ∧ us'.length < ts'.length ∧
      c.Near r r' := by
  obtain ⟨l, hts, hclose⟩ := takes_arguments hread
  obtain ⟨hbound, ws, spaces, ws', rfl, rfl, hspaces, htwin⟩ := h
  obtain ⟨vs, rfl, rfl⟩ : ∃ vs, ws = us ++ l :: vs ∧ r = vs ++ (spaces ++ c.stop) := by
    rcases exists_of_append_eq hts with hfound | ⟨vs, hvs⟩
    · exact hfound
    · rcases exists_of_append_eq hvs with ⟨vs', rfl, -⟩ | ⟨vs', hstop⟩
      · have hspace := hspaces l (by simp)
        rw [hspace] at hclose
        cases hclose
      · have hlength := congrArg List.length hstop
        rw [List.length_append, List.length_cons] at hlength
        omega
  obtain ⟨us', l', vs', rfl, hus, hl, hvs⟩ := htwin.of_append_cons
  rw [hts] at hread
  simp only [List.length_append, List.length_cons] at hbound
  refine ⟨us', vs' ++ c.stop', ?_, hus, ?_, ?_, vs, spaces, vs', rfl, rfl, hspaces, hvs⟩
  · rw [List.append_assoc, List.cons_append]
    exact takeArguments_of_same hus hl hread
  · simp only [List.length_append, List.length_cons]
    omega
  · rw [List.length_append]
    omega

protected theorem takePseudo (hnested : c.Agree nested nested') {s : Simple} (h : c.Near ts ts')
    (hread : takePseudo c.source nested ts = .ok (s, r)) (hr : c.stop.length ≤ r.length) :
    ∃ r', takePseudo c.piece nested' ts' = .ok (s, r') ∧ c.Near r r' := by
  unfold Selector.takePseudo at hread ⊢
  split at hread
  · split at hread <;> cases hread
  · rename_i hname
    obtain ⟨hname', htail⟩ := h.of_peek hname rfl
    obtain ⟨p, hp, hread⟩ := read_bind hread
    cases hread
    rw [hname']
    dsimp only
    rw [hp]
    exact ⟨_, rfl, htail⟩
  · rename_i hname
    obtain ⟨hname', htail⟩ := h.of_peek hname rfl
    obtain ⟨⟨us, rest⟩, hus, hread⟩ := read_bind hread
    obtain ⟨s', hs, hread⟩ := read_bind hread
    cases hread
    obtain ⟨us', r', hus', hsame, hlt, hrest⟩ := htail.takeArguments hus hr
    have hs' := hnested.pseudoFunction hsame (Nat.lt_of_lt_of_le hlt htail.length_le)
      (not_endOfInput_of_takeArguments hus) hs
    rw [hname']
    dsimp only
    rw [hus', ok_bind]
    dsimp only
    rw [hs']
    exact ⟨_, rfl, hrest⟩
  · cases hread

theorem takeSimple_none (h : c.Near ts ts') (hread : takeSimple c.source nested ts = .ok none) :
    takeSimple c.piece nested' ts' = .ok none := by
  unfold takeSimple at hread ⊢
  split at hread
  · cases hread
  · split at hread <;> cases hread
  · obtain ⟨_, -, hread⟩ := read_bind hread
    cases hread
  · obtain ⟨_, -, hread⟩ := read_bind hread
    cases hread
  · rename_i hid hdot hopen hcolon
    split
    · exact absurd (h.peek_eq ‹_› rfl) (hid _)
    · exact absurd (h.peek_eq ‹_› rfl) hdot
    · exact absurd (h.peek_eq ‹_› rfl) hopen
    · exact absurd (h.peek_eq ‹_› rfl) hcolon
    · rfl

theorem takeSimple_some (hnested : c.Agree nested nested') {s : Simple} (h : c.Near ts ts')
    (hread : takeSimple c.source nested ts = .ok (some (s, r))) (hr : c.stop.length ≤ r.length) :
    ∃ r', takeSimple c.piece nested' ts' = .ok (some (s, r')) ∧ c.Near r r' := by
  unfold takeSimple at hread ⊢
  split at hread
  · rename_i hid
    obtain ⟨hid', htail⟩ := h.of_peek hid rfl
    cases hread
    rw [hid']
    exact ⟨_, rfl, htail⟩
  · rename_i hdot
    obtain ⟨hdot', htail⟩ := h.of_peek hdot rfl
    split at hread
    · rename_i hname
      obtain ⟨hname', hrest⟩ := htail.of_peek hname rfl
      cases hread
      rw [hdot']
      dsimp only
      rw [hname']
      exact ⟨_, rfl, hrest⟩
    · cases hread
  · rename_i hopen
    obtain ⟨hopen', htail⟩ := h.of_peek hopen rfl
    obtain ⟨⟨a, rest⟩, ha, hread⟩ := read_bind hread
    cases hread
    obtain ⟨r', ha', hrest⟩ := htail.takeAttribute ha
    rw [hopen']
    dsimp only
    rw [ha']
    exact ⟨_, rfl, hrest⟩
  · rename_i hcolon
    obtain ⟨hcolon', htail⟩ := h.of_peek hcolon rfl
    obtain ⟨⟨s', rest⟩, hs, hread⟩ := read_bind hread
    cases hread
    obtain ⟨r', hs', hrest⟩ := htail.takePseudo hnested hs hr
    rw [hcolon']
    dsimp only
    rw [hs']
    exact ⟨_, rfl, hrest⟩
  · cases hread

end Cut.Near

theorem length_tail_lt (h : peek ts = t) (ht : t ≠ .endOfInput) : ts.tail.length < ts.length := by
  obtain ⟨l, hl, -⟩ := eq_cons_of_peek h ht
  conv_rhs => rw [hl, List.length_cons]
  exact Nat.lt_succ_self _

theorem length_lt_of_takeSimple {s : Simple} (h : takeSimple source nested ts = .ok (some (s, r))) :
    r.length < ts.length := by
  unfold takeSimple at h
  split at h
  · rename_i hid
    cases h
    exact length_tail_lt hid nofun
  · rename_i hdot
    split at h
    · rename_i hname
      cases h
      exact Nat.lt_trans (length_tail_lt hname nofun) (length_tail_lt hdot nofun)
    · cases h
  · rename_i hopen
    obtain ⟨⟨a, rest⟩, ha, h⟩ := read_bind h
    cases h
    obtain ⟨us, l, hts, -⟩ := takes_attribute ha
    have := length_tail_lt hopen nofun
    rw [hts, List.length_append, List.length_cons] at this
    omega
  · rename_i hcolon
    obtain ⟨⟨s', rest⟩, hs, h⟩ := read_bind h
    cases h
    refine Nat.lt_of_le_of_lt ?_ (length_tail_lt hcolon nofun)
    unfold takePseudo at hs
    split at hs
    · split at hs <;> cases hs
    · obtain ⟨p, -, hs⟩ := read_bind hs
      cases hs
      rw [List.length_tail]
      omega
    · obtain ⟨⟨us, rest⟩, hus, hs⟩ := read_bind hs
      obtain ⟨s', -, hs⟩ := read_bind hs
      cases hs
      obtain ⟨l, hts, -⟩ := takes_arguments hus
      have hlength := congrArg List.length hts
      rw [List.length_append, List.length_cons] at hlength
      rw [List.length_tail] at hlength
      omega
    · cases hs
  · cases h

theorem takeSimples_of_none (h : takeSimple source nested ts = .ok none) (limit : Nat) :
    takeSimples source nested limit ts = .ok ([], ts) := by
  cases limit with
  | zero => rfl
  | succ limit =>
    rw [takeSimples, h]
    rfl

theorem peek_skipSpace (ts : List Lexeme) : peek (skipSpace ts) ≠ .space := by
  induction ts with
  | nil => exact nofun
  | cons l ts ih =>
    by_cases hl : l.token = .space
    · rw [skipSpace_of_space hl]
      exact ih
    · rw [skipSpace_of_ne (show peek (l :: ts) ≠ .space from hl)]
      exact hl

/-- White space is skipped when there is some. -/
theorem length_skipSpace_lt : (skipSpace ts).length < ts.length ↔ peek ts = .space := by
  constructor
  · intro hlt
    by_contra hne
    rw [skipSpace_of_ne hne] at hlt
    exact absurd hlt (Nat.lt_irrefl _)
  · intro hspace
    obtain ⟨l, hl, htoken⟩ := eq_cons_of_peek hspace nofun
    rw [hl, skipSpace_of_space htoken, List.length_cons]
    exact Nat.lt_succ_of_le (takes_skipSpace _).length_le

theorem atEnd_of_isIdle (h : (peek ts).isIdle = true) (hne : peek ts ≠ .space) : atEnd ts = true := by
  unfold atEnd
  revert h hne
  cases peek ts <;> simp [Token.isIdle]

theorem not_isIdle_of_atEnd (h : atEnd ts = false) (hne : peek ts ≠ .space) : (peek ts).isIdle = false := by
  unfold atEnd at h
  revert h hne
  cases peek ts <;> simp [Token.isIdle]

theorem atEnd_congr (h : peek us = peek ts) : atEnd us = atEnd ts := by
  rw [atEnd, atEnd, h]

theorem length_lt_of_takeCombinator {v : Combinator} (h : takeCombinator ts = .ok (some (v, r))) :
    r.length < ts.length := by
  have hle := (takes_skipSpace ts).length_le
  have hsign {t : Token} (hpeek : peek (skipSpace ts) = t) (ht : t ≠ .endOfInput) :
      (skipSpace (skipSpace ts).tail).length < ts.length :=
    Nat.lt_of_le_of_lt (takes_skipSpace _).length_le (Nat.lt_of_lt_of_le (length_tail_lt hpeek ht) hle)
  unfold takeCombinator at h
  dsimp only at h
  split at h
  · rename_i hpeek
    cases h
    exact hsign hpeek nofun
  · rename_i hpeek
    cases h
    exact hsign hpeek nofun
  · rename_i hpeek
    cases h
    exact hsign hpeek nofun
  · split at h
    · cases h
    · split at h
      · cases h
        assumption
      · cases h

namespace Cut.Near

theorem takeCombinator_none (h : c.Near ts ts') (hread : takeCombinator ts = .ok none) :
    takeCombinator ts' = .ok none := by
  unfold takeCombinator at hread ⊢
  dsimp only at hread ⊢
  split at hread
  · cases hread
  · cases hread
  · cases hread
  · rename_i hchild hnext hlater
    split at hread
    · rename_i hend
      have hend' : atEnd (skipSpace ts') = true := by
        rcases h.skipSpace.step with ⟨heq, -⟩ | ⟨-, hidle⟩
        · rw [atEnd_congr heq]
          exact hend
        · exact atEnd_of_isIdle hidle (peek_skipSpace _)
      split
      · exact absurd (h.skipSpace.peek_eq ‹_› rfl) hchild
      · exact absurd (h.skipSpace.peek_eq ‹_› rfl) hnext
      · exact absurd (h.skipSpace.peek_eq ‹_› rfl) hlater
      · rw [if_pos hend']
    · split at hread <;> cases hread

theorem takeCombinator_some {v : Combinator} (h : c.Near ts ts') (hread : takeCombinator ts = .ok (some (v, r))) :
    ∃ r', takeCombinator ts' = .ok (some (v, r')) ∧ c.Near r r' := by
  unfold takeCombinator at hread ⊢
  dsimp only at hread ⊢
  split at hread
  · rename_i hsign
    obtain ⟨hsign', htail⟩ := h.skipSpace.of_peek hsign rfl
    cases hread
    rw [hsign']
    exact ⟨_, rfl, htail.skipSpace⟩
  · rename_i hsign
    obtain ⟨hsign', htail⟩ := h.skipSpace.of_peek hsign rfl
    cases hread
    rw [hsign']
    exact ⟨_, rfl, htail.skipSpace⟩
  · rename_i hsign
    obtain ⟨hsign', htail⟩ := h.skipSpace.of_peek hsign rfl
    cases hread
    rw [hsign']
    exact ⟨_, rfl, htail.skipSpace⟩
  · rename_i hchild hnext hlater
    split at hread
    · cases hread
    · rename_i hend
      rw [Bool.not_eq_true] at hend
      split at hread
      · rename_i hspace
        cases hread
        obtain ⟨hpeek, -⟩ := h.skipSpace.of_peek rfl (not_isIdle_of_atEnd hend (peek_skipSpace ts))
        have hspace' : peek ts' = .space := by
          rcases h.step with ⟨heq, -⟩ | ⟨-, hidle⟩
          · rw [heq]
            exact length_skipSpace_lt.1 hspace
          · -- what stands after white space in the piece would end the selector
            by_contra hne
            rw [skipSpace_of_ne hne] at hpeek
            rw [hpeek, not_isIdle_of_atEnd hend (peek_skipSpace ts)] at hidle
            cases hidle
        split
        · exact absurd (h.skipSpace.peek_eq ‹_› rfl) hchild
        · exact absurd (h.skipSpace.peek_eq ‹_› rfl) hnext
        · exact absurd (h.skipSpace.peek_eq ‹_› rfl) hlater
        · rw [if_neg (by rw [atEnd_congr hpeek, hend]; exact Bool.false_ne_true),
            if_pos (length_skipSpace_lt.2 hspace')]
          exact ⟨_, rfl, h.skipSpace⟩
      · cases hread

protected theorem takeSimples (hnested : c.Agree nested nested') {limit limit' : Nat} {ss : List Simple}
    (h : c.Near ts ts')
    (hlimit : ts.length ≤ limit) (hlimit' : ts'.length ≤ limit')
    (hread : takeSimples c.source nested limit ts = .ok (ss, r)) (hr : c.stop.length ≤ r.length) :
    ∃ r', takeSimples c.piece nested' limit' ts' = .ok (ss, r') ∧ c.Near r r' := by
  induction limit generalizing ts ts' limit' ss with
  | zero =>
    obtain rfl := List.length_eq_zero_iff.1 (Nat.le_zero.1 hlimit)
    cases hread
    exact ⟨ts', takeSimples_of_none (h.takeSimple_none (show takeSimple c.source nested [] = .ok none from rfl))
      limit', h⟩
  | succ limit ih =>
    rw [Selector.takeSimples] at hread
    obtain ⟨found, hfound, hread⟩ := read_bind hread
    split at hread
    · cases hread
      exact ⟨ts', takeSimples_of_none (h.takeSimple_none hfound) limit', h⟩
    · rename_i s rest
      obtain ⟨⟨ss', r''⟩, hss, hread⟩ := read_bind hread
      cases hread
      have hrest := length_le_of_takes (takes_simples hnested.balanced hss)
      obtain ⟨rest', hs', hnear⟩ := h.takeSimple_some hnested hfound (Nat.le_trans hr hrest)
      have hlt := length_lt_of_takeSimple hfound
      have hlt' := length_lt_of_takeSimple hs'
      cases limit' with
      | zero => omega
      | succ limit' =>
        obtain ⟨r', hss', hr'⟩ := ih hnear (by omega) (show _ ≤ limit' by omega) hss
        rw [Selector.takeSimples, hs', ok_bind]
        dsimp only
        rw [hss']
        exact ⟨r', rfl, hr'⟩

protected theorem takeType (h : c.Near ts ts') :
    (takeType ts).1 = (takeType ts').1 ∧ c.Near (takeType ts).2 (takeType ts').2 := by
  unfold Selector.takeType
  split
  · rename_i hname
    obtain ⟨hname', htail⟩ := h.of_peek hname rfl
    rw [hname']
    exact ⟨rfl, htail⟩
  · rename_i hstar
    obtain ⟨hstar', htail⟩ := h.of_peek hstar rfl
    rw [hstar']
    exact ⟨rfl, htail⟩
  · rename_i hname hstar
    split
    · exact absurd (h.peek_eq ‹_› rfl) (hname _)
    · exact absurd (h.peek_eq ‹_› rfl) hstar
    · exact ⟨rfl, h⟩

protected theorem takeCompound (hnested : c.Agree nested nested') {ss : List Simple} (h : c.Near ts ts')
    (hread : takeCompound c.source nested ts = .ok (ss, r)) (hr : c.stop.length ≤ r.length) :
    ∃ r', takeCompound c.piece nested' ts' = .ok (ss, r') ∧ c.Near r r' := by
  obtain ⟨htypes, hrest⟩ := h.takeType
  unfold Selector.takeCompound at hread ⊢
  generalize takeType ts = found at hread htypes hrest
  generalize takeType ts' = found' at htypes hrest ⊢
  obtain ⟨types, rest⟩ := found
  obtain ⟨types', rest'⟩ := found'
  dsimp only at hread htypes hrest ⊢
  subst htypes
  split at hread
  · cases hread
  · rename_i hbar
    obtain ⟨⟨ss', r''⟩, hss, hread⟩ := read_bind hread
    cases hread
    obtain ⟨r', hss', hr'⟩ := hrest.takeSimples hnested (Nat.le_refl _) (Nat.le_refl _) hss hr
    split
    · exact absurd (hrest.peek_eq ‹_› rfl) hbar
    · rw [hss']
      exact ⟨r', rfl, hr'⟩

protected theorem takeSubject (hnested : c.Agree nested nested') {ss : List Simple} (h : c.Near ts ts')
    (hread : takeSubject c.source nested ts = .ok (ss, r)) (hr : c.stop.length ≤ r.length) :
    ∃ r', takeSubject c.piece nested' ts' = .ok (ss, r') ∧ c.Near r r' := by
  unfold Selector.takeSubject at hread ⊢
  obtain ⟨⟨ss', rest⟩, hss, hread⟩ := read_bind hread
  split at hread
  · cases hread
  · rename_i hne
    cases hread
    obtain ⟨r', hss', hr'⟩ := h.takeCompound hnested hss hr
    rw [hss', ok_bind]
    split
    · rename_i heq
      cases heq
      exact absurd rfl (hne _)
    · exact ⟨r', rfl, hr'⟩

protected theorem takeJoined (hnested : c.Agree nested nested') {limit limit' : Nat} {left v : Complex}
    (h : c.Near ts ts')
    (hlimit : ts.length ≤ limit) (hlimit' : ts'.length ≤ limit')
    (hread : takeJoined c.source nested limit left ts = .ok (v, r)) (hr : c.stop.length ≤ r.length) :
    ∃ r', takeJoined c.piece nested' limit' left ts' = .ok (v, r') ∧ c.Near r r' := by
  induction limit generalizing ts ts' limit' left with
  | zero =>
    obtain rfl := List.length_eq_zero_iff.1 (Nat.le_zero.1 hlimit)
    cases hread
    have hnone := h.takeCombinator_none rfl
    cases limit' with
    | zero => exact ⟨ts', rfl, h⟩
    | succ limit' =>
      rw [Selector.takeJoined, hnone]
      exact ⟨skipSpace ts', rfl, h.skipSpace⟩
  | succ limit ih =>
    rw [Selector.takeJoined] at hread
    obtain ⟨found, hfound, hread⟩ := read_bind hread
    split at hread
    · cases hread
      have hnone := h.takeCombinator_none hfound
      cases limit' with
      | zero =>
        obtain rfl := List.length_eq_zero_iff.1 (Nat.le_zero.1 hlimit')
        exact ⟨[], rfl, h.skipSpace⟩
      | succ limit' =>
        rw [Selector.takeJoined, hnone]
        exact ⟨skipSpace ts', rfl, h.skipSpace⟩
    · rename_i v' rest
      obtain ⟨⟨ss, rest₂⟩, hss, hread⟩ := read_bind hread
      have hle := length_le_of_takes (takes_joined hnested.balanced hread)
      obtain ⟨rest', hv', hrest⟩ := h.takeCombinator_some hfound
      obtain ⟨rest₂', hss', hrest₂⟩ := hrest.takeSubject hnested hss (Nat.le_trans hr hle)
      have hlt := length_lt_of_takeCombinator hfound
      have hlt' := length_lt_of_takeCombinator hv'
      have hsubject := length_le_of_takes (takes_subject hnested.balanced hss)
      have hsubject' := length_le_of_takes (takes_subject hnested.balanced' hss')
      cases limit' with
      | zero => omega
      | succ limit' =>
        obtain ⟨r', hv, hr'⟩ := ih hrest₂ (by omega) (show _ ≤ limit' by omega) hread
        rw [Selector.takeJoined, hv', ok_bind]
        dsimp only
        rw [hss']
        exact ⟨r', hv, hr'⟩

/-- **A complex selector is read the same.** -/
protected theorem takeComplex (hnested : c.Agree nested nested') {v : Complex} (h : c.Near ts ts')
    (hread : takeComplex c.source nested ts = .ok (v, r)) (hr : c.stop.length ≤ r.length) :
    ∃ r', takeComplex c.piece nested' ts' = .ok (v, r') ∧ c.Near r r' := by
  unfold Selector.takeComplex at hread ⊢
  obtain ⟨⟨ss, rest⟩, hss, hread⟩ := read_bind hread
  split at hread
  · cases hread
  · rename_i ss' rest' hne heq
    cases heq
    have hle := length_le_of_takes (takes_joined hnested.balanced hread)
    obtain ⟨rest', hss', hrest⟩ := h.skipSpace.takeCompound hnested hss (Nat.le_trans hr hle)
    obtain ⟨r', hv, hr'⟩ := hrest.takeJoined hnested (Nat.le_refl _) (Nat.le_refl _) hread hr
    dsimp only
    rw [hss', ok_bind]
    split
    · rename_i heq
      cases heq
      exact absurd rfl hne
    · rename_i heq
      cases heq
      exact ⟨r', hv, hr'⟩

end Cut.Near

/-! ## Lists -/

/-- Complex selectors between commas, up to some tokens that are left. -/
inductive Listing (source : List Char) (nested : List Lexeme → Read SelectorList) (stop : List Lexeme) :
    List Lexeme → SelectorList → Prop
  | last {ts : List Lexeme} {v : Complex} : takeComplex source nested ts = .ok (v, stop) →
    Listing source nested stop ts [v]
  | more {ts r : List Lexeme} {l : Lexeme} {v : Complex} {vs : SelectorList} :
    takeComplex source nested ts = .ok (v, l :: r) → l.token = .comma → Listing source nested stop r vs →
      Listing source nested stop ts (v :: vs)

variable {stop : List Lexeme} {list : SelectorList}

/-- The tokens that are left are the last ones. -/
theorem Listing.suffix (hnested : ReadsBalanced source nested) (h : Listing source nested stop ts list) :
    stop <:+ ts := by
  induction h with
  | last hread =>
    obtain ⟨us, rfl, -⟩ := takes_complex hnested hread
    exact List.suffix_append us stop
  | more hread _ _ ih =>
    obtain ⟨us, rfl, -⟩ := takes_complex hnested hread
    exact (ih.trans (List.suffix_cons _ _)).trans (List.suffix_append us _)

/-- Where no token says that the input ends, none is left there. -/
theorem Listing.eq_nil (hnested : ReadsBalanced source nested) (h : Listing source nested stop ts list)
    (hstop : peek stop = .endOfInput) (hend : ∀ l ∈ ts, l.token ≠ .endOfInput) : stop = [] := by
  cases stop with
  | nil => rfl
  | cons l stop => exact absurd hstop (hend l ((h.suffix hnested).subset List.mem_cons_self))

theorem exists_listing_of_takeMore {limit : Nat} {v : Complex} (hread : takeComplex source nested ts = .ok (v, us))
    (hmore : takeMore source nested limit us = .ok (list, r)) : Listing source nested r ts (v :: list) := by
  induction limit generalizing ts us v list with
  | zero =>
    cases hmore
    exact .last hread
  | succ limit ih =>
    rw [takeMore] at hmore
    split at hmore
    · rename_i hcomma
      obtain ⟨⟨v', rest⟩, hv', hmore⟩ := read_bind hmore
      obtain ⟨⟨vs, rest'⟩, hvs, hmore⟩ := read_bind hmore
      cases hmore
      obtain ⟨l, hl, htoken⟩ := eq_cons_of_peek hcomma (by simp)
      rw [hl] at hread
      exact .more hread htoken (ih hv' hvs)
    · cases hmore
      exact .last hread

/-- What is read as a list is one. -/
theorem exists_listing (h : takeAll source nested ts = .ok list) :
    ∃ stop, peek stop = .endOfInput ∧ Listing source nested stop ts list := by
  unfold takeAll at h
  obtain ⟨⟨v, rest⟩, hv, h⟩ := read_bind h
  obtain ⟨⟨vs, rest'⟩, hvs, h⟩ := read_bind h
  dsimp only at h
  split at h
  · rename_i hpeek
    cases h
    exact ⟨rest', hpeek, exists_listing_of_takeMore hv hvs⟩
  · cases h

theorem Listing.takeMore (hnested : ReadsBalanced source nested) (hstop : peek stop = .endOfInput)
    (h : Listing source nested stop ts list) :
    ∃ v vs us, list = v :: vs ∧ takeComplex source nested ts = .ok (v, us) ∧
      ∀ limit, us.length ≤ limit → takeMore source nested limit us = .ok (vs, stop) := by
  induction h with
  | last hread =>
    refine ⟨_, [], stop, rfl, hread, fun limit _ => ?_⟩
    cases limit with
    | zero => rfl
    | succ limit =>
      rw [Selector.takeMore, hstop]
      rfl
  | more hread hcomma _ ih =>
    obtain ⟨v', vs, us, rfl, hread', hmore⟩ := ih
    refine ⟨_, _, _, rfl, hread, fun limit hlimit => ?_⟩
    have hle := (takes_complex hnested hread').length_le
    cases limit with
    | zero => cases hlimit
    | succ limit =>
      rw [List.length_cons] at hlimit
      rw [Selector.takeMore, peek, hcomma]
      dsimp only [List.tail_cons]
      rw [hread', ok_bind]
      dsimp only
      rw [hmore limit (by omega)]
      rfl

theorem takeAll_of_listing (hnested : ReadsBalanced source nested) (hstop : peek stop = .endOfInput)
    (h : Listing source nested stop ts list) : takeAll source nested ts = .ok list := by
  obtain ⟨v, vs, us, rfl, hread, hmore⟩ := h.takeMore hnested hstop
  rw [takeAll, hread, ok_bind]
  dsimp only
  rw [hmore us.length (Nat.le_refl _), ok_bind]
  dsimp only
  rw [hstop]
  rfl

/-- **A list is read the same.** -/
theorem Cut.Near.listing (hnested : c.Agree nested nested') (h : c.Near ts ts')
    (hlist : Listing c.source nested c.stop ts list) : Listing c.piece nested' c.stop' ts' list := by
  induction hlist generalizing ts' with
  | last hread =>
    obtain ⟨r', hread', hr'⟩ := h.takeComplex hnested hread (Nat.le_refl _)
    obtain ⟨-, us, spaces, us', hstop, rfl, -, htwin⟩ := hr'
    have hlength := congrArg List.length hstop
    rw [List.length_append, List.length_append] at hlength
    obtain rfl : us = [] := List.length_eq_zero_iff.1 (by omega)
    obtain rfl := htwin.of_nil
    exact .last hread'
  | @more ts r l v vs hread hcomma hrest ih =>
    have hle := (hrest.suffix hnested.balanced).length_le
    obtain ⟨r', hread', hr'⟩ := h.takeComplex hnested hread (Nat.le_trans hle (Nat.le_succ _))
    obtain ⟨hbound, us, spaces, us', hcons, rfl, hspaces, htwin⟩ := hr'
    cases us with
    | nil =>
      -- the comma is not the one at which the piece is left
      cases spaces with
      | nil =>
        have hlength := congrArg List.length hcons
        rw [List.nil_append, List.nil_append, List.length_cons] at hlength
        omega
      | cons x spaces =>
        obtain ⟨rfl, -⟩ := List.cons.inj hcons
        rw [hspaces l List.mem_cons_self] at hcomma
        cases hcomma
    | cons x us =>
      obtain ⟨rfl, rfl⟩ := List.cons.inj hcons
      obtain ⟨l', us', rfl, hl', htail⟩ := htwin.of_cons
      exact .more hread' (hl'.trans hcomma)
        (ih ⟨Nat.le_trans (Nat.le_succ _) hbound, us, spaces, us', rfl, rfl, hspaces, htail⟩)

/-- **A list in an argument is read the same**, however deep lists are in it. -/
theorem takeNested_of_twin {depth depth' : Nat} (h : Twin source piece us us') (hend : ∀ l ∈ us, l.token ≠ .endOfInput)
    (hdepth : us'.length < depth') (hread : takeNested source depth us = .ok list) :
    takeNested piece depth' us' = .ok list := by
  induction depth' generalizing depth us us' list with
  | zero => cases hdepth
  | succ depth' ih =>
    cases depth with
    | zero => cases hread
    | succ depth =>
      let c : Cut := ⟨source, piece, [], [], us'.length, .inr rfl, .inr rfl⟩
      have hnested : c.Agree (takeNested source depth) (takeNested piece depth') :=
        ⟨readsBalanced_takeNested source depth, readsBalanced_takeNested piece depth',
          fun vs vs' _ hlt htwin hvs hread => ih htwin hvs (Nat.lt_of_lt_of_le hlt (Nat.le_of_lt_succ hdepth)) hread⟩
      have hnear : c.Near us us' :=
        ⟨Nat.le_refl _, us, [], us', (List.append_nil us).symm, (List.append_nil us').symm, by simp, h⟩
      obtain ⟨stop, hstop, hlist⟩ := exists_listing hread
      obtain rfl : stop = [] := hlist.eq_nil hnested.balanced hstop hend
      exact takeAll_of_listing hnested.balanced' rfl (hnear.listing hnested hlist)

end Selector

end LiveMarkup.Css
