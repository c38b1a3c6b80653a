/-
What the index of a style sheet lists.

The index is built in one pass, with a stack of blocks and the text since the last mark. At every position the stack is
that of the blocks which are open there by counting (`Stands`), so the pass gives up the rules in the order in which the
blocks close (`finish_run`). What is left is to read this off: the index lists exactly the blocks that a selector list
names, each with its text, its end and the conditions around it (`rulesOf_describes`).
-/
import LiveMarkup.Proofs.Css.Blocks
import LiveMarkup.Proofs.Css.Preludes
import Mathlib.Data.List.Forall2

set_option autoImplicit false

namespace LiveMarkup.Css

open Text

/-! ## Where marks stand -/

variable {css cs done : List Char} {i : Inside} {start offset length : Nat} {m : Mark} {ms : List Mark} {e : Extent}

theorem next_of_isSign {c : Char} (hout : i.isOutside = true) (hsign : isSign c = true) : i.next c = .nothing := by
  have henter : Inside.enter c = .nothing ∧ c ≠ '*' := by
    simp only [isSign, Bool.or_eq_true, beq_iff_eq] at hsign
    rcases hsign with (rfl | rfl) | rfl <;> decide
  cases i with
  | nothing => exact henter.1
  | slash => rw [Inside.next, if_neg henter.2, henter.1]
  | comment | star | string | escape => cases hout

theorem marksFrom_sign {c : Char} (hout : i.isOutside = true) (hsign : isSign c = true) :
    marksFrom i start offset (c :: cs) =
      ⟨start, offset, c⟩ :: marksFrom .nothing (offset + c.utf8Size) (offset + c.utf8Size) cs := by
  rw [marksFrom, hout, hsign, Bool.and_self, if_pos rfl]

theorem marksFrom_push {c : Char} (h : i.isOutside = false ∨ isSign c = false) :
    marksFrom i start offset (c :: cs) = marksFrom (i.next c) start (offset + c.utf8Size) cs := by
  rw [marksFrom, if_neg]
  rcases h with h | h <;> simp [h]

/-- **A mark is a sign outside of comments and strings**, behind the text since the mark before it. -/
theorem reads_of_mem_marksFrom (hmem : m ∈ marksFrom i start offset cs) (hi : i = done.foldl Inside.next .nothing)
    {head text : List Char} (hdone : done = head ++ text) (hstart : start = byteLength head)
    (hoffset : offset = byteLength done) :
    ∃ head text tail, done ++ cs = head ++ (text ++ m.sign :: tail) ∧ m.start = byteLength head ∧
      m.offset = byteLength head + byteLength text ∧ isSign m.sign = true ∧
      ((head ++ text).foldl Inside.next .nothing).isOutside = true := by
  induction cs generalizing i start offset done head text with
  | nil => simp [marksFrom] at hmem
  | cons c cs ih =>
    have hnext : offset + c.utf8Size = byteLength (done ++ [c]) := by simp [hoffset, byteLength]
    rw [marksFrom] at hmem
    split at hmem
    · rename_i hsign
      obtain ⟨hout, hsign⟩ := Bool.and_eq_true_iff.1 hsign
      rcases List.mem_cons.1 hmem with rfl | hmem
      · exact ⟨head, text, cs, by rw [hdone, List.append_assoc], hstart,
          by rw [hoffset, hdone, byteLength_append], hsign,
          by rw [← hdone, ← hi]; exact hout⟩
      · have hnothing : Inside.nothing = (done ++ [c]).foldl Inside.next .nothing := by
          rw [List.foldl_append, ← hi]
          exact (next_of_isSign hout hsign).symm
        obtain ⟨head, text, tail, h, hrest⟩ := ih hmem hnothing (List.append_nil _).symm hnext hnext
        exact ⟨head, text, tail, by rw [← h]; simp, hrest⟩
    · have hfold : i.next c = (done ++ [c]).foldl Inside.next .nothing := by
        rw [List.foldl_append, ← hi]
        rfl
      obtain ⟨head, text, tail, h, hrest⟩ := ih hmem hfold (by rw [hdone, List.append_assoc]) hstart hnext
      exact ⟨head, text, tail, by rw [← h]; simp, hrest⟩

theorem marks_reads (hmem : m ∈ marks css) :
    ∃ head text tail, css = head ++ (text ++ m.sign :: tail) ∧ m.start = byteLength head ∧
      m.offset = byteLength head + byteLength text ∧ isSign m.sign = true ∧
      ((head ++ text).foldl Inside.next .nothing).isOutside = true :=
  reads_of_mem_marksFrom hmem (show _ = ([] : List Char).foldl Inside.next .nothing from rfl)
    (show ([] : List Char) = [] ++ [] from rfl) rfl rfl

/-! ## What the stack stands for -/

/-- The text before a block. -/
def Extent.text (css : List Char) (e : Extent) : List Char := (slice? css e.start e.brace).getD []

/-- The condition of a block of a media rule. -/
def Extent.condition? (css : List Char) (e : Extent) : Option String := (Block.ofPrelude 0 [] (e.text css)).condition?

/-- What the block is that is open inside of some blocks. -/
def blockOf (css : List Char) (c : Extent × List Extent) : Block :=
  .ofPrelude c.1.start (c.2.filterMap (Extent.condition? css)).reverse (c.1.text css)

/-- The rule that a block gives up when it closes inside of some blocks. -/
def ruleOf (css : List Char) (c : Extent × List Extent) : Option Rule := (blockOf css c).close? c.1.stop

theorem condition?_ofPrelude (start start' : Nat) (conditions conditions' : List String) (text : List Char) :
    (Block.ofPrelude start conditions text).condition? = (Block.ofPrelude start' conditions' text).condition? := by
  rw [ofPrelude_def, ofPrelude_def]
  split
  · rfl
  · split
    · rfl
    · rfl

theorem filterMap_blocks (css : List Char) (stack : List Extent) :
    ((closeAll stack).map (blockOf css)).filterMap Block.condition? = stack.filterMap (Extent.condition? css) := by
  induction stack with
  | nil => rfl
  | cons e around ih =>
    rw [closeAll, List.map_cons, List.filterMap_cons, List.filterMap_cons, ih, blockOf, Extent.condition?,
      condition?_ofPrelude _ 0 _ []]

/-- A scan stands at a position of a style sheet, where some blocks are open. -/
structure Stands (css : List Char) (s : Scan) (stack : List Extent) (cs : List Char) : Prop where
  reads : ∃ head, css = head ++ (s.prelude.reverse ++ cs) ∧ s.start = byteLength head ∧
    s.offset = byteLength head + byteLength s.prelude.reverse
  blocks : s.blocks = (closeAll stack).map (blockOf css)

variable {s : Scan} {stack around : List Extent} {c : Char}

theorem Stands.push (h : Stands css s stack (c :: cs)) : Stands css (s.push c) stack cs := by
  obtain ⟨head, hcss, hstart, hoffset⟩ := h.reads
  refine ⟨⟨head, ?_, hstart, ?_⟩, h.blocks⟩
  · rw [hcss, Scan.push, List.reverse_cons, List.append_assoc]
    rfl
  · simp only [Scan.push, hoffset, List.reverse_cons, byteLength_append, byteLength]
    omega

theorem Stands.cut (h : Stands css s stack (c :: cs)) : Stands css (s.cut c) stack cs := by
  obtain ⟨head, hcss, hstart, hoffset⟩ := h.reads
  refine ⟨⟨head ++ (s.prelude.reverse ++ [c]), ?_, ?_, ?_⟩, h.blocks⟩
  · rw [hcss, Scan.cut]
    simp
  · simp only [Scan.cut, hoffset, byteLength_append, byteLength]
    omega
  · simp only [Scan.cut, hoffset, byteLength_append, byteLength, List.reverse_nil]
    omega

/-- The text since the last mark is that of the block that is opened next. -/
theorem Stands.text_eq (h : Stands css s stack (c :: cs)) (ms : List Mark) :
    (Extent.ofMark length ⟨s.start, s.offset, c⟩ ms).text css = s.prelude.reverse := by
  obtain ⟨head, hcss, hstart, hoffset⟩ := h.reads
  rw [Extent.text, Extent.ofMark, hcss, hstart, hoffset, slice?_append]
  rfl

theorem Stands.openBlock (h : Stands css s stack (c :: cs)) (ms : List Mark) :
    Stands css s.openBlock (.ofMark length ⟨s.start, s.offset, c⟩ ms :: stack) (c :: cs) := by
  refine ⟨h.reads, ?_⟩
  simp only [Scan.openBlock, Scan.conditions, closeAll, List.map_cons, blockOf, h.text_eq, h.blocks, filterMap_blocks]
  rfl

theorem Stands.closeBlock (h : Stands css s (e :: around) cs) (stop : Nat) :
    Stands css (s.closeBlock stop) around cs ∧
      (s.closeBlock stop).rules = ((blockOf css (e, around)).close? stop).toList ++ s.rules := by
  have hblocks := h.blocks
  rw [closeAll, List.map_cons] at hblocks
  refine ⟨⟨?_, ?_⟩, ?_⟩
  · rw [Scan.closeBlock, hblocks]
    exact h.reads
  · rw [Scan.closeBlock, hblocks]
  · rw [Scan.closeBlock, hblocks]

theorem Stands.closeBlock_nil (h : Stands css s [] cs) (stop : Nat) : s.closeBlock stop = s := by
  rw [Scan.closeBlock, h.blocks]
  rfl

/-! ## The scan -/

/-- What the scan takes a position to be in, against what it is in. -/
def Fits : Context → Inside → List Char → Prop
  | .plain, i, cs => i = .nothing ∨ (i = .slash ∧ cs.head? ≠ some '*')
  | .comment, i, cs => i = .comment ∨ (i = .star ∧ cs.head? ≠ some '/')
  | .string quote, i, cs => quote ≠ '\\' ∧ (i = .string quote ∨ (i = .escape quote ∧ cs = []))

theorem isOutside_of_fits (h : Fits .plain i cs) : i.isOutside = true := by
  rcases h with rfl | ⟨rfl, -⟩ <;> rfl

theorem next_of_fits (h : Fits .plain i (c :: cs)) : i.next c = .enter c := by
  rcases h with rfl | ⟨rfl, hstar⟩
  · rfl
  · rw [Inside.next, if_neg fun hc => hstar (by rw [hc, List.head?_cons])]

theorem isInside_of_fits (quote : Char) (h : Fits .comment i cs ∨ Fits (.string quote) i cs) : i.isOutside = false := by
  rcases h with (rfl | ⟨rfl, -⟩) | ⟨-, rfl | ⟨rfl, -⟩⟩ <;> rfl

/-- **One character outside of comments and strings** opens a block, closes one, or does neither; what is still to be
given up stays the same. -/
theorem step_plain (hfits : Fits .plain i (c :: cs)) (hs : Stands css s stack (c :: cs))
    (hopen : Open (byteLength css) s.start stack (marksFrom i s.start s.offset (c :: cs)))
    (hcomment : ∀ tail, c = '/' → cs = '*' :: tail → False) (hquote : ¬ (c = '"' ∨ c = '\'')) :
    ∃ i' stack', Fits .plain i' cs ∧ Stands css (s.step c) stack' cs ∧
      Open (byteLength css) (s.step c).start stack' (marksFrom i' (s.step c).start (s.step c).offset cs) ∧
      (s.step c).rules.reverse ++ (closings (byteLength css) stack'
        (marksFrom i' (s.step c).start (s.step c).offset cs)).filterMap (ruleOf css) =
      s.rules.reverse ++ (closings (byteLength css) stack (marksFrom i s.start s.offset (c :: cs))).filterMap
        (ruleOf css) := by
  by_cases hsign : isSign c = true
  · have hsize := utf8Size_of_isSign hsign
    rw [marksFrom_sign (isOutside_of_fits hfits) hsign] at hopen ⊢
    rcases mark_cases ⟨s.start, s.offset, c⟩ stack with hc | ⟨hc, e, around, rfl⟩ | ⟨hc, hskip⟩
    · have hopen' := hopen.push hc
      rw [closings_open hc]
      obtain rfl : c = '\x7b' := hc
      rw [← hsize] at hopen'
      exact ⟨.nothing, _, .inl rfl, (hs.openBlock _).cut, hopen', rfl⟩
    · obtain ⟨hstop, hopen'⟩ := hopen.pop hc
      rw [closings_close hc]
      obtain rfl : c = '\x7d' := hc
      obtain ⟨hs', hrules⟩ := hs.closeBlock (s.offset + 1)
      have hoffset : (s.closeBlock (s.offset + 1)).offset = s.offset := by
        rw [Scan.closeBlock]
        split <;> rfl
      refine ⟨.nothing, around, .inl rfl, hs'.cut, ?_, ?_⟩
      · simpa only [Scan.step, Scan.cut, hoffset, hsize] using hopen'
      · simp only [Scan.step, Scan.cut, hoffset, hrules, List.filterMap_cons, ruleOf, hstop]
        cases (blockOf css (e, around)).close? (s.offset + 1) <;> simp
    · have hopen' := hopen.skip hc hskip
      rw [closings_skip hc hskip]
      rw [← hsize] at hopen'
      refine ⟨.nothing, stack, .inl rfl, ?_⟩
      have hstep : s.step c = s.cut c := by
        simp only [isSign, Bool.or_eq_true, beq_iff_eq] at hsign
        rcases hsign with (rfl | rfl) | rfl
        · exact absurd rfl hc
        · obtain rfl := hskip.resolve_left (by simp)
          rw [Scan.step, hs.closeBlock_nil]
        · rfl
      rw [hstep]
      exact ⟨hs.cut, hopen', rfl⟩
  · rw [Bool.not_eq_true] at hsign
    have hstep : s.step c = s.push c := by
      unfold Scan.step
      split
      · cases hsign
      · cases hsign
      · cases hsign
      · rfl
    rw [marksFrom_push (.inr hsign)] at hopen ⊢
    rw [hstep]
    refine ⟨_, stack, ?_, hs.push, hopen, rfl⟩
    rw [next_of_fits hfits, Inside.enter, if_neg hquote]
    split
    · rename_i hslash
      refine .inr ⟨rfl, fun hstar => ?_⟩
      obtain ⟨tail, htail⟩ := List.head?_eq_some_iff.1 hstar
      exact hcomment tail hslash htail
    · exact .inl rfl

/-- At the end of the style sheet the blocks that are open close. -/
theorem finish_nil (hs : Stands css s stack []) (hopen : Open (byteLength css) start stack []) :
    s.finish = s.rules.reverse ++ (closeAll stack).filterMap (ruleOf css) := by
  obtain ⟨head, hcss, -, hoffset⟩ := hs.reads
  have hend : s.offset = byteLength css := by rw [hcss, hoffset, byteLength_append, List.append_nil]
  rw [Scan.finish, hs.blocks, List.filterMap_map, hend]
  congr 1
  refine List.filterMap_congr fun d hd => ?_
  obtain ⟨k, hk⟩ := List.mem_iff_getElem?.1 (mem_closeAll_iff.1 ⟨d.2, hd⟩)
  rw [Function.comp_apply, ruleOf, hopen.stops k d.1 hk]
  rfl

/-- **The scan gives up the rules in the order in which their blocks close.** -/
theorem finish_run (context : Context) (s : Scan) (cs : List Char) (hfits : Fits context i cs)
    (hs : Stands css s stack cs) (hopen : Open (byteLength css) s.start stack (marksFrom i s.start s.offset cs)) :
    (Scan.run context s cs).finish = s.rules.reverse ++
      (closings (byteLength css) stack (marksFrom i s.start s.offset cs)).filterMap (ruleOf css) := by
  fun_induction Scan.run context s cs generalizing i stack with
  | case1 s cs ih =>
    have hslash : i.next '/' = .slash := next_of_fits hfits
    have hmarks : marksFrom i s.start s.offset ('/' :: '*' :: cs) =
        marksFrom .comment s.start ((s.push '/').push '*').offset cs := by
      rw [marksFrom_push (.inr (by decide)), hslash, marksFrom_push (.inr (by decide))]
      rfl
    rw [hmarks] at hopen ⊢
    exact ih (.inl rfl) hs.push.push hopen
  | case2 s cs ih =>
    have hout := isInside_of_fits '"' (.inl hfits)
    have hstar : i.next '*' = .star := by rcases hfits with rfl | ⟨rfl, -⟩ <;> rfl
    have hmarks : marksFrom i s.start s.offset ('*' :: '/' :: cs) =
        marksFrom .nothing s.start ((s.push '*').push '/').offset cs := by
      rw [marksFrom_push (.inl hout), hstar, marksFrom_push (.inl rfl)]
      rfl
    rw [hmarks] at hopen ⊢
    exact ih (.inl rfl) hs.push.push hopen
  | case3 s c cs hclose ih =>
    have hout := isInside_of_fits '"' (.inl hfits)
    rw [marksFrom_push (.inl hout)] at hopen ⊢
    refine ih ?_ hs.push hopen
    have hnext : i.next c = if c = '*' then .star else .comment := by
      rcases hfits with rfl | ⟨rfl, hslash⟩
      · rfl
      · rw [Inside.next, if_neg fun hc => hslash (by rw [hc, List.head?_cons])]
    rw [hnext]
    split
    · rename_i hstar
      refine .inr ⟨rfl, fun hslash => ?_⟩
      obtain ⟨tail, rfl⟩ := List.head?_eq_some_iff.1 hslash
      exact hclose tail hstar rfl
    · exact .inl rfl
  | case4 quote s c cs ih =>
    have hout := isInside_of_fits _ (.inr hfits)
    obtain ⟨hquote, rfl | ⟨-, hnil⟩⟩ := hfits
    · have hmarks : marksFrom (.string quote) s.start s.offset ('\\' :: c :: cs) =
          marksFrom (.string quote) s.start ((s.push '\\').push c).offset cs := by
        rw [marksFrom_push (.inl hout), Inside.next, if_pos rfl, marksFrom_push (.inl rfl)]
        rfl
      rw [hmarks] at hopen ⊢
      exact ih ⟨hquote, .inl rfl⟩ hs.push.push hopen
    · cases hnil
  | case5 quote s c cs hescape ih =>
    have hout := isInside_of_fits _ (.inr hfits)
    rw [marksFrom_push (.inl hout)] at hopen ⊢
    obtain ⟨hquote, rfl | ⟨-, hnil⟩⟩ := hfits
    · refine ih ?_ hs.push hopen
      by_cases hback : c = '\\'
      · -- a backslash at the end of the style sheet
        have hnil : cs = [] := by
          cases cs with
          | nil => rfl
          | cons d cs => exact absurd rfl (hescape d cs hback)
        rw [if_neg fun heq => hquote (heq.symm.trans hback)]
        exact ⟨hquote, .inr ⟨by rw [Inside.next, if_pos hback], hnil⟩⟩
      · rw [Inside.next, if_neg hback]
        split
        · exact .inl rfl
        · exact ⟨hquote, .inl rfl⟩
    · cases hnil
  | case6 s c cs hcomment hquote ih =>
    have hsign : isSign c = false := by rcases hquote with rfl | rfl <;> decide
    have hnext : i.next c = .string c := by
      rw [next_of_fits hfits]
      rcases hquote with rfl | rfl <;> decide
    rw [marksFrom_push (.inr hsign), hnext] at hopen ⊢
    exact ih ⟨by rcases hquote with rfl | rfl <;> decide, .inl rfl⟩ hs.push hopen
  | case7 s c cs hcomment hquote ih =>
    obtain ⟨i', stack', hfits', hs', hopen', hrules⟩ := step_plain hfits hs hopen hcomment hquote
    rw [ih hfits' hs' hopen', hrules]
  | case8 => exact finish_nil hs hopen

/-! ## What the index says of a block -/

/-- A block whose text is a selector list. -/
def Extent.IsStyle (css : List Char) (e : Extent) : Prop :=
  ∃ text lead selector blanks, slice? css e.start e.brace = some text ∧ StyleText text lead selector blanks

/-- A block of a media rule with a condition. -/
def Extent.IsMedia (css : List Char) (e : Extent) (condition : String) : Prop :=
  ∃ text lead name rest, slice? css e.start e.brace = some text ∧ MediaText text lead name rest ∧
    condition = String.ofList (trim rest)

/-- A rule says of a block where its selector list starts, where it ends, and which conditions are around it. -/
structure Describes (css : List Char) (r : Rule) (b : Extent) : Prop where
  /-- The rule ends where the block ends, on a boundary. -/
  stop : r.span.stop = b.stop ∧ r.span.stop ≤ byteLength css ∧ isBoundary css r.span.stop = true
  /-- The block ends with its closing brace, unless it is open at the end. -/
  closes : r.span.stop = byteLength css ∨ slice? css (r.span.stop - 1) r.span.stop = some ['\x7d']
  /-- The text before the block is what is skipped, the selector list, and white space. -/
  text : ∃ text lead blanks, slice? css b.start b.brace = some text ∧ StyleText text lead r.selector.toList blanks ∧
    r.span.start = b.start + byteLength lead ∧
    slice? css r.span.start (b.brace + 1) = some (r.selector.toList ++ (blanks ++ ['\x7b']))
  order : r.span.start < r.span.stop
  /-- The conditions are those of the media rules whose blocks enclose the block, the outermost first. -/
  media : ∃ around : List Extent,
    (∀ x, x ∈ around ↔ x ∈ blocksOf css ∧ x.Encloses b ∧ ∃ condition, x.IsMedia css condition) ∧
    around.Pairwise (fun x y => x.brace < y.brace) ∧ List.Forall₂ (Extent.IsMedia css) around r.media

theorem exists_mark_of_mem_extents (he : e ∈ extents length ms) :
    ∃ m rest, m :: rest <:+ ms ∧ m.sign = '\x7b' ∧ e = .ofMark length m rest := by
  induction ms with
  | nil => simp [extents] at he
  | cons m ms ih =>
    rw [extents] at he
    split at he
    · rename_i hsign
      rcases List.mem_cons.1 he with rfl | he
      · exact ⟨m, ms, List.suffix_rfl, hsign, rfl⟩
      · obtain ⟨m', rest, hsuffix, h⟩ := ih he
        exact ⟨m', rest, hsuffix.trans (List.suffix_cons m ms), h⟩
    · obtain ⟨m', rest, hsuffix, h⟩ := ih he
      exact ⟨m', rest, hsuffix.trans (List.suffix_cons m ms), h⟩

/-- A block ends right after a closing brace, or with the text. -/
theorem stopFrom_cases (length depth : Nat) (ms : List Mark) :
    stopFrom length depth ms = length ∨ ∃ m ∈ ms, m.sign = '\x7d' ∧ stopFrom length depth ms = m.offset + 1 := by
  induction ms generalizing depth with
  | nil => exact .inl rfl
  | cons m ms ih =>
    have hrest : ∀ d, stopFrom length depth (m :: ms) = stopFrom length d ms →
        stopFrom length depth (m :: ms) = length ∨
          ∃ m' ∈ m :: ms, m'.sign = '\x7d' ∧ stopFrom length depth (m :: ms) = m'.offset + 1 := by
      intro d heq
      rw [heq]
      exact (ih d).imp_right fun ⟨m', hm', h⟩ => ⟨m', List.mem_cons_of_mem _ hm', h⟩
    rcases sign_cases m with hopen | hclose | ⟨hopen, hclose⟩
    · exact hrest _ (stopFrom_open hopen)
    · cases depth with
      | zero => exact .inr ⟨m, List.mem_cons_self, hclose, stopFrom_close_zero hclose⟩
      | succ depth => exact hrest _ (stopFrom_close_succ hclose)
    · exact hrest _ (stopFrom_skip hopen hclose)

/-- **Where a block stands in the text.** -/
theorem reads_of_mem_blocksOf (he : e ∈ blocksOf css) :
    ∃ head tail, css = head ++ (e.text css ++ '\x7b' :: tail) ∧ e.start = byteLength head ∧
      e.brace = byteLength head + byteLength (e.text css) := by
  obtain ⟨m, rest, hsuffix, hsign, rfl⟩ := exists_mark_of_mem_extents he
  obtain ⟨head, text, tail, hcss, hstart, hoffset, -⟩ := marks_reads (hsuffix.subset List.mem_cons_self)
  have htext : (Extent.ofMark (byteLength css) m rest).text css = text := by
    rw [Extent.text, Extent.ofMark, hstart, hoffset, hcss, slice?_append]
    rfl
  rw [htext]
  rw [hsign] at hcss
  exact ⟨head, tail, hcss, hstart, hoffset⟩

/-- **Where a block ends in the text.** -/
theorem ends_of_mem_blocksOf (he : e ∈ blocksOf css) :
    e.brace < e.stop ∧ e.stop ≤ byteLength css ∧ isBoundary css e.stop = true ∧
      (e.stop = byteLength css ∨ slice? css (e.stop - 1) e.stop = some ['\x7d']) := by
  have hbounds := bounds_of_mem_extents (ordered_marksFrom .nothing 0 0 css (Nat.le_refl _))
    (by rw [Nat.zero_add]; exact he)
  rw [Nat.zero_add] at hbounds
  refine ⟨hbounds.2.2.1, hbounds.2.2.2, ?_⟩
  obtain ⟨m, rest, hsuffix, hsign, rfl⟩ := exists_mark_of_mem_extents he
  rcases stopFrom_cases (byteLength css) 0 rest with hstop | ⟨m', hm', hclose, hstop⟩
  · refine ⟨?_, .inl hstop⟩
    have hend := isBoundary_append css []
    rwa [List.append_nil, ← hstop] at hend
  · obtain ⟨head, text, tail, hcss, -, hoffset, -⟩ := marks_reads (hsuffix.subset (List.mem_cons_of_mem _ hm'))
    rw [hclose] at hcss
    have hstop' : (Extent.ofMark (byteLength css) m rest).stop = byteLength (head ++ text) + byteLength ['\x7d'] := by
      rw [byteLength_append, ← hoffset]
      exact hstop
    have hcut : css = (head ++ text) ++ (['\x7d'] ++ tail) := by rw [hcss, List.append_assoc]; rfl
    rw [hstop']
    refine ⟨?_, .inr ?_⟩
    · rw [← byteLength_append]
      conv_lhs => rw [hcut, ← List.append_assoc]
      exact isBoundary_append _ tail
    · conv_lhs => rw [hcut]
      exact slice?_append _ _ _

theorem slice?_of_mem_blocksOf (he : e ∈ blocksOf css) : slice? css e.start e.brace = some (e.text css) := by
  obtain ⟨head, tail, hcss, hstart, hbrace⟩ := reads_of_mem_blocksOf he
  conv_lhs => rw [hcss, hstart, hbrace]
  exact slice?_append _ _ _

/-- A block has a condition when it is one of a media rule. -/
theorem condition?_eq_some_iff {condition : String} (he : e ∈ blocksOf css) :
    e.condition? css = some condition ↔ e.IsMedia css condition := by
  have hslice := slice?_of_mem_blocksOf he
  constructor
  · intro h
    have hmedia : Block.ofPrelude 0 [] (e.text css) = .media condition := by
      rw [Extent.condition?] at h
      cases hblock : Block.ofPrelude 0 [] (e.text css) with
      | media condition' =>
        rw [hblock] at h
        rw [Option.some.inj h]
      | rule | other =>
        rw [hblock] at h
        cases h
    obtain ⟨lead, name, rest, htext, hcondition⟩ := exists_mediaText hmedia
    exact ⟨_, lead, name, rest, hslice, htext, hcondition⟩
  · rintro ⟨text, lead, name, rest, htext, hmedia, rfl⟩
    rw [hslice] at htext
    obtain rfl := Option.some.inj htext
    rw [Extent.condition?, ofPrelude_of_mediaText hmedia]
    rfl

/-- A block gives up a rule when its text is a selector list. -/
theorem isSome_ruleOf_iff {around : List Extent} (he : e ∈ blocksOf css) :
    (ruleOf css (e, around)).isSome = true ↔ e.IsStyle css := by
  have hslice := slice?_of_mem_blocksOf he
  constructor
  · intro h
    rw [ruleOf] at h
    cases hblock : blockOf css (e, around) with
    | rule selector start conditions =>
      obtain ⟨lead, blanks, htext⟩ := exists_styleText hblock
      exact ⟨_, lead, _, blanks, hslice, htext⟩
    | media | other =>
      rw [hblock] at h
      cases h
  · rintro ⟨text, lead, selector, blanks, htext, hstyle⟩
    rw [hslice] at htext
    obtain rfl := Option.some.inj htext
    rw [ruleOf, blockOf, ofPrelude_of_styleText hstyle]
    rfl

/-- What a `filterMap` keeps is related, one by one, to what comes of it. -/
theorem forall₂_filterMap {α β : Type} {R : α → β → Prop} {f : α → Option β} {xs : List α}
    (h : ∀ x ∈ xs, ∀ y, f x = some y → R x y) :
    List.Forall₂ R (xs.filter fun x => (f x).isSome) (xs.filterMap f) := by
  induction xs with
  | nil => exact .nil
  | cons x xs ih =>
    have hrest := ih fun y hy => h y (List.mem_cons_of_mem _ hy)
    cases hx : f x with
    | none => rwa [List.filter_cons_of_neg (by simp [hx]), List.filterMap_cons_none hx]
    | some y =>
      rw [List.filter_cons_of_pos (by simp [hx]), List.filterMap_cons_some hx]
      exact .cons (h x List.mem_cons_self y hx) hrest

/-- The rule that a block gives up describes it. -/
theorem describes_of_ruleOf {r : Rule} (he : e ∈ blocksOf css) (hr : ruleOf css (e, around) = some r)
    (haround : ∀ x, x ∈ around ↔ x ∈ blocksOf css ∧ x.Encloses e)
    (hnested : around.Pairwise fun x y => y.brace < x.brace) : Describes css r e := by
  obtain ⟨hstop, hlength, hboundary, hcloses⟩ := ends_of_mem_blocksOf he
  obtain ⟨text, lead, selector, blanks, htext, hstyle⟩ := (isSome_ruleOf_iff he).1 (Option.isSome_iff_exists.2 ⟨r, hr⟩)
  rw [slice?_of_mem_blocksOf he] at htext
  obtain rfl := Option.some.inj htext
  rw [ruleOf, blockOf, ofPrelude_of_styleText hstyle] at hr
  obtain rfl := Option.some.inj hr
  obtain ⟨head, tail, hcss, hstart, hbrace⟩ := reads_of_mem_blocksOf he
  have hwhole := hstyle.whole
  have hsize : byteLength (e.text css) = byteLength lead + (byteLength selector + byteLength blanks) := by
    rw [hwhole, byteLength_append, byteLength_append]
  refine ⟨⟨rfl, hlength, hboundary⟩, hcloses, ⟨_, lead, blanks, slice?_of_mem_blocksOf he, ?_, rfl, ?_⟩, ?_, ?_⟩
  · rw [String.toList_ofList]
    exact hstyle
  · have hcut : css = (head ++ lead) ++ ((selector ++ (blanks ++ ['\x7b'])) ++ tail) := by
      conv_lhs => rw [hcss, hwhole]
      simp
    have hfrom : e.start + byteLength lead = byteLength (head ++ lead) := by rw [byteLength_append, hstart]
    have hto : e.brace + 1 = byteLength (head ++ lead) + byteLength (selector ++ (blanks ++ ['\x7b'])) := by
      have hone : byteLength ['\x7b'] = 1 := rfl
      rw [byteLength_append, byteLength_append, byteLength_append, hone, hbrace, hsize]
      omega
    rw [String.toList_ofList, hfrom, hto]
    conv_lhs => rw [hcut]
    exact slice?_append _ _ _
  · simp only
    omega
  · refine ⟨(around.filter fun x => (x.condition? css).isSome).reverse, fun x => ?_, ?_, ?_⟩
    · rw [List.mem_reverse, List.mem_filter, haround, and_assoc, Option.isSome_iff_exists]
      refine ⟨fun ⟨hx, hencloses, condition, hcondition⟩ => ⟨hx, hencloses, condition, ?_⟩,
        fun ⟨hx, hencloses, condition, hcondition⟩ => ⟨hx, hencloses, condition, ?_⟩⟩
      · exact (condition?_eq_some_iff hx).1 hcondition
      · exact (condition?_eq_some_iff hx).2 hcondition
    · rw [List.pairwise_reverse]
      exact hnested.filter _
    · refine List.rel_reverse ?_
      exact forall₂_filterMap fun x hx condition => (condition?_eq_some_iff ((haround x).1 hx).1).1

/-- A selector list lies in the text before its block. -/
theorem Describes.bounds {r : Rule} (h : Describes css r e) (he : e ∈ blocksOf css) :
    e.start ≤ r.span.start ∧ r.span.start ≤ e.brace := by
  obtain ⟨text, lead, blanks, htext, hstyle, hstart, -⟩ := h.text
  obtain ⟨head, tail, -, hhead, hbrace⟩ := reads_of_mem_blocksOf he
  rw [slice?_of_mem_blocksOf he] at htext
  obtain rfl := Option.some.inj htext
  have hsize := congrArg byteLength hstyle.whole
  rw [byteLength_append] at hsize
  omega

/-- Of two spans, the first lies in the second or before it. -/
def LiesInOrBefore (s t : Span) : Prop := (t.start ≤ s.start ∧ s.stop ≤ t.stop) ∨ s.before t

/-- **The index describes the block structure of every style sheet.** Its rules are those blocks whose text is a
selector list, in the order in which the blocks close; each rule describes its block, and any two of them are nested
or disjoint. -/
theorem rulesOf_describes (css : String) :
    ∃ bs : List Extent, (∀ b, b ∈ bs ↔ b ∈ blocksOf css.toList ∧ b.IsStyle css.toList) ∧
      bs.Pairwise Extent.ClosesBefore ∧ List.Forall₂ (Describes css.toList) (rulesOf css) bs ∧
      (rulesOf css).Pairwise fun r r' => LiesInOrBefore r.span r'.span := by
  have hordered := ordered_marksFrom .nothing 0 0 css.toList (Nat.le_refl _)
  rw [Nat.zero_add] at hordered
  have hopen : Open (byteLength css.toList) 0 [] (marks css.toList) := .nil hordered
  have hrules : rulesOf css = (closings (byteLength css.toList) [] (marks css.toList)).filterMap (ruleOf css.toList) :=
    finish_run .plain .begin css.toList (.inl rfl) ⟨⟨[], rfl, rfl, rfl⟩, rfl⟩ hopen
  -- what is given up is a block, with the blocks that enclose it
  have hgiven : ∀ c ∈ closings (byteLength css.toList) [] (marks css.toList), c.1 ∈ blocksOf css.toList ∧
      (∀ x, x ∈ c.2 ↔ x ∈ blocksOf css.toList ∧ x.Encloses c.1) ∧ c.2.Pairwise fun x y => y.brace < x.brace := by
    intro c hc
    obtain ⟨hmem, hnested⟩ := mem_around_iff hopen (show (c.1, c.2) ∈ _ from hc)
    have hblock := mem_closings_iff.1 ⟨c.2, hc⟩
    simp only [List.not_mem_nil, false_or] at hmem hblock
    exact ⟨hblock, hmem, hnested⟩
  have hmem : ∀ b ∈ blocksOf css.toList,
      ∃ around, (b, around) ∈ closings (byteLength css.toList) [] (marks css.toList) :=
    fun b hb => mem_closings_iff.2 (.inr hb)
  have hpairs := pairwise_closings hopen
  rw [hrules]
  generalize closings (byteLength css.toList) [] (marks css.toList) = given at hgiven hpairs hmem
  have hdescribes : ∀ c ∈ given, ∀ r, ruleOf css.toList c = some r → Describes css.toList r c.1 := fun c hc r hr =>
    describes_of_ruleOf (hgiven c hc).1 hr (hgiven c hc).2.1 (hgiven c hc).2.2
  refine ⟨(given.filter fun c => (ruleOf css.toList c).isSome).map Prod.fst, fun b => ?_, ?_, ?_, ?_⟩
  · rw [List.mem_map]
    constructor
    · rintro ⟨c, hc, rfl⟩
      obtain ⟨hc, hsome⟩ := List.mem_filter.1 hc
      have hb := (hgiven c hc).1
      exact ⟨hb, (isSome_ruleOf_iff hb).1 hsome⟩
    · rintro ⟨hb, hstyle⟩
      obtain ⟨around, hc⟩ := hmem b hb
      exact ⟨(b, around), List.mem_filter.2 ⟨hc, (isSome_ruleOf_iff hb).2 hstyle⟩, rfl⟩
  · rw [List.pairwise_map]
    exact (hpairs.filter _).imp And.left
  · rw [List.forall₂_map_right_iff]
    exact (forall₂_filterMap hdescribes).flip
  · rw [List.pairwise_filterMap]
    refine hpairs.imp_of_mem fun {c d} hc hd hcd r hr r' hr' => ?_
    have hr := hdescribes c hc r hr
    have hr' := hdescribes d hd r' hr'
    have hbounds := hr.bounds (hgiven c hc).1
    have hbounds' := hr'.bounds (hgiven d hd).1
    have hstop := hr.stop.1
    have hstop' := hr'.stop.1
    rcases hcd.2 with ⟨hin, hle⟩ | hbefore
    · exact .inl ⟨by omega, by omega⟩
    · refine .inr ?_
      unfold Span.before
      omega

end LiveMarkup.Css
