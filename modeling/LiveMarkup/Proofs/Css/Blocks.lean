/-
The blocks of a style sheet.

A brace or a semicolon counts when it stands outside of comments and quoted strings; such a character is a mark. A
block is told by three offsets: where the text before it starts, where its opening brace stands, and where it ends,
which is right after the brace that closes it or at the end of the style sheet (`blocksOf`). Which brace closes a
block is found by counting.

A stack of open blocks gives blocks up in the order in which they close (`closings`). Every block is given up once
(`mem_closings_iff`), with the blocks around it (`mem_around_iff`), and of two blocks the one that is given up first
lies in the other or before it (`pairwise_closings`). One invariant carries all three: `Open` says what the offsets of
a stack are to the marks that follow.
-/
import LiveMarkup.Css.RuleIndex
import Mathlib.Data.List.Basic

set_option autoImplicit false

namespace LiveMarkup.Css

open Text

/-! ## Marks -/

/-- What a position in a style sheet is in, when it is read one character after the other. -/
inductive Inside where
  | nothing
  /-- Nothing, right after a slash. -/
  | slash
  | comment
  /-- A comment, right after a star. -/
  | star
  | string (quote : Char)
  /-- A string, right after a backslash. -/
  | escape (quote : Char)
deriving DecidableEq, Repr

namespace Inside

/-- Whether the position is outside of comments and strings. -/
def isOutside : Inside → Bool
  | nothing | slash => true
  | comment | star | string _ | escape _ => false

/-- What the position after a character is in, when the one before it is in nothing. -/
def enter (c : Char) : Inside :=
  if c = '/' then slash else if c = '"' ∨ c = '\'' then string c else nothing

/-- What the position after a character is in. -/
def next (i : Inside) (c : Char) : Inside :=
  match i with
  | nothing => enter c
  | slash => if c = '*' then comment else enter c
  | comment => if c = '*' then star else comment
  | star => if c = '/' then nothing else if c = '*' then star else comment
  | string quote => if c = '\\' then escape quote else if c = quote then nothing else string quote
  | escape quote => string quote

end Inside

/-- A character that ends the text before a block. -/
structure Mark where
  /-- The offset of the text since the last mark. -/
  start : Nat
  /-- The offset of the character. -/
  offset : Nat
  sign : Char
deriving DecidableEq, Repr

/-- Whether a character outside of comments and strings is a mark. -/
def isSign (c : Char) : Bool := c == '\x7b' || c == '\x7d' || c == ';'

/-- The marks of a text that stands at an offset, where the text since the last mark starts at `start`. -/
def marksFrom (i : Inside) (start offset : Nat) : List Char → List Mark
  | [] => []
  | c :: cs =>
    if i.isOutside && isSign c then
      ⟨start, offset, c⟩ :: marksFrom .nothing (offset + c.utf8Size) (offset + c.utf8Size) cs
    else marksFrom (i.next c) start (offset + c.utf8Size) cs

/-- The marks of a style sheet. -/
def marks (css : List Char) : List Mark := marksFrom .nothing 0 0 css

/-! ## Blocks -/

/-- Where a block stands. -/
structure Extent where
  /-- Where the text before the block starts. -/
  start : Nat
  /-- Where the opening brace stands. -/
  brace : Nat
  /-- Where the block ends. -/
  stop : Nat
deriving DecidableEq, Repr

/-- The offset of the brace that closes the innermost of some blocks, when `depth` blocks are open in it. -/
def closing : Nat → List Mark → Option Nat
  | _, [] => none
  | depth, m :: ms =>
    if m.sign = '\x7b' then closing (depth + 1) ms
    else if m.sign = '\x7d' then
      match depth with
      | 0 => some m.offset
      | depth + 1 => closing depth ms
    else closing depth ms

/-- The end of a block in which `depth` blocks are open: right after its closing brace, or the end of the text. -/
def stopFrom (length depth : Nat) (ms : List Mark) : Nat :=
  match closing depth ms with
  | some offset => offset + 1
  | none => length

/-- The block that a mark opens before other marks. -/
def Extent.ofMark (length : Nat) (m : Mark) (ms : List Mark) : Extent := ⟨m.start, m.offset, stopFrom length 0 ms⟩

/-- The blocks that marks open, in the order of their braces. -/
def extents (length : Nat) : List Mark → List Extent
  | [] => []
  | m :: ms => if m.sign = '\x7b' then .ofMark length m ms :: extents length ms else extents length ms

/-- The blocks of a style sheet, in the order of their opening braces. -/
def blocksOf (css : List Char) : List Extent := extents (byteLength css) (marks css)

namespace Extent

/-- A block is around another: the brace of the other stands in it. -/
def Encloses (e f : Extent) : Prop := e.brace < f.brace ∧ f.brace < e.stop

/-- A block closes before another. Blocks that are open at the end of the text close there, the inner one first. -/
def ClosesBefore (e f : Extent) : Prop := e.stop < f.stop ∨ (e.stop = f.stop ∧ f.brace < e.brace)

/-- A block lies, with the text before it, in another, or before it. -/
def LiesInOrBefore (e f : Extent) : Prop := (f.brace < e.start ∧ e.stop ≤ f.stop) ∨ e.stop ≤ f.start

end Extent

/-! ## Marks in order -/

/-- Each mark stands behind the text before it, which starts right after the mark before. -/
def Ordered (length : Nat) : Nat → List Mark → Prop
  | start, [] => start ≤ length
  | start, m :: ms => m.start = start ∧ start ≤ m.offset ∧ Ordered length (m.offset + 1) ms

variable {length start depth : Nat} {m : Mark} {ms : List Mark} {e f : Extent} {stack around : List Extent}

theorem Ordered.le_length (h : Ordered length start ms) : start ≤ length := by
  induction ms generalizing start with
  | nil => exact h
  | cons m ms ih =>
    have hrest := ih h.2.2
    have hoffset := h.2.1
    omega

theorem utf8Size_of_isSign {c : Char} (h : isSign c = true) : c.utf8Size = 1 := by
  simp only [isSign, Bool.or_eq_true, beq_iff_eq] at h
  rcases h with (h | h) | h <;> subst h <;> decide

theorem ordered_marksFrom (i : Inside) (start offset : Nat) (cs : List Char) (h : start ≤ offset) :
    Ordered (offset + byteLength cs) start (marksFrom i start offset cs) := by
  induction cs generalizing i start offset with
  | nil => simpa [marksFrom, Ordered, byteLength] using h
  | cons c cs ih =>
    rw [marksFrom, byteLength, ← Nat.add_assoc]
    by_cases hsign : (i.isOutside && isSign c) = true
    · have hsize := utf8Size_of_isSign (Bool.and_eq_true_iff.1 hsign).2
      have hrest := ih .nothing (offset + 1) (offset + 1) (Nat.le_refl _)
      rw [if_pos hsign, hsize]
      exact ⟨rfl, h, hrest⟩
    · rw [if_neg hsign]
      exact ih _ _ _ (by omega)

theorem stopFrom_open (hsign : m.sign = '\x7b') : stopFrom length depth (m :: ms) = stopFrom length (depth + 1) ms := by
  simp only [stopFrom, closing, hsign, if_true]

theorem stopFrom_close_zero (hsign : m.sign = '\x7d') : stopFrom length 0 (m :: ms) = m.offset + 1 := by
  simp [stopFrom, closing, hsign]

theorem stopFrom_close_succ (hsign : m.sign = '\x7d') :
    stopFrom length (depth + 1) (m :: ms) = stopFrom length depth ms := by
  simp [stopFrom, closing, hsign]

theorem stopFrom_skip (hopen : m.sign ≠ '\x7b') (hclose : m.sign ≠ '\x7d') :
    stopFrom length depth (m :: ms) = stopFrom length depth ms := by
  simp [stopFrom, closing, hopen, hclose]

/-- A sign opens a block, closes one, or separates. -/
theorem sign_cases (m : Mark) :
    m.sign = '\x7b' ∨ m.sign = '\x7d' ∨ (m.sign ≠ '\x7b' ∧ m.sign ≠ '\x7d') := by
  by_cases hopen : m.sign = '\x7b'
  · exact .inl hopen
  · by_cases hclose : m.sign = '\x7d'
    · exact .inr (.inl hclose)
    · exact .inr (.inr ⟨hopen, hclose⟩)

/-- A block closes behind where it is open, and not behind the end of the text. -/
theorem stopFrom_bounds (h : Ordered length start ms) (depth : Nat) :
    start ≤ stopFrom length depth ms ∧ stopFrom length depth ms ≤ length := by
  induction ms generalizing start depth with
  | nil => exact ⟨h, Nat.le_refl _⟩
  | cons m ms ih =>
    have hoffset := h.2.1
    have hlength := h.2.2.le_length
    rcases sign_cases m with hopen | hclose | ⟨hopen, hclose⟩
    · have hrest := ih h.2.2 (depth + 1)
      rw [stopFrom_open hopen]
      omega
    · cases depth with
      | zero =>
        rw [stopFrom_close_zero hclose]
        omega
      | succ depth =>
        have hrest := ih h.2.2 depth
        rw [stopFrom_close_succ hclose]
        omega
    · have hrest := ih h.2.2 depth
      rw [stopFrom_skip hopen hclose]
      omega

/-- Of two open blocks the outer one closes no earlier. -/
theorem stopFrom_mono (h : Ordered length start ms) {d d' : Nat} (hle : d ≤ d') :
    stopFrom length d ms ≤ stopFrom length d' ms := by
  induction ms generalizing start d d' with
  | nil => exact Nat.le_refl _
  | cons m ms ih =>
    rcases sign_cases m with hopen | hclose | ⟨hopen, hclose⟩
    · rw [stopFrom_open hopen, stopFrom_open hopen]
      exact ih h.2.2 (by omega)
    · cases d' with
      | zero =>
        obtain rfl : d = 0 := by omega
        exact Nat.le_refl _
      | succ d' =>
        rw [stopFrom_close_succ hclose]
        cases d with
        | zero =>
          rw [stopFrom_close_zero hclose]
          exact (stopFrom_bounds h.2.2 d').1
        | succ d =>
          rw [stopFrom_close_succ hclose]
          exact ih h.2.2 (by omega)
    · rw [stopFrom_skip hopen hclose, stopFrom_skip hopen hclose]
      exact ih h.2.2 hle

theorem bounds_of_mem_extents (h : Ordered length start ms) (he : e ∈ extents length ms) :
    start ≤ e.start ∧ e.start ≤ e.brace ∧ e.brace < e.stop ∧ e.stop ≤ length := by
  induction ms generalizing start with
  | nil => simp [extents] at he
  | cons m ms ih =>
    have hstart := h.1
    have hoffset := h.2.1
    have hstop := stopFrom_bounds h.2.2 0
    rw [extents] at he
    split at he
    · rcases List.mem_cons.1 he with rfl | he
      · simp only [Extent.ofMark]
        omega
      · have hrest := ih h.2.2 he
        omega
    · have hrest := ih h.2.2 he
      omega

/-! ## The blocks that are open -/

/-- What the blocks that are open, the innermost first, are to the marks that follow at an offset. -/
structure Open (length start : Nat) (stack : List Extent) (ms : List Mark) : Prop where
  ordered : Ordered length start ms
  stops : ∀ (i : Nat) e, stack[i]? = some e → e.stop = stopFrom length i ms
  nested : stack.Pairwise fun e f => f.brace < e.start
  bounds : ∀ e ∈ stack, e.start ≤ e.brace ∧ e.brace < start

theorem Open.nil (h : Ordered length start ms) : Open length start [] ms :=
  ⟨h, by simp, .nil, by simp⟩

theorem Open.push (h : Open length start stack (m :: ms)) (hsign : m.sign = '\x7b') :
    Open length (m.offset + 1) (.ofMark length m ms :: stack) ms where
  ordered := h.ordered.2.2
  stops := by
    intro i e he
    cases i with
    | zero =>
      obtain rfl := Option.some.inj he
      rfl
    | succ i =>
      rw [List.getElem?_cons_succ] at he
      rw [h.stops i e he, stopFrom_open hsign]
  nested := by
    refine List.pairwise_cons.2 ⟨fun f hf => ?_, h.nested⟩
    have hstart := h.ordered.1
    have hbound := (h.bounds f hf).2
    simp only [Extent.ofMark]
    omega
  bounds := by
    intro f hf
    have hstart := h.ordered.1
    have hoffset := h.ordered.2.1
    rcases List.mem_cons.1 hf with rfl | hf
    · simp only [Extent.ofMark]
      omega
    · have hbound := h.bounds f hf
      omega

/-- A closing brace closes the innermost block. -/
theorem Open.pop (h : Open length start (e :: around) (m :: ms)) (hsign : m.sign = '\x7d') :
    e.stop = m.offset + 1 ∧ Open length (m.offset + 1) around ms := by
  have hoffset := h.ordered.2.1
  refine ⟨?_, h.ordered.2.2, ?_, (List.pairwise_cons.1 h.nested).2, ?_⟩
  · rw [h.stops 0 e rfl, stopFrom_close_zero hsign]
  · intro i f hf
    rw [h.stops (i + 1) f (by rwa [List.getElem?_cons_succ]), stopFrom_close_succ hsign]
  · intro f hf
    have hbound := h.bounds f (List.mem_cons_of_mem _ hf)
    omega

theorem Open.skip (h : Open length start stack (m :: ms)) (hopen : m.sign ≠ '\x7b')
    (hclose : m.sign ≠ '\x7d' ∨ stack = []) : Open length (m.offset + 1) stack ms where
  ordered := h.ordered.2.2
  stops := by
    rcases hclose with hclose | rfl
    · intro i e he
      rw [h.stops i e he, stopFrom_skip hopen hclose]
    · simp
  nested := h.nested
  bounds := by
    intro f hf
    have hoffset := h.ordered.2.1
    have hbound := h.bounds f hf
    omega

/-- An open block closes behind the position. -/
theorem Open.stop_bounds (h : Open length start stack ms) (he : e ∈ stack) : start ≤ e.stop ∧ e.stop ≤ length := by
  obtain ⟨i, hi⟩ := List.mem_iff_getElem?.1 he
  rw [h.stops i e hi]
  exact stopFrom_bounds h.ordered i

/-- The blocks around an open block close no earlier. -/
theorem Open.stop_le (h : Open length start (e :: around) ms) (hf : f ∈ around) : e.stop ≤ f.stop := by
  obtain ⟨i, hi⟩ := List.mem_iff_getElem?.1 hf
  rw [h.stops 0 e rfl, h.stops (i + 1) f (by rwa [List.getElem?_cons_succ])]
  exact stopFrom_mono h.ordered (Nat.zero_le _)

/-! ## The order of closing -/

/-- Open blocks, each with those around it. -/
def closeAll : List Extent → List (Extent × List Extent)
  | [] => []
  | e :: around => (e, around) :: closeAll around

/-- The blocks in the order in which they close, each with the blocks that are open around it then. -/
def closings (length : Nat) : List Extent → List Mark → List (Extent × List Extent)
  | stack, [] => closeAll stack
  | stack, m :: ms =>
    if m.sign = '\x7b' then closings length (.ofMark length m ms :: stack) ms
    else if m.sign = '\x7d' then
      match stack with
      | [] => closings length [] ms
      | e :: around => (e, around) :: closings length around ms
    else closings length stack ms

theorem closings_open (hsign : m.sign = '\x7b') :
    closings length stack (m :: ms) = closings length (.ofMark length m ms :: stack) ms := by
  simp only [closings, hsign, if_true]

theorem closings_close (hsign : m.sign = '\x7d') :
    closings length (e :: around) (m :: ms) = (e, around) :: closings length around ms := by
  simp [closings, hsign]

theorem closings_skip (hopen : m.sign ≠ '\x7b') (hclose : m.sign ≠ '\x7d' ∨ stack = []) :
    closings length stack (m :: ms) = closings length stack ms := by
  rcases hclose with hclose | rfl
  · simp [closings, hopen, hclose]
  · simp [closings, hopen]

/-- A mark opens a block, closes one, or does neither. -/
theorem mark_cases (m : Mark) (stack : List Extent) :
    m.sign = '\x7b' ∨ (m.sign = '\x7d' ∧ ∃ e around, stack = e :: around) ∨
      (m.sign ≠ '\x7b' ∧ (m.sign ≠ '\x7d' ∨ stack = [])) := by
  rcases sign_cases m with hopen | hclose | ⟨hopen, hclose⟩
  · exact .inl hopen
  · cases stack with
    | nil => exact .inr (.inr ⟨by rw [hclose]; decide, .inr rfl⟩)
    | cons e around => exact .inr (.inl ⟨hclose, e, around, rfl⟩)
  · exact .inr (.inr ⟨hopen, .inl hclose⟩)

/-- A mark that closes a block opens none. -/
theorem extents_close (hsign : m.sign = '\x7d') : extents length (m :: ms) = extents length ms := by
  rw [extents, if_neg (by rw [hsign]; decide)]

theorem mem_closeAll_iff : (∃ around, (e, around) ∈ closeAll stack) ↔ e ∈ stack := by
  induction stack with
  | nil => simp [closeAll]
  | cons f stack ih => simp [closeAll, ← ih, exists_or]

/-- **Every block closes.** -/
theorem mem_closings_iff :
    (∃ around, (e, around) ∈ closings length stack ms) ↔ e ∈ stack ∨ e ∈ extents length ms := by
  induction ms generalizing stack with
  | nil => simp [closings, extents, mem_closeAll_iff]
  | cons m ms ih =>
    rcases mark_cases m stack with hopen | ⟨hclose, f, around, rfl⟩ | ⟨hopen, hskip⟩
    · rw [closings_open hopen, ih, extents, if_pos hopen, List.mem_cons, List.mem_cons]
      tauto
    · rw [closings_close hclose, extents_close hclose]
      simp only [List.mem_cons, Prod.mk.injEq, exists_or, ih]
      simp [or_assoc]
    · rw [closings_skip hopen hskip, ih, extents, if_neg hopen]

/-- The blocks around an open block are the open ones that enclose it. -/
theorem mem_around_closeAll (hnested : stack.Pairwise fun e f => f.brace < e.start)
    (hbounds : ∀ e ∈ stack, e.start ≤ e.brace ∧ ∀ f ∈ stack, f.brace < e.stop) (he : (e, around) ∈ closeAll stack) :
    (∀ x, x ∈ around ↔ x ∈ stack ∧ x.Encloses e) ∧ around.Pairwise fun e f => f.brace < e.brace := by
  induction stack with
  | nil => simp [closeAll] at he
  | cons f stack ih =>
    rw [List.pairwise_cons] at hnested
    have hf := hbounds f List.mem_cons_self
    have hrest : ∀ e ∈ stack, e.start ≤ e.brace ∧ ∀ f ∈ stack, f.brace < e.stop := fun e he =>
      ⟨(hbounds e (List.mem_cons_of_mem _ he)).1, fun f hf =>
        (hbounds e (List.mem_cons_of_mem _ he)).2 f (List.mem_cons_of_mem _ hf)⟩
    rw [closeAll, List.mem_cons] at he
    rcases he with heq | he
    · obtain ⟨rfl, rfl⟩ := Prod.mk.inj heq
      refine ⟨fun x => ⟨fun hx => ⟨List.mem_cons_of_mem _ hx, ?_⟩, ?_⟩, ?_⟩
      · have hlt := hnested.1 x hx
        exact ⟨by omega, (hbounds x (List.mem_cons_of_mem _ hx)).2 e List.mem_cons_self⟩
      · rintro ⟨hx, hencloses⟩
        rcases List.mem_cons.1 hx with rfl | hx
        · exact absurd hencloses.1 (Nat.lt_irrefl _)
        · exact hx
      · refine hnested.2.imp_of_mem fun {a b} ha _ hab => ?_
        have hstart := (hrest a ha).1
        omega
    · obtain ⟨hmem, hpairwise⟩ := ih hnested.2 hrest he
      refine ⟨fun x => ?_, hpairwise⟩
      rw [hmem x, List.mem_cons]
      refine ⟨fun hx => ⟨.inr hx.1, hx.2⟩, ?_⟩
      rintro ⟨rfl | hx, hencloses⟩
      · -- an inner block is not around an outer one
        have hlt := hnested.1 e (mem_closeAll_iff.1 ⟨around, he⟩)
        have hbrace := hencloses.1
        omega
      · exact ⟨hx, hencloses⟩

/-- **The blocks that are open around a block when it closes are those that enclose it**, the innermost first. -/
theorem mem_around_iff (h : Open length start stack ms) (he : (e, around) ∈ closings length stack ms) :
    (∀ x, x ∈ around ↔ (x ∈ stack ∨ x ∈ extents length ms) ∧ x.Encloses e) ∧
      around.Pairwise fun e f => f.brace < e.brace := by
  induction ms generalizing start stack with
  | nil =>
    have hstops : ∀ x ∈ stack, x.start ≤ x.brace ∧ ∀ y ∈ stack, y.brace < x.stop := by
      intro x hx
      refine ⟨(h.bounds x hx).1, fun y hy => ?_⟩
      have hstop := (h.stop_bounds hx).1
      have hbrace := (h.bounds y hy).2
      omega
    simpa [extents] using mem_around_closeAll h.nested hstops he
  | cons m ms ih =>
    have hoffset := h.ordered.2.1
    rcases mark_cases m stack with hopen | ⟨hclose, f, rest, rfl⟩ | ⟨hopen, hskip⟩
    · rw [closings_open hopen] at he
      obtain ⟨hmem, hpairwise⟩ := ih (h.push hopen) he
      refine ⟨fun x => ?_, hpairwise⟩
      rw [hmem x, extents, if_pos hopen, List.mem_cons, List.mem_cons]
      tauto
    · rw [closings_close hclose, List.mem_cons] at he
      obtain ⟨hstop, hrest⟩ := h.pop hclose
      have hlater : ∀ x ∈ extents length ms, f.stop ≤ x.brace := fun x hx => by
        have hbound := bounds_of_mem_extents hrest.ordered hx
        omega
      have hf := h.bounds f List.mem_cons_self
      have hnested := List.pairwise_cons.1 h.nested
      rw [extents_close hclose]
      rcases he with heq | he
      · obtain ⟨rfl, rfl⟩ := Prod.mk.inj heq
        refine ⟨fun x => ⟨fun hx => ⟨.inl (List.mem_cons_of_mem _ hx), ?_⟩, ?_⟩, ?_⟩
        · have hlt := hnested.1 x hx
          have hstop := (hrest.stop_bounds hx).1
          exact ⟨by omega, by omega⟩
        · rintro ⟨hx | hx, hencloses⟩
          · rcases List.mem_cons.1 hx with rfl | hx
            · exact absurd hencloses.1 (Nat.lt_irrefl _)
            · exact hx
          · have hlt := hlater x hx
            have hbrace := hencloses.1
            omega
        · refine hnested.2.imp_of_mem fun {a b} ha _ hab => ?_
          have hstart := (hrest.bounds a ha).1
          omega
      · obtain ⟨hmem, hpairwise⟩ := ih hrest he
        refine ⟨fun x => ?_, hpairwise⟩
        rw [hmem x, List.mem_cons]
        refine ⟨fun hx => ⟨hx.1.imp .inr id, hx.2⟩, ?_⟩
        rintro ⟨(rfl | hx) | hx, hencloses⟩
        · -- the block that is closed here encloses no block that closes later
          obtain ⟨hbrace, hbefore⟩ := hencloses
          rcases mem_closings_iff.1 ⟨around, he⟩ with hin | hin
          · have hlt := hnested.1 e hin
            omega
          · have hlt := hlater e hin
            omega
        · exact ⟨.inl hx, hencloses⟩
        · exact ⟨.inr hx, hencloses⟩
    · rw [closings_skip hopen hskip] at he
      rw [extents, if_neg hopen]
      exact ih (h.skip hopen hskip) he

theorem pairwise_closeAll (h : Open length start stack []) :
    (closeAll stack).Pairwise fun c d => c.1.ClosesBefore d.1 ∧ c.1.LiesInOrBefore d.1 := by
  induction stack with
  | nil => exact .nil
  | cons e stack ih =>
    have hrest : Open length start stack [] :=
      ⟨h.ordered, fun i f hf => h.stops (i + 1) f (by rwa [List.getElem?_cons_succ]), (List.pairwise_cons.1 h.nested).2,
        fun f hf => h.bounds f (List.mem_cons_of_mem _ hf)⟩
    rw [closeAll, List.pairwise_cons]
    refine ⟨?_, ih hrest⟩
    rintro ⟨f, around⟩ hf
    have hmem := mem_closeAll_iff.1 ⟨around, hf⟩
    have hlt := (List.pairwise_cons.1 h.nested).1 f hmem
    have hbound := (h.bounds e List.mem_cons_self).1
    have hle := h.stop_le hmem
    refine ⟨?_, .inl ⟨hlt, hle⟩⟩
    rcases Nat.lt_or_eq_of_le hle with hle | heq
    · exact .inl hle
    · exact .inr ⟨heq, by simp only; omega⟩

/-- **Blocks close one after the other, the inner ones first.** -/
theorem pairwise_closings (h : Open length start stack ms) :
    (closings length stack ms).Pairwise fun c d => c.1.ClosesBefore d.1 ∧ c.1.LiesInOrBefore d.1 := by
  induction ms generalizing start stack with
  | nil => exact pairwise_closeAll h
  | cons m ms ih =>
    rcases mark_cases m stack with hopen | ⟨hclose, e, rest, rfl⟩ | ⟨hopen, hskip⟩
    · rw [closings_open hopen]
      exact ih (h.push hopen)
    · obtain ⟨hstop, hrest⟩ := h.pop hclose
      rw [closings_close hclose, List.pairwise_cons]
      refine ⟨?_, ih hrest⟩
      rintro ⟨f, around⟩ hf
      have hbound := (h.bounds e List.mem_cons_self).1
      rcases mem_closings_iff.1 ⟨around, hf⟩ with hmem | hmem
      · have hlt := (List.pairwise_cons.1 h.nested).1 f hmem
        have hle := h.stop_le hmem
        refine ⟨?_, .inl ⟨hlt, hle⟩⟩
        rcases Nat.lt_or_eq_of_le hle with hle | heq
        · exact .inl hle
        · exact .inr ⟨heq, by simp only; omega⟩
      · have hlater := bounds_of_mem_extents hrest.ordered hmem
        exact ⟨.inl (by simp only; omega), .inr (by simp only; omega)⟩
    · rw [closings_skip hopen hskip]
      exact ih (h.skip hopen hskip)

end LiveMarkup.Css
