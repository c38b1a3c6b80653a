/-
The entries of a selector list.

The splitter is outside of everything whenever it cuts (`step_eq_outside`), so each piece is read as if it
stood alone. Trimming a piece changes nothing about how it is read (`listed_trim`), and neither does leaving
out the empty ones (`listed_filter`): the entries put together are cut where they were put together
(`cutAtCommas_intercalate`). Main fact: `splitSelectors_keeps`.
-/
import LiveMarkup.Proofs.Css.Plain
import LiveMarkup.Proofs.Text.Chars

set_option autoImplicit false

namespace LiveMarkup.Css

open Text

variable {n : Nesting} {c : Char} {p q cs ds : List Char} {ps : List (List Char)}

/-! ## Texts without a separating comma -/

namespace Nesting

/-- What is open after a text. -/
def after (n : Nesting) (cs : List Char) : Nesting := cs.foldl step n

/-- No character of a text separates entries. -/
def Uncut : Nesting → List Char → Prop
  | _, [] => True
  | n, c :: cs => n.separates c = false ∧ (n.step c).Uncut cs

theorem after_append (n : Nesting) (cs ds : List Char) : n.after (cs ++ ds) = (n.after cs).after ds :=
  List.foldl_append

theorem uncut_append : n.Uncut (cs ++ ds) ↔ n.Uncut cs ∧ (n.after cs).Uncut ds := by
  induction cs generalizing n with
  | nil => simp [Uncut, after]
  | cons c cs ih =>
    rw [List.cons_append, Uncut, Uncut, ih, and_assoc]
    rfl

/-- A character can be escaped in a string only, and no string ends with white space. -/
structure Sound (n : Nesting) : Prop where
  escaped : n.quote = none → n.escaped = false
  quote : ∀ q, n.quote = some q → isBlank q = false

theorem sound_outside : Sound .outside := ⟨fun _ => rfl, nofun⟩

theorem sound_step (h : n.Sound) (c : Char) : (n.step c).Sound := by
  obtain ⟨parens, brackets, quote, escaped⟩ := n
  obtain ⟨hescaped, hquote⟩ := h
  cases quote with
  | some quote =>
    have hblank : isBlank quote = false := hquote quote rfl
    have hinside : ∀ q, some quote = some q → isBlank q = false := fun q hq => Option.some.inj hq ▸ hblank
    unfold step
    simp only
    split
    · exact ⟨nofun, hinside⟩
    · rename_i hplain
      have hplain : escaped = false := Bool.eq_false_iff.2 hplain
      split
      · exact ⟨nofun, hinside⟩
      · split
        · exact ⟨fun _ => hplain, nofun⟩
        · exact ⟨nofun, hinside⟩
  | none =>
    have hplain : escaped = false := hescaped rfl
    unfold step
    simp only
    split
    · exact ⟨nofun, fun q hq => Option.some.inj hq ▸ rfl⟩
    · exact ⟨nofun, fun q hq => Option.some.inj hq ▸ rfl⟩
    all_goals exact ⟨fun _ => hplain, nofun⟩

theorem sound_after (h : n.Sound) (cs : List Char) : (n.after cs).Sound := by
  induction cs generalizing n with
  | nil => exact h
  | cons c cs ih => exact ih (sound_step h c)

/-- **Nothing is open at a separating comma.** -/
theorem eq_outside_of_separates (hn : n.Sound) (h : n.separates c = true) : n = .outside ∧ c = ',' := by
  obtain ⟨parens, brackets, quote, escaped⟩ := n
  simp only [separates, Bool.and_eq_true, beq_iff_eq, Option.isNone_iff_eq_none] at h
  obtain ⟨⟨⟨rfl, rfl⟩, rfl⟩, rfl⟩ := h
  have hescaped : escaped = false := hn.escaped rfl
  rw [hescaped]
  exact ⟨rfl, rfl⟩

/-! ## White space -/

theorem isMark_of_isBlank (h : isBlank c = true) : isMark c = false := by
  rw [Bool.eq_false_iff]
  intro hmark
  simp only [isMark, List.contains_cons, List.contains_nil, Bool.or_eq_true, beq_iff_eq, Bool.or_false] at hmark
  rcases hmark with rfl | rfl | rfl | rfl | rfl | rfl | rfl <;> exact absurd h (by decide)

/-- Outside of strings, white space changes nothing. -/
theorem step_blank (hc : isBlank c = true) (hquote : n.quote = none) : n.step c = n := by
  have hne {d : Char} (hd : isMark d = true) : c ≠ d := ne_of_isMark (isMark_of_isBlank hc) hd
  unfold step
  rw [hquote]
  simp only
  split
  all_goals first | rfl | exact absurd rfl (hne rfl)

/-- White space does not end a string. -/
theorem quote_of_step_blank (hn : n.Sound) (hc : isBlank c = true) (h : (n.step c).quote = none) :
    n.quote = none := by
  obtain ⟨parens, brackets, quote, escaped⟩ := n
  cases quote with
  | none => rfl
  | some quote =>
    have hne : c ≠ quote := by
      rintro rfl
      exact absurd hc (Bool.eq_false_iff.1 (hn.quote c rfl))
    unfold step at h
    simp only [hne, if_false] at h
    split at h
    · exact absurd h nofun
    · split at h <;> exact absurd h nofun

theorem after_blank (hblank : Blank cs) (hquote : n.quote = none) : n.after cs = n := by
  induction cs with
  | nil => rfl
  | cons c cs ih =>
    have hc := hblank c List.mem_cons_self
    change (n.step c).after cs = n
    rw [step_blank hc hquote]
    exact ih fun d hd => hblank d (List.mem_cons_of_mem _ hd)

/-- White space after which nothing is open has nothing open before it. -/
theorem eq_outside_of_after_blank (hn : n.Sound) (hblank : Blank cs) (h : n.after cs = .outside) : n = .outside := by
  induction cs generalizing n with
  | nil => exact h
  | cons c cs ih =>
    have hc := hblank c List.mem_cons_self
    have hstep : n.step c = .outside :=
      ih (sound_step hn c) (fun d hd => hblank d (List.mem_cons_of_mem _ hd)) h
    have hquote : n.quote = none := quote_of_step_blank hn hc (by rw [hstep]; rfl)
    rw [← step_blank hc hquote, hstep]

end Nesting

/-! ## Pieces and entries -/

/-- Pieces of a list: no comma in any of them separates, and nothing is open at the end of a piece unless it
is the last. -/
inductive Listed : List (List Char) → Prop
  | nil : Listed []
  | last {p : List Char} : Nesting.outside.Uncut p → Listed [p]
  | cons {p : List Char} {ps : List (List Char)} : Nesting.outside.Uncut p → Nesting.outside.after p = .outside →
      Listed ps → Listed (p :: ps)

theorem passes_of_uncut (h : n.Uncut cs) : Passes n cs (n.after cs) := by
  induction cs generalizing n with
  | nil => exact .nil n
  | cons c cs ih => exact .cons h.1 (ih h.2)

theorem cutAtCommas_of_uncut (h : n.Uncut p) : cutAtCommas n p = [p] := by
  have hpass := passes_of_uncut h []
  rw [List.append_nil] at hpass
  rw [hpass, cutAtCommas, List.modifyHead_cons, List.append_nil]

/-- A separating comma ends a piece. -/
theorem cutAtCommas_comma (h : n.Uncut p) (hafter : n.after p = .outside) (cs : List Char) :
    cutAtCommas n (p ++ ',' :: cs) = p :: cutAtCommas .outside cs := by
  have hcut : cutAtCommas .outside (',' :: cs) = [] :: cutAtCommas .outside cs := rfl
  rw [passes_of_uncut h, hafter, hcut, List.modifyHead_cons, List.append_nil]

/-- A text either has no separating comma or goes on after the first one. -/
theorem uncut_or_comma (hn : n.Sound) (cs : List Char) :
    n.Uncut cs ∨ ∃ p rest, cs = p ++ ',' :: rest ∧ n.Uncut p ∧ n.after p = .outside := by
  induction cs generalizing n with
  | nil => exact .inl trivial
  | cons c cs ih =>
    cases hc : n.separates c with
    | true =>
      obtain ⟨rfl, rfl⟩ := Nesting.eq_outside_of_separates hn hc
      exact .inr ⟨[], cs, rfl, trivial, rfl⟩
    | false =>
      rcases ih (Nesting.sound_step hn c) with huncut | ⟨p, rest, rfl, huncut, hafter⟩
      · exact .inl ⟨hc, huncut⟩
      · exact .inr ⟨c :: p, rest, rfl, ⟨hc, huncut⟩, hafter⟩

/-- **A text is taken apart at its separating commas.** -/
theorem pieces_ind {P : List Char → Prop} (last : ∀ p, Nesting.outside.Uncut p → P p)
    (comma : ∀ p rest, Nesting.outside.Uncut p → Nesting.outside.after p = .outside → P rest → P (p ++ ',' :: rest))
    (text : List Char) : P text := by
  rcases uncut_or_comma Nesting.sound_outside text with huncut | ⟨p, rest, htext, huncut, hafter⟩
  · exact last text huncut
  · rw [htext]
    exact comma p rest huncut hafter (pieces_ind last comma rest)
termination_by text.length
decreasing_by
  rw [htext, List.length_append, List.length_cons]
  omega

theorem listed_cutAtCommas (text : List Char) : Listed (cutAtCommas .outside text) := by
  induction text using pieces_ind with
  | last p huncut =>
    rw [cutAtCommas_of_uncut huncut]
    exact .last huncut
  | comma p rest huncut hafter ih =>
    rw [cutAtCommas_comma huncut hafter]
    exact .cons huncut hafter ih

/-- **Pieces that are put together are cut where they were put together.** -/
theorem cutAtCommas_intercalate (h : Listed ps) (hne : ps ≠ []) :
    cutAtCommas .outside (List.intercalate [','] ps) = ps := by
  induction h with
  | nil => exact absurd rfl hne
  | last huncut =>
    rw [List.intercalate_singleton]
    exact cutAtCommas_of_uncut huncut
  | @cons p ps huncut hafter _ ih =>
    cases ps with
    | nil =>
      rw [List.intercalate_singleton]
      exact cutAtCommas_of_uncut huncut
    | cons q ps =>
      rw [List.intercalate_cons_cons, List.append_assoc, List.singleton_append, cutAtCommas_comma huncut hafter,
        ih (List.cons_ne_nil _ _)]

theorem Listed.uncut (h : Listed ps) (hp : p ∈ ps) : Nesting.outside.Uncut p := by
  induction h with
  | nil => exact absurd hp List.not_mem_nil
  | last huncut => exact List.mem_singleton.1 hp ▸ huncut
  | cons huncut _ _ ih =>
    rcases List.mem_cons.1 hp with rfl | hp
    · exact huncut
    · exact ih hp

theorem listed_filter (h : Listed ps) (f : List Char → Bool) : Listed (ps.filter f) := by
  induction h with
  | nil => exact .nil
  | @last p huncut =>
    rw [List.filter_singleton]
    cases f p with
    | true => exact .last huncut
    | false => exact .nil
  | @cons p ps huncut hafter _ ih =>
    rw [List.filter_cons]
    split
    · exact .cons huncut hafter ih
    · exact ih

/-! ## Trimming -/

/-- A text is what is left of it, between white space. -/
theorem exists_trim (cs : List Char) :
    ∃ lead trail, Blank lead ∧ Blank trail ∧ cs = lead ++ (trim cs ++ trail) ∧ Flush (trim cs) ∧ FlushEnd (trim cs) := by
  obtain ⟨lead, hlead, hcs, hflush⟩ := exists_trimStart cs
  obtain ⟨trail, htrail, hinner, hend⟩ := exists_trimEnd (trimStart cs)
  refine ⟨lead, trail, hlead, htrail, ?_, ?_, hend⟩
  · rw [trim, ← hinner]
    exact hcs
  · intro c hc
    apply hflush
    rw [hinner, List.head?_append]
    rw [trim] at hc
    rw [hc]
    rfl

theorem trim_trim (cs : List Char) : trim (trim cs) = trim cs := by
  obtain ⟨lead, trail, -, -, -, hflush, hend⟩ := exists_trim cs
  rw [trim, trimStart_eq hflush, trimEnd_eq hend]

theorem uncut_trim (h : Nesting.outside.Uncut p) : Nesting.outside.Uncut (trim p) := by
  obtain ⟨lead, trail, hlead, -, hp, -, -⟩ := exists_trim p
  rw [hp, Nesting.uncut_append, Nesting.after_blank hlead rfl, Nesting.uncut_append] at h
  exact h.2.1

theorem after_trim (h : Nesting.outside.after p = .outside) : Nesting.outside.after (trim p) = .outside := by
  obtain ⟨lead, trail, hlead, htrail, hp, -, -⟩ := exists_trim p
  rw [hp, Nesting.after_append, Nesting.after_blank hlead rfl, Nesting.after_append] at h
  exact Nesting.eq_outside_of_after_blank (Nesting.sound_after Nesting.sound_outside _) htrail h

/-- **Trimming keeps how pieces are read.** -/
theorem listed_trim (h : Listed ps) : Listed (ps.map trim) := by
  induction h with
  | nil => exact .nil
  | last huncut => exact .last (uncut_trim huncut)
  | cons huncut hafter _ ih => exact .cons (uncut_trim huncut) (after_trim hafter) ih

theorem listed_splitSelectors (text : List Char) : Listed (splitSelectors text) :=
  listed_filter (listed_trim (listed_cutAtCommas text)) _

theorem of_mem_splitSelectors {text entry : List Char} (h : entry ∈ splitSelectors text) :
    entry ≠ [] ∧ trim entry = entry := by
  obtain ⟨hmem, hne⟩ := List.mem_filter.1 h
  obtain ⟨piece, -, rfl⟩ := List.mem_map.1 hmem
  refine ⟨?_, trim_trim piece⟩
  intro hnil
  rw [hnil] at hne
  exact absurd hne (by decide)

/-- Entries stay as they are when they are trimmed again. -/
theorem trimmed_splitSelectors (text : List Char) :
    ((splitSelectors text).map trim).filter (fun entry => !entry.isEmpty) = splitSelectors text := by
  have hmap : (splitSelectors text).map trim = splitSelectors text := by
    conv_rhs => rw [← List.map_id (splitSelectors text)]
    exact List.map_congr_left fun entry h => (of_mem_splitSelectors h).2
  rw [hmap, List.filter_eq_self]
  intro entry h
  cases entry with
  | nil => exact absurd rfl (of_mem_splitSelectors h).1
  | cons c cs => rfl

/-! ## What is left of a list -/

/-- The characters of a text at the positions that satisfy `f`. -/
def pick : (Nat → Bool) → List Char → List Char
  | _, [] => []
  | f, c :: cs => if f 0 then c :: pick (fun i => f (i + 1)) cs else pick (fun i => f (i + 1)) cs

/-- Whether the character at a position separates entries. -/
def Nesting.separatesAt (n : Nesting) (text : List Char) (i : Nat) : Bool :=
  text[i]?.any (n.after (text.take i)).separates

/-- Whether the character at a position is white space. -/
def blankAt (text : List Char) (i : Nat) : Bool := text[i]?.any isBlank

/-- A part of a text reaches one of the ends of the text or a separating comma. -/
def Reaches (text : List Char) (start stop : Nat) : Prop :=
  start = 0 ∨ Nesting.outside.separatesAt text (start - 1) = true ∨ stop = text.length ∨
    Nesting.outside.separatesAt text stop = true

/-- The character at a position is a separating comma, or it lies in white space that reaches one or an end
of the text. -/
def Dropped (text : List Char) (i : Nat) : Prop :=
  Nesting.outside.separatesAt text i = true ∨
    ∃ start, start ≤ i ∧ ∃ stop, stop ≤ text.length ∧ i < stop ∧
      (∀ k, k < stop → start ≤ k → blankAt text k = true) ∧ Reaches text start stop

instance (text : List Char) (start stop : Nat) : Decidable (Reaches text start stop) :=
  inferInstanceAs (Decidable (_ ∨ _ ∨ _ ∨ _))

instance (text : List Char) (i : Nat) : Decidable (Dropped text i) :=
  inferInstanceAs (Decidable (_ ∨ ∃ start, start ≤ i ∧ ∃ stop, stop ≤ text.length ∧ i < stop ∧
    (∀ k, k < stop → start ≤ k → blankAt text k = true) ∧ Reaches text start stop))

/-- A text without its separating commas and the white space beside them and at its ends. -/
def remaining (text : List Char) : List Char := pick (fun i => !decide (Dropped text i)) text

section Pick

variable {f g : Nat → Bool}

theorem pick_append (f : Nat → Bool) (xs ys : List Char) :
    pick f (xs ++ ys) = pick f xs ++ pick (fun i => f (xs.length + i)) ys := by
  induction xs generalizing f with
  | nil => simp [pick]
  | cons x xs ih =>
    have hshift : (fun i => f ((x :: xs).length + i)) = fun i => f (xs.length + i + 1) := by
      funext i
      rw [List.length_cons, Nat.add_right_comm]
    rw [List.cons_append, pick, pick, ih, hshift]
    split <;> rfl

theorem pick_congr (h : ∀ i, i < cs.length → f i = g i) : pick f cs = pick g cs := by
  induction cs generalizing f g with
  | nil => rfl
  | cons c cs ih =>
    have htail : pick (fun i => f (i + 1)) cs = pick (fun i => g (i + 1)) cs := by
      apply ih
      intro i hi
      exact h (i + 1) (by simpa using hi)
    rw [pick, pick, htail, h 0 (by simp)]

theorem pick_true (cs : List Char) : pick (fun _ => true) cs = cs := by
  induction cs with
  | nil => rfl
  | cons c cs ih => rw [pick, if_pos rfl, ih]

theorem pick_false (cs : List Char) : pick (fun _ => false) cs = [] := by
  induction cs with
  | nil => rfl
  | cons c cs ih => rw [pick, if_neg Bool.false_ne_true, ih]

end Pick

section Positions

variable {i : Nat}

theorem separatesAt_left (n : Nesting) (ds : List Char) (hi : i < p.length) :
    n.separatesAt (p ++ ds) i = n.separatesAt p i := by
  rw [Nesting.separatesAt, Nesting.separatesAt, List.getElem?_append_left hi,
    List.take_append_of_le_length (Nat.le_of_lt hi)]

theorem separatesAt_right (n : Nesting) (p ds : List Char) (i : Nat) :
    n.separatesAt (p ++ ds) (p.length + i) = (n.after p).separatesAt ds i := by
  rw [Nesting.separatesAt, Nesting.separatesAt, List.getElem?_append_right (Nat.le_add_right _ _),
    Nat.add_sub_cancel_left, List.take_length_add_append, Nesting.after_append]

theorem separatesAt_of_uncut (h : n.Uncut p) (i : Nat) : n.separatesAt p i = false := by
  induction p generalizing n i with
  | nil => rfl
  | cons c p ih =>
    cases i with
    | zero => exact h.1
    | succ i => exact ih h.2 i

theorem blankAt_left (ds : List Char) (hi : i < p.length) : blankAt (p ++ ds) i = blankAt p i := by
  rw [blankAt, blankAt, List.getElem?_append_left hi]

theorem blankAt_right (p ds : List Char) (i : Nat) : blankAt (p ++ ds) (p.length + i) = blankAt ds i := by
  rw [blankAt, blankAt, List.getElem?_append_right (Nat.le_add_right _ _), Nat.add_sub_cancel_left]

theorem blankAt_comma (p rest : List Char) : blankAt (p ++ ',' :: rest) p.length = false := by
  rw [← Nat.add_zero p.length, blankAt_right]
  rfl

theorem blankAt_of_blank (h : Blank cs) (hi : i < cs.length) : blankAt cs i = true := by
  rw [blankAt, List.getElem?_eq_getElem hi]
  exact h _ (List.getElem_mem hi)

end Positions

/-- The character at a position lies in white space at an end of the text. -/
def Margin (text : List Char) (i : Nat) : Prop :=
  ∃ start, start ≤ i ∧ ∃ stop, stop ≤ text.length ∧ i < stop ∧
    (∀ k, k < stop → start ≤ k → blankAt text k = true) ∧ (start = 0 ∨ stop = text.length)

instance (text : List Char) (i : Nat) : Decidable (Margin text i) :=
  inferInstanceAs (Decidable (∃ start, start ≤ i ∧ ∃ stop, stop ≤ text.length ∧ i < stop ∧
    (∀ k, k < stop → start ≤ k → blankAt text k = true) ∧ (start = 0 ∨ stop = text.length)))

/-- **In a piece, the white space at its ends is dropped.** -/
theorem dropped_left (huncut : Nesting.outside.Uncut p)
    (hds : ds = [] ∨ Nesting.outside.after p = .outside ∧ ∃ rest, ds = ',' :: rest) {i : Nat} (hi : i < p.length) :
    Dropped (p ++ ds) i ↔ Margin p i := by
  have hsep : ∀ k, k < p.length → Nesting.outside.separatesAt (p ++ ds) k = false := by
    intro k hk
    rw [separatesAt_left _ _ hk, separatesAt_of_uncut huncut]
  constructor
  · rintro (hsepi | ⟨start, hstart, stop, hstop, hlt, hblank, hreach⟩)
    · rw [hsep i hi] at hsepi
      exact absurd hsepi Bool.false_ne_true
    · -- the white space ends with the piece, since a comma follows or nothing does
      have hle : stop ≤ p.length := by
        rcases hds with rfl | ⟨-, rest, rfl⟩
        · simpa using hstop
        · by_contra hgt
          have hcomma := hblank p.length (by omega) (by omega)
          rw [blankAt_comma] at hcomma
          exact absurd hcomma Bool.false_ne_true
      refine ⟨start, hstart, stop, hle, hlt, ?_, ?_⟩
      · intro k hk hk'
        rw [← blankAt_left ds (by omega)]
        exact hblank k hk hk'
      · rcases hreach with hzero | hbefore | hend | hbehind
        · exact .inl hzero
        · rw [hsep _ (by omega)] at hbefore
          exact absurd hbefore Bool.false_ne_true
        · rw [List.length_append] at hend
          exact .inr (by omega)
        · by_cases hstop' : stop < p.length
          · rw [hsep _ hstop'] at hbehind
            exact absurd hbehind Bool.false_ne_true
          · exact .inr (by omega)
  · rintro ⟨start, hstart, stop, hstop, hlt, hblank, hend⟩
    refine .inr ⟨start, hstart, stop, ?_, hlt, ?_, ?_⟩
    · rw [List.length_append]
      omega
    · intro k hk hk'
      rw [blankAt_left ds (by omega)]
      exact hblank k hk hk'
    · rcases hend with hzero | hend
      · exact .inl hzero
      · rcases hds with rfl | ⟨hafter, rest, rfl⟩
        · exact .inr (.inr (.inl (by simpa using hend)))
        · refine .inr (.inr (.inr ?_))
          rw [hend, ← Nat.add_zero p.length, separatesAt_right, hafter]
          rfl

/-- **Behind a separating comma, the rest of the list stands as if alone.** -/
theorem dropped_right (hafter : Nesting.outside.after p = .outside) (rest : List Char) (i : Nat) :
    Dropped (p ++ ',' :: rest) (p.length + (1 + i)) ↔ Dropped rest i := by
  have hsep : ∀ k, Nesting.outside.separatesAt (p ++ ',' :: rest) (p.length + (1 + k))
      = Nesting.outside.separatesAt rest k := by
    intro k
    rw [separatesAt_right, hafter, Nat.add_comm 1]
    rfl
  have hblankAt : ∀ k, blankAt (p ++ ',' :: rest) (p.length + (1 + k)) = blankAt rest k := by
    intro k
    rw [blankAt_right, Nat.add_comm 1]
    rfl
  have hcomma : Nesting.outside.separatesAt (p ++ ',' :: rest) p.length = true := by
    rw [← Nat.add_zero p.length, separatesAt_right, hafter]
    rfl
  have hlength : (p ++ ',' :: rest).length = p.length + (1 + rest.length) := by
    rw [List.length_append, List.length_cons, Nat.add_comm 1]
  rw [Dropped, Dropped, hsep]
  refine or_congr_right ?_
  constructor
  · rintro ⟨start, hstart, stop, hstop, hlt, hblank, hreach⟩
    -- a comma is no white space, so the white space starts behind it
    have hbehind : p.length < start := by
      by_contra hle
      have hcomma := hblank p.length (by omega) (by omega)
      rw [blankAt_comma] at hcomma
      exact absurd hcomma Bool.false_ne_true
    obtain ⟨start, rfl⟩ : ∃ k, start = p.length + (1 + k) := ⟨start - p.length - 1, by omega⟩
    obtain ⟨stop, rfl⟩ : ∃ k, stop = p.length + (1 + k) := ⟨stop - p.length - 1, by omega⟩
    refine ⟨start, by omega, stop, by omega, by omega, ?_, ?_⟩
    · intro k hk hk'
      rw [← hblankAt]
      exact hblank _ (by omega) (by omega)
    · rcases hreach with hzero | hbefore | hend | hbehind
      · omega
      · by_cases hstart' : start = 0
        · exact .inl hstart'
        · rw [show p.length + (1 + start) - 1 = p.length + (1 + (start - 1)) by omega, hsep] at hbefore
          exact .inr (.inl hbefore)
      · exact .inr (.inr (.inl (by omega)))
      · rw [hsep] at hbehind
        exact .inr (.inr (.inr hbehind))
  · rintro ⟨start, hstart, stop, hstop, hlt, hblank, hreach⟩
    refine ⟨p.length + (1 + start), by omega, p.length + (1 + stop), by omega, by omega, ?_, ?_⟩
    · intro k hk hk'
      rw [show k = p.length + (1 + (k - p.length - 1)) by omega, hblankAt]
      exact hblank _ (by omega) (by omega)
    · by_cases hstart' : start = 0
      · refine .inr (.inl ?_)
        rw [hstart']
        exact hcomma
      · rcases hreach with hzero | hbefore | hend | hbehind
        · exact absurd hzero hstart'
        · refine .inr (.inl ?_)
          rw [show p.length + (1 + start) - 1 = p.length + (1 + (start - 1)) by omega, hsep]
          exact hbefore
        · exact .inr (.inr (.inl (by omega)))
        · refine .inr (.inr (.inr ?_))
          rw [hsep]
          exact hbehind

/-- In what is left after trimming, no position lies in white space at an end. -/
theorem not_margin (hflush : Flush q) (hend : FlushEnd q) (lead trail : List Char) {i : Nat} (hi : i < q.length) :
    ¬ Margin (lead ++ (q ++ trail)) (lead.length + i) := by
  have hinner : ∀ k, k < q.length → blankAt (lead ++ (q ++ trail)) (lead.length + k) = isBlank q[k]! := by
    intro k hk
    rw [blankAt_right, blankAt_left _ hk, blankAt, List.getElem?_eq_getElem hk, getElem!_pos q k hk]
    rfl
  have hne : q ≠ [] := List.ne_nil_of_length_pos (by omega)
  rintro ⟨start, hstart, stop, hstop, hlt, hblank, hzero | hstop'⟩
  · -- the first character is white space
    have hfirst := hblank (lead.length + 0) (by omega) (by omega)
    rw [hinner 0 (by omega), getElem!_pos q 0 (by omega), ← List.head_eq_getElem hne,
      hflush _ (List.head?_eq_some_head hne)] at hfirst
    exact absurd hfirst Bool.false_ne_true
  · -- the last one is
    have hlength : (lead ++ (q ++ trail)).length = lead.length + (q.length + trail.length) := by simp
    have hlast := hblank (lead.length + (q.length - 1)) (by omega) (by omega)
    rw [hinner _ (by omega), getElem!_pos q _ (by omega), ← List.getLast_eq_getElem hne,
      hend _ (List.getLast?_eq_some_getLast hne)] at hlast
    exact absurd hlast Bool.false_ne_true

/-- **Trimming drops the white space at the ends.** -/
theorem pick_margin (cs : List Char) : pick (fun i => !decide (Margin cs i)) cs = trim cs := by
  obtain ⟨lead, trail, hlead, htrail, hcs, hflush, hend⟩ := exists_trim cs
  generalize trim cs = q at *
  subst hcs
  have hleading : ∀ i, i < lead.length → Margin (lead ++ (q ++ trail)) i := by
    intro i hi
    refine ⟨0, Nat.zero_le _, lead.length, by simp, hi, ?_, .inl rfl⟩
    intro k hk _
    rw [blankAt_left _ hk]
    exact blankAt_of_blank hlead hk
  have htrailing : ∀ i, i < trail.length → Margin (lead ++ (q ++ trail)) (lead.length + (q.length + i)) := by
    intro i hi
    refine ⟨lead.length + q.length, by omega, (lead ++ (q ++ trail)).length, Nat.le_refl _, by simp; omega, ?_,
      .inr rfl⟩
    intro k hk hk'
    have hlength : (lead ++ (q ++ trail)).length = lead.length + (q.length + trail.length) := by simp
    rw [show k = lead.length + (q.length + (k - lead.length - q.length)) by omega, blankAt_right, blankAt_right]
    exact blankAt_of_blank htrail (by omega)
  have hfirst : pick (fun i => !decide (Margin (lead ++ (q ++ trail)) i)) lead = [] := by
    rw [← pick_false lead]
    apply pick_congr
    intro i hi
    simp [hleading i hi]
  have hsecond : pick (fun i => !decide (Margin (lead ++ (q ++ trail)) (lead.length + i))) q = q := by
    conv_rhs => rw [← pick_true q]
    apply pick_congr
    intro i hi
    simp [not_margin hflush hend lead trail hi]
  have hthird : pick (fun i => !decide (Margin (lead ++ (q ++ trail)) (lead.length + (q.length + i)))) trail = [] := by
    rw [← pick_false trail]
    apply pick_congr
    intro i hi
    simp [htrailing i hi]
  rw [pick_append, pick_append, hfirst, hsecond, hthird, List.nil_append, List.append_nil]

/-- A piece leaves its trimmed text. -/
theorem pick_piece (huncut : Nesting.outside.Uncut p)
    (hds : ds = [] ∨ Nesting.outside.after p = .outside ∧ ∃ rest, ds = ',' :: rest) :
    pick (fun i => !decide (Dropped (p ++ ds) i)) p = trim p := by
  rw [← pick_margin]
  apply pick_congr
  intro i hi
  simp [dropped_left huncut hds hi]

/-- **The trimmed pieces are what is left of a list.** -/
theorem flatten_pieces (text : List Char) : ((cutAtCommas .outside text).map trim).flatten = remaining text := by
  induction text using pieces_ind with
  | last p huncut =>
    have hpiece : pick (fun i => !decide (Dropped (p ++ []) i)) p = trim p := pick_piece huncut (.inl rfl)
    rw [List.append_nil] at hpiece
    rw [cutAtCommas_of_uncut huncut, remaining, hpiece]
    simp
  | comma p rest huncut hafter ih =>
    have hpiece : pick (fun i => !decide (Dropped (p ++ ',' :: rest) i)) p = trim p :=
      pick_piece huncut (.inr ⟨hafter, rest, rfl⟩)
    have hcomma : Dropped (p ++ ',' :: rest) (p.length + 0) := by
      refine .inl ?_
      rw [separatesAt_right, hafter]
      rfl
    have hrest : pick (fun i => !decide (Dropped (p ++ ',' :: rest) (p.length + (i + 1)))) rest = remaining rest := by
      apply pick_congr
      intro i _
      rw [Nat.add_comm i, decide_eq_decide.2 (dropped_right hafter rest i)]
    have htext : remaining (p ++ ',' :: rest) = trim p ++ remaining rest := by
      rw [remaining, pick_append, hpiece, pick, decide_eq_true hcomma, if_neg (by decide), hrest]
    rw [cutAtCommas_comma huncut hafter, List.map_cons, List.flatten_cons, ih, htext]

/-- **Splitting a selector list loses nothing and is stable.** The entries are trimmed, not empty and whole;
put together with commas they are split again where they were put together; and one after the other they are
the text without its separating commas and the white space beside those and at its ends. -/
theorem splitSelectors_keeps (text : List Char) :
    (∀ entry ∈ splitSelectors text, entry ≠ [] ∧ trim entry = entry ∧ splitSelectors entry = [entry]) ∧
      splitSelectors (List.intercalate [','] (splitSelectors text)) = splitSelectors text ∧
      (splitSelectors text).flatten = remaining text := by
  have hlisted := listed_splitSelectors text
  refine ⟨?_, ?_, ?_⟩
  · intro entry h
    obtain ⟨hne, htrim⟩ := of_mem_splitSelectors h
    refine ⟨hne, htrim, ?_⟩
    rw [splitSelectors, cutAtCommas_of_uncut (hlisted.uncut h), List.map_singleton, htrim, List.filter_singleton]
    cases entry with
    | nil => exact absurd rfl hne
    | cons c cs => rfl
  · cases hentries : splitSelectors text with
    | nil => rfl
    | cons entry entries =>
      rw [← hentries, splitSelectors, cutAtCommas_intercalate hlisted (by rw [hentries]; exact List.cons_ne_nil _ _)]
      exact trimmed_splitSelectors text
  · rw [splitSelectors, List.flatten_filter_not_isEmpty, flatten_pieces]

example : remaining " a , )b[,],'c ".toList = "a)b[,]'c".toList := by decide

end LiveMarkup.Css
