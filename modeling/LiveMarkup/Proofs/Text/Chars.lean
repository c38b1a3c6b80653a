/-
Characters and the white space around a text.

Every class of ASCII characters is a set of code points, so a question about one character and several
classes is a question about numbers, which linear arithmetic answers. This file translates the classes
that markup is made of.

Trimming takes the longest white space from an end (`exists_trimEnd`, `exists_trimStart`), so white space that is
added to the end changes nothing (`trimEnd_append`), and the order in which the ends are trimmed does not matter
(`trim_trimEnd`).
-/
import LiveMarkup.Text.Ascii
import LiveMarkup.Text.Blank
import LiveMarkup.Text.Bytes
import Mathlib

set_option autoImplicit false

namespace LiveMarkup.Text

/-! ## Classes of characters -/

theorem utf8Size_eq_one (c : Char) : c.utf8Size = 1 ↔ c.toNat ≤ 127 := by
  rw [Char.utf8Size_eq_one_iff, UInt32.le_iff_toNat_le]
  rfl

theorem toNat_toLower (c : Char) :
    c.toLower.toNat = if 65 ≤ c.toNat ∧ c.toNat ≤ 90 then c.toNat + 32 else c.toNat := by
  have hupper : (c.val ≥ 'A'.val ∧ c.val ≤ 'Z'.val) ↔ 65 ≤ c.toNat ∧ c.toNat ≤ 90 := by
    rw [ge_iff_le, UInt32.le_iff_toNat_le, UInt32.le_iff_toNat_le]
    rfl
  unfold Char.toLower
  by_cases h : c.val ≥ 'A'.val ∧ c.val ≤ 'Z'.val
  · rw [dif_pos h, if_pos (hupper.1 h)]
    have h' := hupper.1 h
    change (c.val + ('a'.val - 'A'.val)).toNat = c.val.toNat + 32
    change 65 ≤ c.val.toNat ∧ c.val.toNat ≤ 90 at h'
    rw [UInt32.toNat_add]
    change (c.val.toNat + 32) % 2 ^ 32 = _
    omega
  · rw [dif_neg h, if_neg fun h' => h (hupper.2 h')]

theorem isAlpha_iff (c : Char) :
    c.isAlpha = true ↔ (65 ≤ c.toNat ∧ c.toNat ≤ 90) ∨ (97 ≤ c.toNat ∧ c.toNat ≤ 122) := by
  simp only [Char.isAlpha, Char.isUpper, Char.isLower, Bool.or_eq_true, decide_eq_true_eq,
    Bool.and_eq_true, ge_iff_le, UInt32.le_iff_toNat_le]
  rfl

theorem isUpper_iff (c : Char) : c.isUpper = true ↔ 65 ≤ c.toNat ∧ c.toNat ≤ 90 := by
  simp only [Char.isUpper, decide_eq_true_eq, ge_iff_le, UInt32.le_iff_toNat_le]
  rfl

theorem isAlphanum_iff (c : Char) :
    c.isAlphanum = true ↔ c.isAlpha = true ∨ (48 ≤ c.toNat ∧ c.toNat ≤ 57) := by
  simp only [Char.isAlphanum, Char.isDigit, Bool.or_eq_true, Bool.and_eq_true, decide_eq_true_eq,
    ge_iff_le, UInt32.le_iff_toNat_le]
  rfl

theorem isAsciiSpace_iff (c : Char) :
    isAsciiSpace c = true ↔
      c.toNat = 32 ∨ c.toNat = 9 ∨ c.toNat = 10 ∨ c.toNat = 12 ∨ c.toNat = 13 := by
  simp only [isAsciiSpace, Bool.or_eq_true, beq_iff_eq, ← Char.toNat_inj, or_assoc]
  rfl

@[simp] theorem toLower_toLower (c : Char) : c.toLower.toLower = c.toLower := by
  rw [← Char.toNat_inj]
  have h := toNat_toLower c
  have h' := toNat_toLower c.toLower
  split at h <;> split at h' <;> omega

/-- What is its own lower case is not an upper case letter. -/
theorem isUpper_of_toLower {c : Char} (h : c.toLower = c) : c.isUpper = false := by
  have hlower := toNat_toLower c
  rw [h] at hlower
  rw [Bool.eq_false_iff, Ne, isUpper_iff]
  split at hlower <;> omega

/-- A character whose lower case is one byte is one byte. -/
theorem utf8Size_of_toLower {c d : Char} (h : c.toLower = d) (hd : d.toNat ≤ 127) : c.utf8Size = 1 := by
  rw [utf8Size_eq_one]
  have := toNat_toLower c
  rw [h] at this
  split at this <;> omega

/-- A text of one-byte characters has as many bytes as characters. -/
theorem byteLength_of_ascii {cs : List Char} (h : ∀ c ∈ cs, c.utf8Size = 1) : byteLength cs = cs.length := by
  induction cs with
  | nil => rfl
  | cons c cs ih =>
    rw [byteLength, h c List.mem_cons_self, ih fun d hd => h d (List.mem_cons_of_mem _ hd), List.length_cons]
    omega

theorem toList_toString (c : Char) : c.toString.toList = [c] := String.toList_singleton c

/-- Two cuts of a text at one offset are the same cut. -/
theorem append_inj_of_byteLength {xs ys zs ws : List Char} (h : xs ++ ys = zs ++ ws)
    (hlength : byteLength xs = byteLength zs) : xs = zs ∧ ys = ws := by
  have hcut := splitAt?_byteLength xs ys
  rw [h, hlength, splitAt?_byteLength zs ws] at hcut
  obtain ⟨hxs, hys⟩ := Prod.mk.inj (Option.some.inj hcut)
  exact ⟨hxs.symm, hys.symm⟩

theorem isBoundary_append (head tail : List Char) : isBoundary (head ++ tail) (byteLength head) = true := by
  rw [isBoundary, splitAt?_byteLength]
  rfl

/-- The piece of a text between two of its offsets. -/
theorem slice?_append (head middle tail : List Char) :
    slice? (head ++ (middle ++ tail)) (byteLength head) (byteLength head + byteLength middle) = some middle := by
  have hlength : byteLength head + byteLength middle - byteLength head = byteLength middle := by omega
  rw [slice?, if_neg (by omega), splitAt?_byteLength, hlength]
  change (splitAt? (middle ++ tail) (byteLength middle)).bind _ = _
  rw [splitAt?_byteLength]
  rfl

/-- A piece of a text is one between two of its offsets. -/
theorem exists_of_slice? {cs middle : List Char} {start stop : Nat} (h : slice? cs start stop = some middle) :
    ∃ head tail, cs = head ++ (middle ++ tail) ∧ byteLength head = start ∧
      byteLength head + byteLength middle = stop := by
  unfold slice? at h
  split at h
  · cases h
  · obtain ⟨⟨head, rest⟩, hhead, h⟩ := Option.bind_eq_some_iff.1 h
    obtain ⟨⟨middle', tail⟩, hmiddle, h⟩ := Option.bind_eq_some_iff.1 h
    obtain rfl := Option.some.inj h
    have hstart := byteLength_of_splitAt? hhead
    have hlength := byteLength_of_splitAt? hmiddle
    exact ⟨head, tail, by rw [splitAt?_append hmiddle, splitAt?_append hhead], hstart, by omega⟩

/-- Of two beginnings of a text the shorter one begins the other. -/
theorem exists_append_of_byteLength_le {xs ys zs ws : List Char} (h : xs ++ ys = zs ++ ws)
    (hle : byteLength xs ≤ byteLength zs) : ∃ us, zs = xs ++ us ∧ ys = us ++ ws := by
  rcases List.append_eq_append_iff.1 h with ⟨us, hzs, hys⟩ | ⟨us, hxs, hws⟩
  · exact ⟨us, hzs, hys⟩
  · cases us with
    | nil => exact ⟨[], by rw [hxs, List.append_nil, List.append_nil], hws.symm⟩
    | cons c us =>
      have hpos := c.utf8Size_pos
      rw [hxs, byteLength_append, byteLength] at hle
      omega

theorem slice?_eq_some {cs middle : List Char} {start stop : Nat} :
    slice? cs start stop = some middle ↔ ∃ head tail, cs = head ++ (middle ++ tail) ∧ byteLength head = start ∧
      byteLength head + byteLength middle = stop := by
  refine ⟨exists_of_slice?, ?_⟩
  rintro ⟨head, tail, rfl, rfl, rfl⟩
  exact slice?_append head middle tail

/-- What stands in a part of a text stands in the text, as far behind as the part does. -/
theorem slice?_around {cs : List Char} {start stop : Nat} (before after : List Char) (hstop : stop ≤ byteLength cs) :
    slice? (before ++ (cs ++ after)) (byteLength before + start) (byteLength before + stop) = slice? cs start stop := by
  refine Option.ext fun middle => ?_
  rw [slice?_eq_some, slice?_eq_some]
  constructor
  · rintro ⟨head, tail, hcs, hstart, hlength⟩
    obtain ⟨us, rfl, hrest⟩ := exists_append_of_byteLength_le hcs (by omega)
    rw [byteLength_append] at hstart hlength
    have hinner : us ++ middle ++ tail = cs ++ after := by rw [List.append_assoc, hrest]
    obtain ⟨vs, rfl, -⟩ := exists_append_of_byteLength_le hinner (by rw [byteLength_append]; omega)
    exact ⟨us, vs, List.append_assoc .., by omega, by omega⟩
  · rintro ⟨head, tail, rfl, rfl, rfl⟩
    exact ⟨before ++ head, tail ++ after, by simp, by simp, by simp [Nat.add_assoc]⟩

/-- A piece of a text is a part of every piece around it. -/
theorem isInfix_of_slice? {cs inner outer : List Char} {start stop start' stop' : Nat}
    (h : slice? cs start stop = some inner) (h' : slice? cs start' stop' = some outer) (hstart : start' ≤ start)
    (hstop : stop ≤ stop') : inner <:+: outer := by
  obtain ⟨head, tail, hcs, rfl, rfl⟩ := exists_of_slice? h
  obtain ⟨head', tail', hcs', rfl, rfl⟩ := exists_of_slice? h'
  obtain ⟨us, rfl, hrest⟩ := exists_append_of_byteLength_le (hcs'.symm.trans hcs) hstart
  have hinner : us ++ inner ++ tail = outer ++ tail' := by rw [hrest, List.append_assoc]
  obtain ⟨vs, rfl, -⟩ := exists_append_of_byteLength_le hinner (by simp at hstop ⊢; omega)
  exact ⟨us, vs, rfl⟩

/-- A number is known by its decimal digits. -/
theorem repr_inj {m n : Nat} (h : m.repr = n.repr) : m = n := by
  have hdigits : Nat.toDigits 10 m = Nat.toDigits 10 n := by
    rw [← Nat.toList_repr, ← Nat.toList_repr, h]
  calc m = Nat.ofDigitChars 10 (Nat.toDigits 10 m) 0 := Nat.ofDigitChars_ten_toDigits.symm
    _ = Nat.ofDigitChars 10 (Nat.toDigits 10 n) 0 := by rw [hdigits]
    _ = n := Nat.ofDigitChars_ten_toDigits

/-- The size of a text in bytes. -/
theorem utf8ByteSize_eq (text : String) : text.utf8ByteSize = byteLength text.toList := by
  obtain ⟨cs, rfl⟩ : ∃ cs, text = String.ofList cs := ⟨text.toList, String.ofList_toList.symm⟩
  rw [String.toList_ofList]
  induction cs with
  | nil => rfl
  | cons c cs ih =>
    have hcons : String.ofList (c :: cs) = String.singleton c ++ String.ofList cs := by
      apply String.ext
      simp
    rw [hcons, String.utf8ByteSize_append, ih, String.utf8ByteSize_singleton, byteLength]

/-! ## White space at the ends of a text -/

/-- A text of white space. -/
def Blank (cs : List Char) : Prop := ∀ c ∈ cs, isBlank c = true

/-- A text that does not begin with white space. -/
def Flush (cs : List Char) : Prop := ∀ c, cs.head? = some c → isBlank c = false

/-- A text that does not end with white space. -/
def FlushEnd (cs : List Char) : Prop := ∀ c, cs.getLast? = some c → isBlank c = false

variable {cs blanks : List Char}

theorem flushEnd_append {xs ys : List Char} (hys : FlushEnd ys) (hne : ys ≠ []) : FlushEnd (xs ++ ys) := by
  intro c hc
  rw [List.getLast?_append, List.getLast?_eq_some_getLast hne, Option.some_or] at hc
  exact hys c (by rw [List.getLast?_eq_some_getLast hne, hc])

theorem dropWhile_blank (h : Blank blanks) (cs : List Char) :
    (blanks ++ cs).dropWhile isBlank = cs.dropWhile isBlank := by
  rw [List.dropWhile_append_of_pos h]

theorem dropWhile_flush (h : Flush cs) : cs.dropWhile isBlank = cs := by
  cases cs with
  | nil => rfl
  | cons c cs => rw [List.dropWhile_cons_of_neg (by rw [h c rfl]; decide)]

theorem exists_dropWhile (cs : List Char) :
    ∃ blanks, Blank blanks ∧ cs = blanks ++ cs.dropWhile isBlank ∧ Flush (cs.dropWhile isBlank) := by
  refine ⟨cs.takeWhile isBlank, fun c hc => ?_, List.takeWhile_append_dropWhile.symm, fun c hc => ?_⟩
  · exact List.mem_takeWhile_imp hc
  · have := List.head?_dropWhile_not isBlank cs
    rw [hc] at this
    exact this

theorem exists_trimStart (cs : List Char) :
    ∃ blanks, Blank blanks ∧ cs = blanks ++ trimStart cs ∧ Flush (trimStart cs) := exists_dropWhile cs

theorem trimStart_append (h : Blank blanks) (cs : List Char) : trimStart (blanks ++ cs) = trimStart cs :=
  dropWhile_blank h cs

theorem trimStart_eq (h : Flush cs) : trimStart cs = cs := dropWhile_flush h

theorem blank_reverse : Blank cs.reverse ↔ Blank cs := by simp [Blank]

theorem flush_reverse : Flush cs.reverse ↔ FlushEnd cs := by simp [Flush, FlushEnd]

/-- **Trimming the end takes the white space there.** -/
theorem exists_trimEnd (cs : List Char) :
    ∃ blanks, Blank blanks ∧ cs = trimEnd cs ++ blanks ∧ FlushEnd (trimEnd cs) := by
  obtain ⟨blanks, hblanks, hcs, hflush⟩ := exists_dropWhile cs.reverse
  refine ⟨blanks.reverse, blank_reverse.2 hblanks, ?_, ?_⟩
  · rw [trimEnd, ← List.reverse_append, ← hcs, List.reverse_reverse]
  · rw [trimEnd, ← flush_reverse, List.reverse_reverse]
    exact hflush

theorem trimEnd_append (h : Blank blanks) (cs : List Char) : trimEnd (cs ++ blanks) = trimEnd cs := by
  rw [trimEnd, List.reverse_append, dropWhile_blank (blank_reverse.2 h), trimEnd]

theorem trimEnd_blank (h : Blank blanks) : trimEnd blanks = [] := trimEnd_append h []

theorem trimEnd_eq (h : FlushEnd cs) : trimEnd cs = cs := by
  rw [trimEnd, dropWhile_flush (flush_reverse.2 h), List.reverse_reverse]

/-- What stands before a text that is left is left as well. -/
theorem trimEnd_append_right {xs ys : List Char} (h : trimEnd ys ≠ []) : trimEnd (xs ++ ys) = xs ++ trimEnd ys := by
  obtain ⟨blanks, hblanks, hys, hflush⟩ := exists_trimEnd ys
  conv_lhs => rw [hys, ← List.append_assoc, trimEnd_append hblanks]
  exact trimEnd_eq (flushEnd_append hflush h)

/-- A text that does not end with white space is kept whole, whatever is left of the text after it. -/
theorem trimEnd_append_of_flushEnd {xs : List Char} (hxs : FlushEnd xs) (ys : List Char) :
    trimEnd (xs ++ ys) = xs ++ trimEnd ys := by
  by_cases hys : trimEnd ys = []
  · obtain ⟨blanks, hblanks, hys', -⟩ := exists_trimEnd ys
    rw [hys, List.nil_append] at hys'
    rw [hys, List.append_nil, hys', trimEnd_append hblanks, trimEnd_eq hxs]
  · exact trimEnd_append_right hys

theorem trim_trimEnd (cs : List Char) : trim (trimEnd cs) = trim cs := by
  obtain ⟨blanks, hblanks, hcs, -⟩ := exists_trimEnd cs
  obtain ⟨lead, hlead, hinner, hstart⟩ := exists_trimStart (trimEnd cs)
  by_cases hne : trimStart (trimEnd cs) = []
  · -- there is only white space
    rw [hne, List.append_nil] at hinner
    have hrest : Blank (trimStart blanks) := fun c hc => hblanks c (List.dropWhile_subset _ hc)
    rw [trim, hne, hcs, trim, hinner, trimStart_append hlead, trimEnd_blank hrest]
    rfl
  · have hcut : trimStart cs = trimStart (trimEnd cs) ++ blanks := by
      conv_lhs => rw [hcs, hinner, List.append_assoc, trimStart_append hlead]
      refine trimStart_eq fun c hc => hstart c ?_
      rw [List.head?_append, List.head?_eq_some_head hne, Option.some_or] at hc
      rw [List.head?_eq_some_head hne, hc]
    rw [trim, trim, hcut, trimEnd_append hblanks]

end LiveMarkup.Text
