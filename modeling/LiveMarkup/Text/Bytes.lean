/-
Byte offsets in text.

A source position everywhere in this library is a number of UTF-8 bytes from the start of a text, and
a text is handled as its list of characters. This file says how long a list of characters is in bytes,
and how to cut it at a byte offset; an offset inside a character, or past the end, cuts nothing.

Main facts: `splitAt?_append` (the two parts of a cut make the whole again), `byteLength_of_splitAt?`
(the first part is as long as the offset), and `splitAt?_byteLength` (a text can be cut after any of
its beginnings).
-/

set_option autoImplicit false

namespace LiveMarkup.Text

/-- The length of a text in UTF-8 bytes. -/
def byteLength : List Char → Nat
  | [] => 0
  | c :: cs => c.utf8Size + byteLength cs

/-- The parts of a text before and after a byte offset, when the offset is the end of one of its
beginnings. -/
def splitAt? : List Char → Nat → Option (List Char × List Char)
  | cs, 0 => some ([], cs)
  | [], _ + 1 => none
  | c :: cs, n + 1 =>
    if c.utf8Size ≤ n + 1 then
      (splitAt? cs (n + 1 - c.utf8Size)).map fun (before, after) => (c :: before, after)
    else none

/-- The characters from byte `start` up to byte `stop`, when both are boundaries of the text and in
this order. -/
def slice? (cs : List Char) (start stop : Nat) : Option (List Char) :=
  if stop < start then none
  else do
    let (_, rest) ← splitAt? cs start
    let (middle, _) ← splitAt? rest (stop - start)
    return middle

/-- Whether `offset` lies between two characters of the text, or at one of its ends. -/
def isBoundary (cs : List Char) (offset : Nat) : Bool :=
  (splitAt? cs offset).isSome

/-- The characters of a text, each with its byte offset, counted from `start`. -/
def withOffsets (start : Nat) : List Char → List (Nat × Char)
  | [] => []
  | c :: cs => (start, c) :: withOffsets (start + c.utf8Size) cs

@[simp] theorem byteLength_append (xs ys : List Char) :
    byteLength (xs ++ ys) = byteLength xs + byteLength ys := by
  induction xs with
  | nil => simp [byteLength]
  | cons c cs ih => simp [byteLength, ih, Nat.add_assoc]

/-- **A cut loses nothing.** The two parts of a text make the text again. -/
theorem splitAt?_append {cs before after : List Char} {n : Nat}
    (h : splitAt? cs n = some (before, after)) : before ++ after = cs := by
  induction cs generalizing n before with
  | nil => cases n <;> simp_all [splitAt?]
  | cons c cs ih =>
    cases n with
    | zero => simp [splitAt?] at h; simp [h.1, h.2]
    | succ n =>
      simp only [splitAt?] at h
      split at h
      · obtain ⟨⟨b, a⟩, hp, hq⟩ := Option.map_eq_some_iff.1 h
        obtain ⟨rfl, rfl⟩ := Prod.mk.inj hq
        rw [List.cons_append, ih hp]
      · simp at h

/-- **A cut is where it was asked for.** The first part is as long as the offset. -/
theorem byteLength_of_splitAt? {cs before after : List Char} {n : Nat}
    (h : splitAt? cs n = some (before, after)) : byteLength before = n := by
  induction cs generalizing n before with
  | nil => cases n <;> simp_all [splitAt?, byteLength]
  | cons c cs ih =>
    cases n with
    | zero => simp [splitAt?] at h; simp [h.1, byteLength]
    | succ n =>
      simp only [splitAt?] at h
      split at h
      · obtain ⟨⟨b, a⟩, hp, hq⟩ := Option.map_eq_some_iff.1 h
        obtain ⟨rfl, rfl⟩ := Prod.mk.inj hq
        rw [byteLength, ih hp]
        omega
      · simp at h

/-- **Every beginning of a text can be cut off.** -/
theorem splitAt?_byteLength (xs ys : List Char) :
    splitAt? (xs ++ ys) (byteLength xs) = some (xs, ys) := by
  induction xs with
  | nil => simp [byteLength, splitAt?]
  | cons c cs ih =>
    have hc := c.utf8Size_pos
    obtain ⟨k, hk⟩ : ∃ k, c.utf8Size + byteLength cs = k + 1 := ⟨c.utf8Size + byteLength cs - 1, by omega⟩
    have : k + 1 - c.utf8Size = byteLength cs := by omega
    simp [byteLength, hk, splitAt?, this, ih]
    omega

end LiveMarkup.Text
