/-
Words in texts.

Looking for a word at the start of a text or anywhere in it, and taking a text apart at separators. All
of it works on lists of characters and compares characters exactly.
-/

set_option autoImplicit false

namespace LiveMarkup.Text

/-- The text after `word`, when the text begins with it. -/
def dropWord? : List Char → List Char → Option (List Char)
  | [], cs => some cs
  | _ :: _, [] => none
  | w :: word, c :: cs => if w = c then dropWord? word cs else none

/-- Whether a text begins with a word. -/
def beginsWith (cs : List Char) (word : String) : Bool :=
  (dropWord? word.toList cs).isSome

/-- Whether a word occurs in a text. -/
def occursIn (word : List Char) : List Char → Bool
  | [] => word.isEmpty
  | c :: cs => (dropWord? word (c :: cs)).isSome || occursIn word cs

/-- The number of characters before the first place where a word occurs. -/
def indexOf? (word : List Char) : List Char → Option Nat
  | [] => if word.isEmpty then some 0 else none
  | c :: cs => if (dropWord? word (c :: cs)).isSome then some 0 else (indexOf? word cs).map (· + 1)

/-- The pieces between the characters that satisfy `p`; there is always one more of them than there
are such characters. -/
def splitWhere (p : Char → Bool) : List Char → List (List Char)
  | [] => [[]]
  | c :: cs =>
    if p c then [] :: splitWhere p cs
    else
      match splitWhere p cs with
      | [] => [[c]]
      | piece :: pieces => (c :: piece) :: pieces

/-- The words between the characters that satisfy `p`: the pieces that are not empty. -/
def wordsWhere (p : Char → Bool) (cs : List Char) : List (List Char) :=
  (splitWhere p cs).filter fun piece => !piece.isEmpty

/-- A text is one of its beginnings and what is left after it. -/
theorem eq_append_of_dropWord? {word cs rest : List Char} (h : dropWord? word cs = some rest) :
    cs = word ++ rest := by
  induction word generalizing cs with
  | nil => exact Option.some.inj h
  | cons w word ih =>
    cases cs with
    | nil => cases h
    | cons c cs =>
      simp only [dropWord?] at h
      split at h
      · rename_i hw
        rw [hw, List.cons_append, ← ih h]
      · cases h

theorem dropWord?_append (word rest : List Char) : dropWord? word (word ++ rest) = some rest := by
  induction word with
  | nil => rfl
  | cons w word ih => rw [List.cons_append, dropWord?, if_pos rfl, ih]

/-- What is left of a text after one of its beginnings is shorter by that beginning. -/
theorem length_of_dropWord? {word cs rest : List Char} (h : dropWord? word cs = some rest) :
    cs.length = word.length + rest.length := by
  rw [eq_append_of_dropWord? h, List.length_append]

end LiveMarkup.Text
