/-
How alike two words are.

Two characters of two words match when they are equal and stand at about the same place. The similarity
of Jaro is the mean of three shares: of the matching characters in the one word, in the other word, and
of those among them that stand in the same order.
-/

set_option autoImplicit false

namespace LiveMarkup.Text

/-- The characters of a word that have a match in the word `other`, in order, and the places of their
matches. A match lies at most `reach` places away and serves one character only, the first that can have
it; `i` is the place of the first character and `used` are the places that serve others. -/
def jaroMatches (reach : Nat) (other : List Char) :
    Nat → List Nat → List Char → List Char × List Nat
  | _, used, [] => ([], used)
  | i, used, c :: cs =>
    let free := other.zipIdx.find? fun (d, j) =>
      d == c && decide (i ≤ j + reach) && decide (j ≤ i + reach) && !used.contains j
    match free with
    | none => jaroMatches reach other (i + 1) used cs
    | some (_, j) =>
      let (matching, used) := jaroMatches reach other (i + 1) (j :: used) cs
      (c :: matching, used)

/-- The similarity of Jaro of two words that are not empty, as numerator and denominator. -/
def similarity (a b : List Char) : Nat × Nat :=
  let (matching, used) := jaroMatches (max a.length b.length / 2 - 1) b 0 [] a
  let matched := (b.zipIdx.filter fun (_, j) => used.contains j).map (·.1)
  let m := matching.length
  let moved := ((matching.zip matched).filter fun (c, d) => c != d).length / 2
  (m * m * (a.length + b.length) + (m - moved) * a.length * b.length, 3 * m * a.length * b.length)

/-- The words that are like a word, the most similar first: those whose similarity is above seven
tenths. -/
def similarTo (word : String) (words : List String) : List String :=
  let scored := words.map fun w => (w, similarity word.toList w.toList)
  let alike := scored.filter fun (_, n, d) => decide (7 * d < 10 * n)
  (alike.mergeSort fun (_, n, d) (_, n', d') => decide (n' * d ≤ n * d')).map (·.1)

end LiveMarkup.Text
