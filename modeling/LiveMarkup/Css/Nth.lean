/-
Positions of the form `An+B`.

`a n + b` stands for the positions `b`, `a + b`, `2 a + b` and so on, counted from one. Main fact:
`covers_iff` (a position is covered when it is one of these).
-/
import LiveMarkup.Decimal.Digits
import LiveMarkup.Text.Blank

set_option autoImplicit false

namespace LiveMarkup.Css

/-- The positions `a n + b` for natural numbers `n`. -/
structure Nth where
  /-- The step. -/
  a : Int
  /-- The position for `n = 0`. -/
  b : Int
deriving DecidableEq, Repr

namespace Nth

/-- The part of a text before the first `n` and the part after it. -/
def cutAtN : List Char → Option (List Char × List Char)
  | [] => none
  | c :: cs => if c = 'n' then some ([], cs) else (cutAtN cs).map fun (step, offset) => (c :: step, offset)

/-- Reads `odd`, `even`, `B`, `An` or `An+B`, with signs. White space and the case of letters do not
matter, and both numbers fit into 32 bits. -/
def parse? (text : List Char) : Option Nth :=
  let compact := (text.filter (!Text.isBlank ·)).map Char.toLower
  if compact = "odd".toList then some ⟨2, 1⟩
  else if compact = "even".toList then some ⟨2, 0⟩
  else
    match cutAtN compact with
    | none => (Decimal.readInteger? 32 compact).map (⟨0, ·⟩)
    | some (step, offset) => do
      let a ← match step with
        | [] | ['+'] => some 1
        | ['-'] => some (-1)
        | _ => Decimal.readInteger? 32 step
      let b ← match offset with
        | [] => some 0
        | sign :: _ => if sign = '+' ∨ sign = '-' then Decimal.readInteger? 32 offset else none
      return ⟨a, b⟩

/-- Whether a position, counted from one, is one of those meant. -/
def covers (n : Nth) (position : Nat) : Bool :=
  if n.a = 0 then position == n.b
  else (position - n.b).tmod n.a == 0 && 0 ≤ (position - n.b).tdiv n.a

/-- **The meaning of `An+B`.** A position is covered when it is `a k + b` for a natural number `k`. -/
theorem covers_iff (n : Nth) (position : Nat) :
    n.covers position = true ↔ ∃ k : Nat, n.a * k + n.b = position := by
  unfold covers
  split
  · next h =>
    simp only [beq_iff_eq, h, Int.zero_mul, Int.zero_add, exists_const]
    exact eq_comm
  · next h =>
    simp only [Bool.and_eq_true, beq_iff_eq, decide_eq_true_eq]
    constructor
    · intro ⟨hm, hd⟩
      refine ⟨((position - n.b).tdiv n.a).toNat, ?_⟩
      rw [Int.toNat_of_nonneg hd]
      have := Int.mul_tdiv_add_tmod (position - n.b) n.a
      omega
    · intro ⟨k, hk⟩
      have : (position : Int) - n.b = n.a * k := by omega
      rw [this]
      exact ⟨Int.mul_tmod_right _ _, by rw [Int.mul_tdiv_cancel_left _ h]; omega⟩

end Nth

end LiveMarkup.Css
