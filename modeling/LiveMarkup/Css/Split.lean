/-
Taking a selector list apart as text.

A list is split at the commas that stand outside of parentheses, brackets and quoted strings. Entries
are trimmed and empty entries are left out. Before that, the comments that are closed are removed.
-/
import LiveMarkup.Text.Blank
import LiveMarkup.Text.Words

set_option autoImplicit false

namespace LiveMarkup.Css

open Text

/-! ## Splitting at commas -/

/-- What is open at a position of a selector list. Parentheses and brackets are counted apart, and a
closing one without an opening one counts for nothing. -/
structure Nesting where
  /-- The parentheses that are open. -/
  parens : Nat
  /-- The brackets that are open. -/
  brackets : Nat
  /-- The quote that ends the string that is open. -/
  quote : Option Char
  /-- Whether the next character of the string is escaped. -/
  escaped : Bool
deriving DecidableEq, Repr

namespace Nesting

/-- Nothing is open. -/
def outside : Nesting := ⟨0, 0, none, false⟩

/-- What is open after a character. -/
def step (n : Nesting) (c : Char) : Nesting :=
  match n.quote with
  | some quote =>
    if n.escaped then { n with escaped := false }
    else if c = '\\' then { n with escaped := true }
    else if c = quote then { n with quote := none }
    else n
  | none =>
    match c with
    | '"' | '\'' => { n with quote := some c }
    | '(' => { n with parens := n.parens + 1 }
    | ')' => { n with parens := n.parens - 1 }
    | '[' => { n with brackets := n.brackets + 1 }
    | ']' => { n with brackets := n.brackets - 1 }
    | _ => n

/-- Whether a character separates entries. -/
def separates (n : Nesting) (c : Char) : Bool :=
  c == ',' && n.quote.isNone && n.parens == 0 && n.brackets == 0

end Nesting

/-- The pieces of a text between its separating commas; there is always at least one. -/
def cutAtCommas : Nesting → List Char → List (List Char)
  | _, [] => [[]]
  | n, c :: cs =>
    if n.separates c then [] :: cutAtCommas n cs
    else
      match cutAtCommas (n.step c) cs with
      | [] => [[c]]
      | piece :: pieces => (c :: piece) :: pieces

/-- The entries of a selector list. -/
def splitSelectors (text : List Char) : List (List Char) :=
  ((cutAtCommas .outside text).map trim).filter fun entry => !entry.isEmpty

/-! ## Removing comments -/

/-- A text without its closed comments. The flag tells whether the position is inside of one; a comment
is entered only when its end follows. -/
def stripFrom : Bool → List Char → List Char
  | true, '*' :: '/' :: cs => stripFrom false cs
  | true, _ :: cs => stripFrom true cs
  | false, '/' :: '*' :: cs => if occursIn ['*', '/'] cs then stripFrom true cs else '/' :: '*' :: cs
  | false, c :: cs => c :: stripFrom false cs
  | _, [] => []

/-- A text without its closed comments. -/
def stripComments (text : List Char) : List Char := stripFrom false text

end LiveMarkup.Css
