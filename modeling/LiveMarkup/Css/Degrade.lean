/-
Selectors that may hold what cannot be evaluated.

A selector that cannot be read is tried once more without its pseudo-elements; if it still cannot be
read, or has none, it selects nothing. So a rule for a part of an element is shown with the element.
-/
import LiveMarkup.Css.Selector.Parse
import LiveMarkup.Css.Selector.Select

set_option autoImplicit false

namespace LiveMarkup.Css

open Text

/-- The pseudo-elements that are taken out, each with one colon or two. -/
def pseudoElements : List String :=
  ["before", "after", "first-line", "first-letter", "selection", "placeholder", "marker", "backdrop",
   "file-selector-button", "cue", "part", "slotted"]

/-- The length of an argument that starts a text, up to the parenthesis that closes it or up to the end
of the text; `depth` parentheses are open. -/
def argumentLength : Nat → List Char → Nat
  | _, [] => 0
  | depth, '(' :: cs => argumentLength (depth + 1) cs + 1
  | depth, ')' :: cs => if depth ≤ 1 then 1 else argumentLength (depth - 1) cs + 1
  | depth, _ :: cs => argumentLength depth cs + 1

/-- The length of a pseudo-element after its first colon, its argument included, when one starts the
text. -/
def pseudoElementLength? (cs : List Char) : Option Nat :=
  let colon := if cs.head? == some ':' then 1 else 0
  let name := (cs.drop colon).takeWhile fun c => c.isAlphanum || c == '-' || c == '_'
  if pseudoElements.any (eqIgnoreCase (String.ofList name)) then
    let rest := cs.drop (colon + name.length)
    some (colon + name.length + if rest.head? == some '(' then argumentLength 0 rest else 0)
  else none

/-- A text without its pseudo-elements, and whether there was one. Quoted strings are left as they are;
`skip` characters more belong to a pseudo-element. -/
def dropPseudos : Nat → Option Char → List Char → List Char × Bool
  | _, _, [] => ([], false)
  | skip + 1, quote, _ :: cs => dropPseudos skip quote cs
  | 0, some quote, '\\' :: c :: cs =>
    let (rest, found) := dropPseudos 0 (some quote) cs
    ('\\' :: c :: rest, found)
  | 0, some quote, c :: cs =>
    let (rest, found) := dropPseudos 0 (if c = quote then none else some quote) cs
    (c :: rest, found)
  | 0, none, c :: cs =>
    match if c = ':' then pseudoElementLength? cs else none with
    | some length => ((dropPseudos length none cs).1, true)
    | none =>
      let (rest, found) := dropPseudos 0 (if c = '"' ∨ c = '\'' then some c else none) cs
      (c :: rest, found)

/-- A selector without its pseudo-elements; nothing when it has none. -/
def stripPseudos? (selector : String) : Option String :=
  match dropPseudos 0 none selector.toList with
  | (rest, true) => some (String.ofList (trim rest))
  | (_, false) => none

/-- Whether a selector, as text, selects a node. -/
def selectsOrDegrades (t : Tree) (selector : String) (id : NodeId) : Bool :=
  match Selector.parse selector with
  | .ok list => selectsAny t list id
  | .error _ =>
    match stripPseudos? selector with
    | none => false
    | some stripped =>
      match Selector.parse stripped with
      | .ok list => selectsAny t list id
      | .error _ => false

end LiveMarkup.Css
