/-
Selectors.

A complex selector is a compound, or a complex selector joined to a compound on its right by a
combinator; the rightmost compound is the subject, the one that the matched element itself has to
satisfy. A compound is a list of simple selectors that all have to hold. Some simple selectors hold
lists of complex selectors, so the two types are defined together.
-/
import LiveMarkup.Css.Nth
import LiveMarkup.Span

set_option autoImplicit false

namespace LiveMarkup.Css

/-- Why a text is not a selector that can be evaluated. -/
inductive SelectorError where
  /-- The selector, or an entry of a list, is empty. -/
  | empty
  /-- A token, as it is shown, that cannot stand at its byte offset. -/
  | unexpectedToken (token : String) (offset : Nat)
  | unexpectedEnd
  /-- A pseudo-element, with its colons. -/
  | pseudoElement (name : String)
  | unknownPseudoClass (name : String)
  /-- A pseudo-class that is known and not evaluated. -/
  | unsupported (name : String)
  /-- An argument that should be of the form `An+B`. -/
  | invalidNth (text : String)
deriving DecidableEq, Repr

/-- The text of the error. -/
def SelectorError.message : SelectorError → String
  | empty => "empty selector"
  | unexpectedToken token offset => "unexpected `" ++ token ++ "` at byte " ++ toString offset
  | unexpectedEnd => "unexpected end of selector"
  | pseudoElement name => "pseudo-element `" ++ name ++ "` cannot be matched against an element"
  | unknownPseudoClass name => "unknown pseudo-class `:" ++ name ++ "`"
  | unsupported name => "pseudo-class `:" ++ name ++ "` is not supported"
  | invalidNth text => "invalid An+B expression `" ++ text ++ "`"

/-- How an element stands to the element of the compound on the left. -/
inductive Combinator where
  /-- It is a descendant of it. -/
  | descendant
  /-- It is a child of it. -/
  | child
  /-- It is the next element after it. -/
  | nextSibling
  /-- It is an element after it. -/
  | subsequentSibling
deriving DecidableEq, Repr

/-- The sign of a combinator. -/
def Combinator.sign : Combinator → String
  | descendant => " "
  | child => ">"
  | nextSibling => "+"
  | subsequentSibling => "~"

/-- How an attribute selector compares the value of the attribute. -/
inductive Comparison where
  | equals
  /-- One of the words of the value. -/
  | includes
  /-- The value, or its part before a dash. -/
  | dashMatch
  | startsWith
  | endsWith
  | contains
deriving DecidableEq, Repr

/-- The sign of a comparison. -/
def Comparison.sign : Comparison → String
  | equals => "="
  | includes => "~="
  | dashMatch => "|="
  | startsWith => "^="
  | endsWith => "$="
  | contains => "*="

/-- A selector of elements by an attribute. -/
structure AttributeSelector where
  /-- The name of the attribute, in lower case. -/
  name : String
  /-- The comparison with a text; without one, the attribute has to be there. -/
  test : Option (Comparison × String)
  /-- Whether the case of ASCII letters of the value does not matter. -/
  ignoresCase : Bool
deriving DecidableEq, Repr

/-- The pseudo-classes without arguments that a tree can answer. -/
inductive PseudoClass where
  | root
  | firstChild
  | lastChild
  | onlyChild
  | firstOfType
  | lastOfType
  | onlyOfType
  | empty
  | anyLink
  | checked
  | disabled
  | enabled
  | required
  | optional
deriving DecidableEq, Repr

namespace PseudoClass

/-- The name of a pseudo-class. -/
def name : PseudoClass → String
  | root => "root"
  | firstChild => "first-child"
  | lastChild => "last-child"
  | onlyChild => "only-child"
  | firstOfType => "first-of-type"
  | lastOfType => "last-of-type"
  | onlyOfType => "only-of-type"
  | empty => "empty"
  | anyLink => "any-link"
  | checked => "checked"
  | disabled => "disabled"
  | enabled => "enabled"
  | required => "required"
  | optional => "optional"

/-- All pseudo-classes. -/
def all : List PseudoClass :=
  [root, firstChild, lastChild, onlyChild, firstOfType, lastOfType, onlyOfType, empty, anyLink, checked,
   disabled, enabled, required, optional]

/-- The pseudo-class of a name. Links that were visited are not told apart from others. -/
def ofName? (name : String) : Option PseudoClass :=
  if name = "link" then some anyLink else all.find? fun p => p.name = name

end PseudoClass

mutual

/-- A condition on an element. -/
inductive Simple where
  /-- By name, in lower case. -/
  | type (name : String)
  | universal
  | class (name : String)
  | id (name : String)
  | attribute (a : AttributeSelector)
  | pseudo (p : PseudoClass)
  /-- A pseudo-class of user action or history: no element is ever in such a state. -/
  | never (name : String)
  /-- By position among the siblings, from the start or from the end. -/
  | nthChild (fromEnd : Bool) (n : Nth)
  /-- By position among the siblings that match a list. -/
  | nthChildOf (fromEnd : Bool) (n : Nth) (list : List Complex)
  /-- By position among the siblings of the same type. -/
  | nthOfType (fromEnd : Bool) (n : Nth)
  /-- No selector of the list matches. -/
  | not (list : List Complex)
  /-- A selector of the list matches. -/
  | is (list : List Complex)
  /-- A selector of the list matches, without weight in the specificity. -/
  | whereIs (list : List Complex)

/-- Compounds joined by combinators. -/
inductive Complex where
  | compound (subject : List Simple)
  | joined (left : Complex) (combinator : Combinator) (subject : List Simple)

end

/-- Selectors, of which one has to match. -/
abbrev SelectorList := List Complex

namespace Complex

/-- The compound that the matched element itself has to satisfy. -/
def subject : Complex → List Simple
  | compound subject => subject
  | joined _ _ subject => subject

/-- The compounds, from left to right. -/
def compounds : Complex → List (List Simple)
  | compound subject => [subject]
  | joined left _ subject => left.compounds ++ [subject]

/-- The combinators, from left to right. -/
def combinators : Complex → List Combinator
  | compound _ => []
  | joined left combinator _ => left.combinators ++ [combinator]

/-- There is one compound more than there are combinators. -/
theorem length_compounds (c : Complex) : c.compounds.length = c.combinators.length + 1 := by
  induction c using Complex.rec (motive_1 := fun _ => True) (motive_3 := fun _ => True)
    (motive_4 := fun _ => True) <;> simp_all [compounds, combinators]

end Complex

/-- The weight of a selector: its identifiers, then its classes, then its types. -/
structure Specificity where
  /-- The number of identifiers. -/
  ids : Nat
  /-- The number of classes, attributes and pseudo-classes. -/
  classes : Nat
  /-- The number of types. -/
  types : Nat
deriving DecidableEq, Repr

namespace Specificity

/-- No weight. -/
def zero : Specificity := ⟨0, 0, 0⟩

/-- The weight of two parts of a selector together. -/
def add (s t : Specificity) : Specificity := ⟨s.ids + t.ids, s.classes + t.classes, s.types + t.types⟩

/-- Whether a weight is below another: the identifiers count first, then the classes. -/
def less (s t : Specificity) : Bool :=
  s.ids < t.ids || (s.ids == t.ids && (s.classes < t.classes || (s.classes == t.classes && s.types < t.types)))

/-- The larger of two weights. -/
def max (s t : Specificity) : Specificity := if s.less t then t else s

end Specificity

mutual

/-- The weight of a simple selector. -/
def Simple.specificity : Simple → Specificity
  | .id _ => ⟨1, 0, 0⟩
  | .class _ | .attribute _ | .never _ | .pseudo _ | .nthChild _ _ | .nthOfType _ _ => ⟨0, 1, 0⟩
  | .type _ => ⟨0, 0, 1⟩
  | .universal | .whereIs _ => .zero
  | .not list | .is list => maxSpecificity list
  | .nthChildOf _ _ list => .add ⟨0, 1, 0⟩ (maxSpecificity list)

/-- The weight of a complex selector: that of all its simple selectors. -/
def Complex.specificity : Complex → Specificity
  | .compound subject => sumSpecificity subject
  | .joined left _ subject => left.specificity.add (sumSpecificity subject)

/-- The weight of simple selectors together. -/
def sumSpecificity : List Simple → Specificity
  | [] => .zero
  | s :: rest => s.specificity.add (sumSpecificity rest)

/-- The largest weight of a list. -/
def maxSpecificity : List Complex → Specificity
  | [] => .zero
  | c :: rest => c.specificity.max (maxSpecificity rest)

end

end LiveMarkup.Css
