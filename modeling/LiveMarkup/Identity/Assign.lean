/-
Giving every element its token.

One walk in document order gives a token to each element; the contents of a template come right after
it. An element that already carries a token keeps it, unless an element before it has the same one. Any
other element gets the next new token that is not written anywhere in the markup.
-/
import LiveMarkup.Dom.View
import LiveMarkup.Identity.Scheme

set_option autoImplicit false

namespace LiveMarkup.Identity

/-- The token of an element. -/
structure Assignment where
  /-- The element. -/
  node : NodeId
  /-- Its token. -/
  token : String
  /-- The element's own bytes in the source, or those of the nearest element around it that has a
  place. -/
  span : Span
deriving DecidableEq, Repr

/-- How far the walk has come. -/
structure Progress where
  /-- The tokens that are given away. -/
  claimed : List String
  /-- The number of the last new token. -/
  counter : Nat
deriving DecidableEq, Repr

/-- The number of the next new token that is not taken; at most `tries` numbers are looked at. -/
def nextNumber (s : Scheme) (taken : List String) : Nat → Nat → Nat
  | 0, n => n + 1
  | tries + 1, n => if taken.contains (s.mint (n + 1)) then nextNumber s taken tries (n + 1) else n + 1

/-- The token that an element carries, if it has one. -/
def written? (s : Scheme) (e : Element) : Option String :=
  (e.attribute? s.key).filter fun value => !value.isEmpty

/-- The token of the next element, where `written` are all the tokens in the markup. Only tokens in the
markup and tokens given away can be in the way of a new one. -/
def claim (s : Scheme) (written : List String) (p : Progress) (e : Element) : String × Progress :=
  match (written? s e).filter fun value => !p.claimed.contains value with
  | some value => (value, { p with claimed := value :: p.claimed })
  | none =>
    let taken := written ++ p.claimed
    let n := nextNumber s taken taken.length p.counter
    (s.mint n, ⟨s.mint n :: p.claimed, n⟩)

mutual

/-- The tokens of the elements of a view, where `around` are the bytes of the element around it. -/
def assignIn (s : Scheme) (written : List String) (around : Span) (p : Progress) :
    View → List Assignment × Progress
  | .node id (.element e) contents children =>
    let span := e.location.elim around (·.span)
    let (token, p) := claim s written p e
    let (inner, p) := assignAll s written span p contents
    let (under, p) := assignAll s written span p children
    (⟨id, token, span⟩ :: (inner ++ under), p)
  | .node _ (.fragment _) _ children => assignAll s written around p children
  | _ => ([], p)

/-- The tokens of the elements of several views, one view after the other. -/
def assignAll (s : Scheme) (written : List String) (around : Span) (p : Progress) :
    List View → List Assignment × Progress
  | [] => ([], p)
  | v :: rest =>
    let (here, p) := assignIn s written around p v
    let (after, p) := assignAll s written around p rest
    (here ++ after, p)

end

/-- The tokens of all elements of a tree that was read from a source of so many bytes. -/
def assign (t : Tree) (s : Scheme) (length : Nat) : List Assignment :=
  match t.view? Tree.root with
  | none => []
  | some v =>
    let written := v.elements.filterMap fun (_, e) => written? s e
    (assignAll s written ⟨0, length⟩ ⟨[], 0⟩ v.children).1

/-- The element that a token names. -/
def find? (t : Tree) (s : Scheme) (length : Nat) (token : String) : Option Assignment :=
  (assign t s length).find? fun a => a.token == token

end LiveMarkup.Identity
