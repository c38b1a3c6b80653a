/-
Canonical markup.

Canonical markup is the markup that is left of a source when it is read and written again with a token
on every element. A map leads from each token back to the bytes of the source that made the element.
A source that is nested too deep is shown as it is, without a map.
-/
import LiveMarkup.Html.Builder
import LiveMarkup.Html.Serialize
import LiveMarkup.Identity.Assign
import LiveMarkup.Text.Quoted

set_option autoImplicit false

namespace LiveMarkup.Identity

/-- Why there is no canonical markup. -/
inductive Failure where
  | parse (e : Html.ParseError)
  /-- The identity attribute cannot be written. -/
  | attributeName (name : String)
deriving DecidableEq, Repr

/-- The text of the failure. -/
def Failure.message : Failure → String
  | parse e => "cannot parse source: " ++ e.message
  | attributeName name => "invalid identity attribute name " ++ Text.quoted name

/-- The canonical markup of a source. -/
structure Canonical where
  /-- The markup, with a token on every element. -/
  html : String
  /-- The bytes of the source that each token stands for, in document order. -/
  map : List (String × Span)
  /-- Why the source could not be read. -/
  failure : Option Failure
deriving DecidableEq, Repr

namespace Canonical

/-- What is shown when a source cannot be read: the source itself. -/
def degraded (source : String) (f : Failure) : Canonical := ⟨source, [], some f⟩

/-- Whether the source could not be read. -/
def isDegraded (c : Canonical) : Bool := c.failure.isSome

/-- The bytes of the source that a token stands for. -/
def span? (c : Canonical) (token : String) : Option Span := c.map.lookup token

/-- Whether an entry of the map stands before another: the one that starts first, of those the one that
ends last, of those the one with the smaller token. -/
def precedes (a b : String × Span) : Bool :=
  a.2.start < b.2.start || (a.2.start == b.2.start &&
    (b.2.stop < a.2.stop || (a.2.stop == b.2.stop && decide (a.1 ≤ b.1))))

/-- The entries of the map by their place in the source. -/
def entriesByOffset (c : Canonical) : List (String × Span) := c.map.mergeSort precedes

end Canonical

/-- A tree with the tokens written into its elements. -/
def annotate (t : Tree) (s : Scheme) (assignments : List Assignment) : Tree :=
  assignments.foldl (fun t a => t.modifyElement a.node (·.setAttribute s.key a.token)) t

/-- The canonical markup of a source, unless it is nested too deep. -/
def canonicalize? (s : Scheme) (source : String) : Except Failure Canonical := do
  let t ← (Html.parse source).mapError .parse
  let assignments := assign t s source.utf8ByteSize
  return ⟨Html.serializeChildren (annotate t s assignments) Tree.root,
    assignments.map fun a => (a.token, a.span), none⟩

/-- The canonical markup of a source. -/
def canonicalize (s : Scheme) (source : String) : Canonical :=
  match canonicalize? s source with
  | .ok c => c
  | .error f => .degraded source f

/-- A canonicalizer, which keeps its last result and uses it again for the same source. -/
structure Canonicalizer where
  /-- The scheme in use. -/
  scheme : Scheme
  /-- The last source with its canonical markup. -/
  last : Option (String × Canonical)
deriving DecidableEq, Repr

namespace Canonicalizer

/-- A canonicalizer that has done nothing yet. -/
def ofScheme (s : Scheme) : Canonicalizer := ⟨s, none⟩

/-- The canonical markup of a source, and the canonicalizer that keeps it. -/
def run (c : Canonicalizer) (source : String) : Canonical × Canonicalizer :=
  match c.last with
  | some (text, result) =>
    if text = source then (result, c)
    else
      let result := canonicalize c.scheme source
      (result, { c with last := some (source, result) })
  | none =>
    let result := canonicalize c.scheme source
    (result, { c with last := some (source, result) })

/-- The last result. -/
def cached? (c : Canonicalizer) : Option Canonical := c.last.map (·.2)

/-- The canonicalizer without its last result. -/
def invalidate (c : Canonicalizer) : Canonicalizer := { c with last := none }

end Canonicalizer

end LiveMarkup.Identity
