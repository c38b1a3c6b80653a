/-
What the tree builder notes about a text.

The builder accepts every text that does not nest too deeply. Where it ignores a tag or adds an element
it notes an issue, with the token at which it did so.
-/

set_option autoImplicit false

namespace LiveMarkup.Html

/-- Why a text cannot be read. -/
inductive ParseError where
  /-- An element would have more open elements around it than allowed. -/
  | tooDeep (limit offset : Nat)
deriving DecidableEq, Repr

/-- The error in words. -/
def ParseError.message : ParseError → String
  | .tooDeep limit offset =>
    "elements nest deeper than " ++ toString limit ++ " levels (at byte " ++ toString offset ++ ")"

/-- What the builder did that the text did not ask for. -/
inductive Deviation where
  | doctypeIgnored
  | breaksOut (name : String)
  | startIgnored (name : String)
  | endIgnored (name : String)
  | headingInHeading (name : String)
  | nested (name : String)
  | imageAsImg
  | outsideTable (name : String)
  | implied (name : String)
  | breakEndTag
  | columnEndTag
  | strayEnd (name : String)
  | strayForeignEnd (name : String)
deriving DecidableEq, Repr

/-- The deviation in words. -/
def Deviation.message : Deviation → String
  | .doctypeIgnored => "DOCTYPE ignored in fragment"
  | .breaksOut name => "<" ++ name ++ "> breaks out of foreign content"
  | .startIgnored name => "<" ++ name ++ "> ignored in fragment"
  | .endIgnored name => "</" ++ name ++ "> ignored in fragment"
  | .headingInHeading name => "<" ++ name ++ "> inside a heading"
  | .nested name => "nested <" ++ name ++ ">"
  | .imageAsImg => "<image> treated as <img>"
  | .outsideTable name => "<" ++ name ++ "> outside of a table ignored"
  | .implied name => "implied <" ++ name ++ "> inserted"
  | .breakEndTag => "</br> treated as <br>"
  | .columnEndTag => "</col> ignored"
  | .strayEnd name => "stray </" ++ name ++ "> ignored"
  | .strayForeignEnd name => "stray </" ++ name ++ "> in foreign content ignored"

/-- A deviation with where it was noted. -/
structure Issue where
  /-- What was done. -/
  deviation : Deviation
  /-- The number of the token, from 0. -/
  token : Nat
  /-- The start of the last token of markup. -/
  offset : Nat
deriving DecidableEq, Repr

end LiveMarkup.Html
