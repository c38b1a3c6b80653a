/-
Which rules of a style sheet apply to an element.

A rule applies when the media conditions around it select the device and one of its selectors selects
the element. Both err on the side that keeps the preview useful: a condition that cannot be read holds,
and a selector that cannot be read selects nothing.
-/
import LiveMarkup.Css.Degrade
import LiveMarkup.Css.RuleIndex
import LiveMarkup.Css.Split
import LiveMarkup.Media.Parse

set_option autoImplicit false

namespace LiveMarkup.Css

/-- The selectors of a rule, one by one. -/
def Rule.selectors (r : Rule) : List String :=
  (splitSelectors (stripComments r.selector.toList)).map String.ofList

/-- Whether a rule applies to a node. -/
def Rule.applies (r : Rule) (t : Tree) (e : Media.Environment) (id : NodeId) : Bool :=
  Media.allSelect r.media e && r.selectors.any fun selector => selectsOrDegrades t selector id

/-- The rules of a style sheet that apply to a node. -/
def applyingRules (css : String) (t : Tree) (e : Media.Environment) (id : NodeId) : List Rule :=
  (rulesOf css).filter (·.applies t e id)

end LiveMarkup.Css
