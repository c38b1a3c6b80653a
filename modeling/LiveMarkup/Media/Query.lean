/-
Media queries and their meaning.

A query asks for a device type, a condition or both; conditions are built from tests of single features.
`selects` says whether an environment answers a query. Numbers that differ by less than a millionth
count as equal.
-/
import LiveMarkup.Media.Environment

set_option autoImplicit false

namespace LiveMarkup.Media

/-- The features that can be asked for. -/
inductive Feature where
  | width
  | height
  | aspectRatio
  | orientation
  | resolution
  | prefersColorScheme
  | prefersReducedMotion
  | hover
  | pointer
deriving DecidableEq, Repr

namespace Feature

/-- The name of a feature. -/
def name : Feature → String
  | width => "width"
  | height => "height"
  | aspectRatio => "aspect-ratio"
  | orientation => "orientation"
  | resolution => "resolution"
  | prefersColorScheme => "prefers-color-scheme"
  | prefersReducedMotion => "prefers-reduced-motion"
  | hover => "hover"
  | pointer => "pointer"

/-- The feature of a name, up to the case of ASCII letters. What any of the pointing devices can do is
answered by the one that the environment has. -/
def ofName? (text : String) : Option Feature :=
  match text.toLower with
  | "width" => some width
  | "height" => some height
  | "aspect-ratio" => some aspectRatio
  | "orientation" => some orientation
  | "resolution" => some resolution
  | "prefers-color-scheme" => some prefersColorScheme
  | "prefers-reduced-motion" => some prefersReducedMotion
  | "hover" | "any-hover" => some hover
  | "pointer" | "any-pointer" => some pointer
  | _ => none

/-- Whether the values of the feature are ordered, so that one can ask for a range. -/
def isRange : Feature → Bool
  | width | height | aspectRatio | resolution => true
  | _ => false

/-- The values of a feature that takes keywords. -/
def keywords : Feature → List String
  | orientation => ["portrait", "landscape"]
  | prefersColorScheme => ["light", "dark"]
  | prefersReducedMotion => ["no-preference", "reduce"]
  | hover => ["none", "hover"]
  | pointer => ["none", "coarse", "fine"]
  | _ => []

end Feature

/-- How the value of a feature is compared with the one that is asked for. -/
inductive Relation where
  | equal
  | less
  | lessOrEqual
  | greater
  | greaterOrEqual
deriving DecidableEq, Repr

namespace Relation

/-- The sign of a relation. -/
def sign : Relation → String
  | equal => "="
  | less => "<"
  | lessOrEqual => "<="
  | greater => ">"
  | greaterOrEqual => ">="

/-- The relation seen from the other side. -/
def flip : Relation → Relation
  | equal => equal
  | less => greater
  | lessOrEqual => greaterOrEqual
  | greater => less
  | greaterOrEqual => lessOrEqual

/-- Whether two numbers are so close that they count as equal. -/
def close (a b : Float) : Bool := decide ((a - b).abs < 1e-6)

/-- Whether two numbers stand in the relation. -/
def holds (r : Relation) (actual expected : Float) : Bool :=
  match r with
  | equal => close actual expected
  | less => decide (actual < expected) && !close actual expected
  | lessOrEqual => decide (actual < expected) || close actual expected
  | greater => decide (expected < actual) && !close actual expected
  | greaterOrEqual => decide (expected < actual) || close actual expected

end Relation

/-- A value that a feature is compared with. -/
inductive Value where
  | px (value : Float)
  /-- Multiples of the initial font size. -/
  | em (value : Float)
  | dppx (value : Float)
  | ratio (value : Float)
  /-- A keyword in lower case. -/
  | keyword (name : String)
deriving BEq, Repr

/-- A test of a feature. Without comparisons it asks whether the device has the feature at all. -/
structure Test where
  /-- The feature. -/
  feature : Feature
  /-- The comparisons that all have to hold. -/
  constraints : List (Relation × Value)
deriving BEq, Repr

/-- A condition on a device. -/
inductive Condition where
  | test (t : Test)
  | not (c : Condition)
  | and (cs : List Condition)
  | or (cs : List Condition)

/-- A media query. -/
structure Query where
  /-- Whether the answer is turned round. -/
  negated : Bool
  /-- The device type in lower case; any type without one. -/
  deviceType : Option String
  /-- The condition, if there is one. -/
  condition : Option Condition

/-- Whether a number counts as zero. -/
def isZero (x : Float) : Bool := decide (x.abs < 2.220446049250313e-16)

namespace Environment

/-- The number that an ordered feature has; no aspect ratio is defined without a height. -/
def number? (e : Environment) : Feature → Option Float
  | .width => some e.width
  | .height => some e.height
  | .resolution => some e.resolution
  | .aspectRatio => if isZero e.height then none else some (e.width / e.height)
  | _ => none

/-- The keyword that a feature has. -/
def keyword? (e : Environment) : Feature → Option String
  | .orientation => some e.orientation
  | .prefersColorScheme => some e.colorScheme.name
  | .prefersReducedMotion => some e.reducedMotion.name
  | .hover => some e.hover.name
  | .pointer => some e.pointer.name
  | _ => none

/-- Whether the device has a feature at all. -/
def has (e : Environment) : Feature → Bool
  | .width => !isZero e.width
  | .height => !isZero e.height
  | .resolution => !isZero e.resolution
  | .aspectRatio | .orientation | .prefersColorScheme => true
  | .prefersReducedMotion => e.reducedMotion == .reduce
  | .hover => e.hover != .none
  | .pointer => e.pointer != .none

/-- The number that a value stands for. -/
def amount? (e : Environment) : Value → Option Float
  | .px x | .dppx x | .ratio x => some x
  | .em x => some (x * e.fontSize)
  | .keyword _ => none

/-- Whether a comparison of a feature holds. Keywords are compared for equality only. -/
def compares (e : Environment) (f : Feature) (r : Relation) (v : Value) : Bool :=
  match e.keyword? f, v with
  | some actual, .keyword expected => expected == actual
  | some _, _ => false
  | none, v =>
    match e.number? f, e.amount? v with
    | some actual, some expected => r.holds actual expected
    | _, _ => false

/-- Whether a test of a feature holds. -/
def passes (e : Environment) (t : Test) : Bool :=
  if t.constraints.isEmpty then e.has t.feature
  else t.constraints.all fun (r, v) => e.compares t.feature r v

end Environment

mutual

/-- Whether a condition holds. -/
def Condition.holds (e : Environment) : Condition → Bool
  | .test t => e.passes t
  | .not c => !c.holds e
  | .and cs => holdAll e cs
  | .or cs => holdAny e cs

/-- Whether all of the conditions hold. -/
def holdAll (e : Environment) : List Condition → Bool
  | [] => true
  | c :: cs => c.holds e && holdAll e cs

/-- Whether one of the conditions holds. -/
def holdAny (e : Environment) : List Condition → Bool
  | [] => false
  | c :: cs => c.holds e || holdAny e cs

end

/-- Whether a query selects a device. -/
def Query.selects (q : Query) (e : Environment) : Bool :=
  let ofType := q.deviceType.all fun name => name == "all" || name == e.deviceType.name
  (ofType && q.condition.all (·.holds e)) != q.negated

/-- Whether a list of queries selects a device: one of them has to; an empty list selects every
device. -/
def selectsAny (queries : List Query) (e : Environment) : Bool :=
  queries.isEmpty || queries.any (·.selects e)

end LiveMarkup.Media
