/-
Reading media queries.

Queries are read from the tokens of a style sheet with the white space left out. Reading goes on from
the tokens at the position and gives those that are left; conditions nest no deeper than there are
tokens.
-/
import LiveMarkup.Css.Lexer
import LiveMarkup.Media.Query

set_option autoImplicit false

namespace LiveMarkup.Media

open Css Text

/-- Why a text is not a media query that can be evaluated. -/
inductive QueryError where
  /-- A token, as it is shown, that cannot stand at its byte offset. -/
  | unexpectedToken (token : String) (offset : Nat)
  | unexpectedEnd
  | unknownFeature (name : String)
  /-- A value that the feature does not take, as it was written. -/
  | invalidValue (feature value : String)
  /-- `and` and `or` stand side by side without parentheses. -/
  | mixedOperators
deriving DecidableEq, Repr

/-- The text of the error. -/
def QueryError.message : QueryError → String
  | unexpectedToken token offset => "unexpected `" ++ token ++ "` at byte " ++ toString offset
  | unexpectedEnd => "unexpected end of media query"
  | unknownFeature name => "unknown media feature `" ++ name ++ "`"
  | invalidValue feature value => "invalid value `" ++ value ++ "` for media feature `" ++ feature ++ "`"
  | mixedOperators => "`and` and `or` cannot be mixed without parentheses"

/-- What reading a part of a query gives. -/
abbrev Read := Except QueryError

/-- The error of a token that cannot stand at the position. -/
def unexpected : List Lexeme → QueryError
  | [] => .unexpectedEnd
  | l :: _ =>
    match l.token with
    | .endOfInput => .unexpectedEnd
    | token => .unexpectedToken token.describe l.span.start

/-- Whether a token is a word, up to the case of ASCII letters. -/
def isWord (word : String) : Token → Bool
  | .ident name => eqIgnoreCase name word
  | _ => false

/-! ## Features -/

/-- The error of a value that a feature does not take. -/
def invalid (f : Feature) (ts : List Lexeme) : QueryError :=
  .invalidValue f.name (String.join (ts.map (·.token.describe)))

/-- The feature of a name. -/
def featureNamed (name : String) : Read Feature :=
  match Feature.ofName? name with
  | some f => .ok f
  | none => .error (.unknownFeature name)

/-- A length with a unit in lower case. -/
def length? (value : Float) : String → Option Value
  | "px" => some (.px value)
  | "em" | "rem" => some (.em value)
  | _ => none

/-- A resolution with a unit in lower case. -/
def resolution? (value : Float) : String → Option Value
  | "dppx" | "x" => some (.dppx value)
  | "dpi" => some (.dppx (value / 96))
  | "dpcm" => some (.dppx (value * 2.54 / 96))
  | _ => none

/-- The value at the start of the tokens, of the kind that a feature takes, and the tokens after it. -/
def value? (f : Feature) (ts : List Lexeme) : Option (Value × List Lexeme) :=
  match f, ts.map Lexeme.token with
  | .width, .dimension n unit :: _ | .height, .dimension n unit :: _ =>
    (length? n.value unit.toLower).map (·, ts.drop 1)
  | .width, .number n :: _ | .height, .number n :: _ =>
    if isZero n.value then some (.px 0, ts.drop 1) else none
  | .resolution, .dimension n unit :: _ => (resolution? n.value unit.toLower).map (·, ts.drop 1)
  | .aspectRatio, .number width :: .delim '/' :: .number height :: _ =>
    if isZero height.value then none else some (.ratio (width.value / height.value), ts.drop 3)
  | .aspectRatio, .number n :: _ => some (.ratio n.value, ts.drop 1)
  | f, .ident name :: _ =>
    if f.keywords.contains name.toLower then some (.keyword name.toLower, ts.drop 1) else none
  | _, _ => none

/-- The value at the start of the tokens, and the tokens after it. -/
def takeValue (f : Feature) (ts : List Lexeme) : Read (Value × List Lexeme) :=
  match value? f ts with
  | some r => .ok r
  | none => .error (invalid f ts)

/-- The relation at the start of the tokens, and the tokens after it. -/
def takeRelation (ts : List Lexeme) : Option (Relation × List Lexeme) :=
  match ts.map Lexeme.token with
  | .delim '<' :: .delim '=' :: _ => some (.lessOrEqual, ts.drop 2)
  | .delim '>' :: .delim '=' :: _ => some (.greaterOrEqual, ts.drop 2)
  | .delim '<' :: _ => some (.less, ts.drop 1)
  | .delim '>' :: _ => some (.greater, ts.drop 1)
  | .delim '=' :: _ => some (.equal, ts.drop 1)
  | _ => none

/-- The relation that a plain test asks for, by its name in lower case, and the name of the feature. -/
def boundOf (name : List Char) : Relation × List Char :=
  match name with
  | 'm' :: 'i' :: 'n' :: '-' :: base => (.greaterOrEqual, base)
  | 'm' :: 'a' :: 'x' :: '-' :: base => (.lessOrEqual, base)
  | _ => (.equal, name)

/-- A test `name: value`, where the name may carry a bound. -/
def plainTest (name : String) (ts : List Lexeme) : Read Test := do
  let (relation, base) := boundOf name.toLower.toList
  let f ← featureNamed (String.ofList base)
  if relation ≠ .equal ∧ !f.isRange then .error (.unknownFeature name)
  let (value, rest) ← takeValue f ts
  if rest.isEmpty then return ⟨f, [(relation, value)]⟩
  else .error (invalid f ts)

/-- The tokens before the first one that names a feature, and the tokens from it on. -/
def cutAtFeature : List Lexeme → Option (List Lexeme × Feature × List Lexeme)
  | [] => none
  | l :: rest =>
    let found : Option Feature := match l.token with
      | .ident word => Feature.ofName? word
      | _ => none
    match found with
    | some f => some ([], f, l :: rest)
    | none => (cutAtFeature rest).map fun (before, f, here) => (l :: before, f, here)

/-- The comparison `value relation` before the name of a feature. -/
def comparisonBefore (f : Feature) (ts : List Lexeme) : Read (Relation × Value) := do
  let (value, rest) ← takeValue f ts
  match takeRelation rest with
  | some (relation, []) => return (relation.flip, value)
  | _ => .error (invalid f ts)

/-- The comparison `relation value` after the name of a feature. -/
def comparisonAfter (f : Feature) (ts : List Lexeme) : Read (Relation × Value) := do
  match takeRelation ts with
  | none => .error (unexpected ts)
  | some (relation, rest) =>
    match ← takeValue f rest with
    | (value, []) => return (relation, value)
    | _ => .error (invalid f ts)

/-- A test of a range: `name relation value`, `value relation name` or both. -/
def rangeTest (ts : List Lexeme) : Read Test := do
  match cutAtFeature ts with
  | none =>
    match peek ts with
    | .ident word => .error (.unknownFeature word)
    | _ => .error (unexpected ts)
  | some (before, f, here) =>
    if !f.isRange then .error (unexpected here)
    let left ← if before.isEmpty then pure [] else (comparisonBefore f before).map ([·])
    let right ← if here.tail.isEmpty then pure [] else (comparisonAfter f here.tail).map ([·])
    if (left ++ right).isEmpty then .error (unexpected here)
    return ⟨f, left ++ right⟩

/-- The test of a feature that stands between parentheses. -/
def testOf (ts : List Lexeme) : Read Test := do
  match ts.map Lexeme.token with
  | [] => .error .unexpectedEnd
  | [.ident name] => return ⟨← featureNamed name, []⟩
  | .ident name :: .colon :: _ => plainTest name (ts.drop 2)
  | _ => rangeTest ts

/-! ## Conditions -/

/-- The tokens up to the next closing parenthesis, with the tokens after it; no block may open before. -/
def takeFeature : List Lexeme → Read (List Lexeme × List Lexeme)
  | [] => .error .unexpectedEnd
  | l :: rest =>
    if l.token == .closeParen then .ok ([], rest)
    else if l.token == .endOfInput || l.token.opensBlock then .error (unexpected (l :: rest))
    else (takeFeature rest).map fun (inner, left) => (l :: inner, left)

/-- At most `limit` conditions more, each after the word `word`. -/
def takeOperands (parens : List Lexeme → Read (Condition × List Lexeme)) (word : String) :
    Nat → List Lexeme → Read (List Condition × List Lexeme)
  | 0, ts => .ok ([], ts)
  | limit + 1, ts => do
    if isWord word (peek ts) then
      let (c, rest) ← parens ts.tail
      let (more, rest) ← takeOperands parens word limit rest
      return (c :: more, rest)
    else return ([], ts)

/-- A condition, where `parens` reads one in parentheses. -/
def takeCondition (parens : List Lexeme → Read (Condition × List Lexeme)) (allowsOr : Bool)
    (ts : List Lexeme) : Read (Condition × List Lexeme) := do
  if isWord "not" (peek ts) then
    let (c, rest) ← parens ts.tail
    return (.not c, rest)
  let (first, rest) ← parens ts
  let isAnd := isWord "and" (peek rest)
  if !isAnd && !(allowsOr && isWord "or" (peek rest)) then return (first, rest)
  let (more, rest) ← takeOperands parens (if isAnd then "and" else "or") rest.length rest
  if isWord "and" (peek rest) || isWord "or" (peek rest) then .error .mixedOperators
  return (if isAnd then .and (first :: more) else .or (first :: more), rest)

/-- A condition or a feature in parentheses, with parentheses nested down to a depth. -/
def takeParens : Nat → List Lexeme → Read (Condition × List Lexeme)
  | 0, ts => .error (unexpected ts)
  | depth + 1, ts => do
    if peek ts != .openParen then .error (unexpected ts)
    let inner := ts.tail
    if peek inner == .openParen || isWord "not" (peek inner) then
      let (c, rest) ← takeCondition (takeParens depth) true inner
      if peek rest == .closeParen then return (c, rest.tail)
      else .error (unexpected rest)
    else
      let (feature, rest) ← takeFeature inner
      return (.test (← testOf feature), rest)

/-! ## Queries -/

/-- Whether a query starts with a device type rather than with a condition. -/
def startsWithType (ts : List Lexeme) : Bool :=
  match peek ts, peek ts.tail with
  | .ident _, .ident _ => true
  | .ident word, _ => !eqIgnoreCase word "not"
  | _, _ => false

/-- The words that cannot be a device type. -/
def reservedWords : List String := ["and", "or", "not", "only", "layer"]

/-- A query. -/
def takeQuery (ts : List Lexeme) : Read (Query × List Lexeme) := do
  let parens := takeParens ts.length
  if !startsWithType ts then
    let (c, rest) ← takeCondition parens true ts
    return (⟨false, none, some c⟩, rest)
  let negated := isWord "not" (peek ts)
  let ts := if negated || isWord "only" (peek ts) then ts.tail else ts
  match peek ts with
  | .ident name =>
    if reservedWords.contains name.toLower then .error (unexpected ts)
    if isWord "and" (peek ts.tail) then
      let (c, rest) ← takeCondition parens false ts.tail.tail
      return (⟨negated, some name.toLower, some c⟩, rest)
    return (⟨negated, some name.toLower, none⟩, ts.tail)
  | _ => .error (unexpected ts)

/-- At most `limit` queries, separated by commas. -/
def takeQueries : Nat → List Lexeme → Read (List Query)
  | 0, ts => .error (unexpected ts)
  | limit + 1, ts => do
    let (q, rest) ← takeQuery ts
    match peek rest with
    | .comma => return q :: (← takeQueries limit rest.tail)
    | .endOfInput => return [q]
    | _ => .error (unexpected rest)

/-- Reads a list of media queries, as it is written after `@media`. -/
def parse (text : String) : Read (List Query) :=
  let ts := (lex text).filter (·.token != .space)
  if peek ts == .endOfInput then .ok [] else takeQueries ts.length ts

/-- Whether a list of media queries, as text, selects a device. -/
def evaluate (text : String) (e : Environment) : Read Bool := do
  return selectsAny (← parse text) e

/-- Whether all of several lists select a device. A list that cannot be read counts as selecting it. -/
def allSelect (lists : List String) (e : Environment) : Bool :=
  lists.all fun text =>
    match evaluate text e with
    | .ok selected => selected
    | .error _ => true

end LiveMarkup.Media
