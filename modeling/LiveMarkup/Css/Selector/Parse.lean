/-
Reading selectors.

`Selector.parse` reads a selector list from the tokens of a text. The parts of it take the tokens from
their position on and give what they read with the tokens that are left; where a token cannot stand,
the error names it. The argument of a functional pseudo-class is cut out first and then read as a list
of its own, so selectors nest no deeper than there are tokens.
-/
import LiveMarkup.Css.Lexer
import LiveMarkup.Css.Selector

set_option autoImplicit false

namespace LiveMarkup.Css.Selector

open Text

/-- What reading a part of a selector gives. -/
abbrev Read := Except SelectorError

/-- The error of a token that cannot stand at the position. -/
def unexpected : List Lexeme → SelectorError
  | [] => .unexpectedEnd
  | l :: _ =>
    match l.token with
    | .endOfInput => .unexpectedEnd
    | token => .unexpectedToken token.describe l.span.start

/-- The tokens without the white space at their start. -/
def skipSpace : List Lexeme → List Lexeme
  | [] => []
  | l :: rest =>
    match l.token with
    | .space => skipSpace rest
    | _ => l :: rest

/-- Whether a complex selector can end at the position. -/
def atEnd (ts : List Lexeme) : Bool :=
  match peek ts with
  | .endOfInput | .comma | .closeParen => true
  | _ => false

/-! ## Attribute selectors -/

/-- The comparison of an attribute selector, its equals sign included. -/
def takeComparison (ts : List Lexeme) : Read (Comparison × List Lexeme) := do
  let withSign (c : Comparison) : Read (Comparison × List Lexeme) :=
    match peek ts.tail with
    | .delim '=' => .ok (c, ts.tail.tail)
    | _ => .error (unexpected ts.tail)
  match peek ts with
  | .delim '=' => return (.equals, ts.tail)
  | .delim '~' => withSign .includes
  | .delim '|' => withSign .dashMatch
  | .delim '^' => withSign .startsWith
  | .delim '$' => withSign .endsWith
  | .delim '*' => withSign .contains
  | _ => .error (unexpected ts)

/-- The flag of an attribute selector, if it has one: whether the case of letters does not matter. -/
def takeFlag (ts : List Lexeme) : Read (Bool × List Lexeme) :=
  match peek ts with
  | .ident flag =>
    if eqIgnoreCase flag "i" then .ok (true, skipSpace ts.tail)
    else if eqIgnoreCase flag "s" then .ok (false, skipSpace ts.tail)
    else .error (unexpected ts)
  | _ => .ok (false, ts)

/-- An attribute selector after its opening bracket. -/
def takeAttribute (ts : List Lexeme) : Read (AttributeSelector × List Lexeme) := do
  let ts := skipSpace ts
  match peek ts with
  | .ident name =>
    let ts := skipSpace ts.tail
    match peek ts with
    | .closeBracket => return (⟨name.toLower, none, false⟩, ts.tail)
    | _ =>
      let (comparison, ts) ← takeComparison ts
      let ts := skipSpace ts
      match peek ts with
      | .ident value | .string value =>
        let (ignoresCase, ts) ← takeFlag (skipSpace ts.tail)
        match peek ts with
        | .closeBracket => return (⟨name.toLower, some (comparison, value), ignoresCase⟩, ts.tail)
        | _ => .error (unexpected ts)
      | _ => .error (unexpected ts)
  | _ => .error (unexpected ts)

/-! ## Pseudo-classes -/

/-- A pseudo-class without arguments, by its name in lower case. The pseudo-elements of the first style
sheets may stand after a single colon. -/
def pseudoNamed (name : String) : Read Simple :=
  match PseudoClass.ofName? name, name with
  | some p, _ => .ok (.pseudo p)
  | _, "hover" | _, "focus" | _, "active" | _, "visited" | _, "focus-within" | _, "focus-visible"
  | _, "target" => .ok (.never name)
  | _, "before" | _, "after" | _, "first-line" | _, "first-letter" => .error (.pseudoElement (":" ++ name))
  | _, _ => .error (.unknownPseudoClass name)

/-- The tokens up to the parenthesis that closes the block at a depth, and the tokens after it. -/
def takeArguments : Nat → List Lexeme → Read (List Lexeme × List Lexeme)
  | _, [] => .error .unexpectedEnd
  | depth, l :: rest =>
    if l.token == .endOfInput then .error .unexpectedEnd
    else if l.token.closesBlock && depth == 0 then .ok ([], rest)
    else do
      let depth :=
        if l.token.opensBlock then depth + 1
        else if l.token.closesBlock then depth - 1
        else depth
      let (arguments, left) ← takeArguments depth rest
      return (l :: arguments, left)

/-- The text that tokens were read from. -/
def textOf (source : List Char) (ts : List Lexeme) : List Char :=
  match ts.head?, ts.getLast? with
  | some first, some last => (slice? source first.span.start last.span.stop).getD []
  | _, _ => []

/-- The positions that the tokens of an argument stand for. -/
def nthOf (source : List Char) (ts : List Lexeme) : Read Nth :=
  let text := textOf source ts
  match Nth.parse? text with
  | some n => .ok n
  | none => .error (.invalidNth (String.ofList (trim text)))

/-- The tokens before the word `of` and after it, when it occurs. -/
def cutAtOf : List Lexeme → Option (List Lexeme × List Lexeme)
  | [] => none
  | l :: rest =>
    let isOf := match l.token with
      | .ident word => eqIgnoreCase word "of"
      | _ => false
    if isOf then some ([], rest)
    else (cutAtOf rest).map fun (before, after) => (l :: before, after)

/-- A functional pseudo-class, by its name in lower case and the tokens of its argument; `nested` reads
a list inside of it. -/
def pseudoFunction (source : List Char) (nested : List Lexeme → Read SelectorList)
    (name : String) (arguments : List Lexeme) : Read Simple := do
  let nthChild (fromEnd : Bool) : Read Simple := do
    match cutAtOf arguments with
    | some (before, after) =>
      let n ← nthOf source before
      return .nthChildOf fromEnd n (← nested after)
    | none => return .nthChild fromEnd (← nthOf source arguments)
  match name with
  | "not" => return .not (← nested arguments)
  | "is" | "matches" | "any" => return .is (← nested arguments)
  | "where" => return .whereIs (← nested arguments)
  | "nth-child" => nthChild false
  | "nth-last-child" => nthChild true
  | "nth-of-type" => return .nthOfType false (← nthOf source arguments)
  | "nth-last-of-type" => return .nthOfType true (← nthOf source arguments)
  | "has" | "dir" | "lang" | "host" | "host-context" | "state" => .error (.unsupported name)
  | _ => .error (.unknownPseudoClass (name ++ "()"))

/-- A pseudo-class after its colon. -/
def takePseudo (source : List Char) (nested : List Lexeme → Read SelectorList)
    (ts : List Lexeme) : Read (Simple × List Lexeme) := do
  match peek ts with
  | .colon =>
    match peek ts.tail with
    | .ident name | .function name => .error (.pseudoElement ("::" ++ name))
    | _ => .error (unexpected ts.tail)
  | .ident name => return (← pseudoNamed name.toLower, ts.tail)
  | .function name =>
    let (arguments, rest) ← takeArguments 0 ts.tail
    return (← pseudoFunction source nested name.toLower arguments, rest)
  | _ => .error (unexpected ts)

/-! ## Compounds, complex selectors and lists -/

/-- The simple selector at the position, other than a type; none when the compound ends there. -/
def takeSimple (source : List Char) (nested : List Lexeme → Read SelectorList)
    (ts : List Lexeme) : Read (Option (Simple × List Lexeme)) := do
  match peek ts with
  | .hash name true => return some (.id name, ts.tail)
  | .delim '.' =>
    match peek ts.tail with
    | .ident name => return some (.class name, ts.tail.tail)
    | _ => .error (unexpected ts.tail)
  | .openBracket =>
    let (a, rest) ← takeAttribute ts.tail
    return some (.attribute a, rest)
  | .colon => return some (← takePseudo source nested ts.tail)
  | _ => return none

/-- At most `limit` simple selectors that follow each other. -/
def takeSimples (source : List Char) (nested : List Lexeme → Read SelectorList) :
    Nat → List Lexeme → Read (List Simple × List Lexeme)
  | 0, ts => .ok ([], ts)
  | limit + 1, ts => do
    match ← takeSimple source nested ts with
    | none => return ([], ts)
    | some (s, rest) =>
      let (simples, rest) ← takeSimples source nested limit rest
      return (s :: simples, rest)

/-- The type or the universal selector at the position, if there is one. -/
def takeType (ts : List Lexeme) : List Simple × List Lexeme :=
  match peek ts with
  | .ident name => ([.type name.toLower], ts.tail)
  | .delim '*' => ([.universal], ts.tail)
  | _ => ([], ts)

/-- A compound, which may turn out empty. -/
def takeCompound (source : List Char) (nested : List Lexeme → Read SelectorList)
    (ts : List Lexeme) : Read ((List Simple) × List Lexeme) := do
  let (types, ts) := takeType ts
  match peek ts with
  | .delim '|' => .error (.unsupported "namespace prefix")
  | _ =>
    let (simples, rest) ← takeSimples source nested ts.length ts
    return (types ++ simples, rest)

/-- A compound that is not empty. -/
def takeSubject (source : List Char) (nested : List Lexeme → Read SelectorList)
    (ts : List Lexeme) : Read ((List Simple) × List Lexeme) := do
  match ← takeCompound source nested ts with
  | ([], rest) => .error (unexpected rest)
  | compound => return compound

/-- The combinator after a compound, with the tokens after it; none at the end of the selector. -/
def takeCombinator (ts : List Lexeme) : Read (Option (Combinator × List Lexeme)) :=
  let rest := skipSpace ts
  match peek rest with
  | .delim '>' => .ok (some (.child, skipSpace rest.tail))
  | .delim '+' => .ok (some (.nextSibling, skipSpace rest.tail))
  | .delim '~' => .ok (some (.subsequentSibling, skipSpace rest.tail))
  | _ =>
    if atEnd rest then .ok none
    else if rest.length < ts.length then .ok (some (.descendant, rest))
    else .error (unexpected rest)

/-- A complex selector, of which the part on the left is already read, with at most `limit` compounds
more. -/
def takeJoined (source : List Char) (nested : List Lexeme → Read SelectorList) :
    Nat → Complex → List Lexeme → Read (Complex × List Lexeme)
  | 0, left, ts => .ok (left, ts)
  | limit + 1, left, ts => do
    match ← takeCombinator ts with
    | none => return (left, skipSpace ts)
    | some (combinator, rest) =>
      let (subject, rest) ← takeSubject source nested rest
      takeJoined source nested limit (.joined left combinator subject) rest

/-- A complex selector. -/
def takeComplex (source : List Char) (nested : List Lexeme → Read SelectorList)
    (ts : List Lexeme) : Read (Complex × List Lexeme) := do
  let ts := skipSpace ts
  match ← takeCompound source nested ts with
  | ([], rest) => .error (if atEnd rest then .empty else unexpected rest)
  | (compound, rest) => takeJoined source nested rest.length (.compound compound) rest

/-- At most `limit` complex selectors more, each after a comma. -/
def takeMore (source : List Char) (nested : List Lexeme → Read SelectorList) :
    Nat → List Lexeme → Read (SelectorList × List Lexeme)
  | 0, ts => .ok ([], ts)
  | limit + 1, ts => do
    match peek ts with
    | .comma =>
      let (c, rest) ← takeComplex source nested ts.tail
      let (more, rest) ← takeMore source nested limit rest
      return (c :: more, rest)
    | _ => return ([], ts)

/-- All the tokens as a selector list, whose nested lists are read by `nested`. -/
def takeAll (source : List Char) (nested : List Lexeme → Read SelectorList)
    (ts : List Lexeme) : Read SelectorList := do
  let (first, rest) ← takeComplex source nested ts
  let (more, rest) ← takeMore source nested rest.length rest
  match peek rest with
  | .endOfInput => return first :: more
  | _ => .error (unexpected rest)

/-- All the tokens as a selector list, with nested lists down to a depth. -/
def takeNested (source : List Char) : Nat → List Lexeme → Read SelectorList
  | 0 => fun ts => .error (unexpected ts)
  | depth + 1 => takeAll source (takeNested source depth)

/-- Reads a selector list such as `ul > li.item, a[href^="https"]:not(.x)`. -/
def parse (text : String) : Read SelectorList :=
  let ts := lex text
  takeNested text.toList (ts.length + 1) ts

end LiveMarkup.Css.Selector
