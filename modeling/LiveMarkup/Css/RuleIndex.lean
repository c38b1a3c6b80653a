/-
The rules of a style sheet.

The index lists the style rules of a sheet with the bytes that they take and the media conditions
around them. It is built without tokens: only comments, quoted strings and the block structure count,
so any declarations and unknown at-rules are accepted. What stands before an opening brace, back to the
last brace or semicolon, says what the block is.
-/
import LiveMarkup.Css.Lexer
import LiveMarkup.Text.Blank

set_option autoImplicit false

namespace LiveMarkup.Css

open Text

/-- A style rule. -/
structure Rule where
  /-- The whole selector list, without white space and comments before it and white space after it. -/
  selector : String
  /-- From the selector list to the end of the block, the closing brace included. -/
  span : Span
  /-- The conditions of the `@media` blocks around the rule, the outermost first. -/
  media : List String
deriving DecidableEq, Repr

/-- What a block that is still open belongs to. -/
inductive Block where
  /-- A style rule, with the offset of its selector list and the conditions around it. -/
  | rule (selector : String) (start : Nat) (conditions : List String)
  /-- A media rule, with its condition. -/
  | media (condition : String)
  /-- Any other at-rule, or a block without a name. -/
  | other
deriving DecidableEq, Repr

/-- The condition of a block that has one. -/
def Block.condition? : Block → Option String
  | media condition => some condition
  | _ => none

/-- The rule of a block that ends at an offset, if it is one of a rule. -/
def Block.close? (stop : Nat) : Block → Option Rule
  | rule selector start conditions => some ⟨selector, ⟨start, stop⟩, conditions⟩
  | _ => none

/-- A text without white space and comments at its start. The flag tells whether the position is inside
of a comment. -/
def dropBlank : Bool → List Char → List Char
  | true, '*' :: '/' :: cs => dropBlank false cs
  | true, _ :: cs => dropBlank true cs
  | false, '/' :: '*' :: cs => dropBlank true cs
  | false, c :: cs => if isAsciiSpace c then dropBlank false cs else c :: cs
  | _, [] => []

/-- Whether `c` can start the name of an at-rule. -/
def isWordPart (c : Char) : Bool := c.isAlphanum || c == '_'

/-- The condition of a media rule, from what stands after its at sign. -/
def mediaCondition? (cs : List Char) : Option String :=
  let name := cs.takeWhile fun c => isWordPart c || c == '-'
  if cs.head?.any isWordPart && eqIgnoreCase (String.ofList name) "media" then
    some (String.ofList (trim (cs.drop name.length)))
  else none

/-- What a block is, from the text before its opening brace. -/
def Block.ofPrelude (start : Nat) (conditions : List String) (text : List Char) : Block :=
  let rest := dropBlank false text
  match trimEnd rest with
  | [] => .other
  | '@' :: name =>
    match mediaCondition? name with
    | some condition => .media condition
    | none => .other
  | selector => .rule (String.ofList selector) (start + (byteLength text - byteLength rest)) conditions

/-- What the position in a style sheet is in. -/
inductive Context where
  | plain
  | comment
  | string (quote : Char)
deriving DecidableEq, Repr

/-- The scan of a style sheet up to a position. -/
structure Scan where
  /-- The offset of the position. -/
  offset : Nat
  /-- The offset of the text since the last brace or semicolon. -/
  start : Nat
  /-- The text since then, the last character first. -/
  prelude : List Char
  /-- The blocks that are open, the innermost first. -/
  blocks : List Block
  /-- The rules whose blocks are closed, the last one first. -/
  rules : List Rule
deriving DecidableEq, Repr

namespace Scan

/-- The scan at the start of a style sheet. -/
def begin : Scan := ⟨0, 0, [], [], []⟩

/-- The scan after a character that belongs to the text before a block. -/
def push (s : Scan) (c : Char) : Scan :=
  { s with offset := s.offset + c.utf8Size, prelude := c :: s.prelude }

/-- The scan after a character that ends the text before a block. -/
def cut (s : Scan) (c : Char) : Scan :=
  { s with offset := s.offset + c.utf8Size, start := s.offset + c.utf8Size, prelude := [] }

/-- The conditions of the media blocks that are open, the outermost first. -/
def conditions (s : Scan) : List String := (s.blocks.filterMap Block.condition?).reverse

/-- The scan with a block opened. -/
def openBlock (s : Scan) : Scan :=
  { s with blocks := .ofPrelude s.start s.conditions s.prelude.reverse :: s.blocks }

/-- The scan with the innermost block closed at an offset; a brace that closes nothing is ignored. -/
def closeBlock (s : Scan) (stop : Nat) : Scan :=
  match s.blocks with
  | [] => s
  | block :: blocks => { s with blocks, rules := (block.close? stop).toList ++ s.rules }

/-- The scan after a character outside of comments and strings. -/
def step (s : Scan) (c : Char) : Scan :=
  match c with
  | '\x7b' => s.openBlock.cut c
  | '\x7d' => (s.closeBlock (s.offset + 1)).cut c
  | ';' => s.cut c
  | _ => s.push c

/-- The rules at the end of the style sheet, where all blocks are closed. -/
def finish (s : Scan) : List Rule :=
  s.rules.reverse ++ s.blocks.filterMap (Block.close? s.offset)

/-- The scan of the whole of a text. -/
def run : Context → Scan → List Char → Scan
  | .plain, s, '/' :: '*' :: cs => run .comment ((s.push '/').push '*') cs
  | .comment, s, '*' :: '/' :: cs => run .plain ((s.push '*').push '/') cs
  | .comment, s, c :: cs => run .comment (s.push c) cs
  | .string quote, s, '\\' :: c :: cs => run (.string quote) ((s.push '\\').push c) cs
  | .string quote, s, c :: cs => run (if c = quote then .plain else .string quote) (s.push c) cs
  | .plain, s, c :: cs =>
    if c = '"' ∨ c = '\'' then run (.string c) (s.push c) cs else run .plain (s.step c) cs
  | _, s, [] => s

end Scan

/-- The style rules of a style sheet, in the order in which their blocks end. -/
def rulesOf (css : String) : List Rule := (Scan.run .plain .begin css.toList).finish

end LiveMarkup.Css
