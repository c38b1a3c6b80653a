/-
The tree builder.

The builder reads the tokens of a fragment in order and keeps the stack of the elements that are open.
What a tag does is planned from the names of the open elements; the builder performs it on the tree and
records where each element stands: an element that a tag closes without naming it ends where that tag
starts.
-/
import LiveMarkup.Dom.Tree
import LiveMarkup.Html.Lexer
import LiveMarkup.Html.Plan

set_option autoImplicit false

namespace LiveMarkup.Html

/-- How many elements may be open at once, unless said otherwise. -/
def maxOpenElements : Nat := 512

/-- The builder between two tokens. -/
structure Builder where
  /-- The tree built so far. -/
  tree : Tree
  /-- The open elements, the innermost first. -/
  opened : List NodeId
  /-- The number of the token being read. -/
  token : Nat
  /-- The start of the last token of markup, at which left-out end tags are assumed. -/
  offset : Nat
  /-- The issues noted so far. -/
  issues : Array Issue
  /-- How many elements may be open at once. -/
  maxDepth : Nat
deriving Repr

/-- Whether an element holds its contents in a fragment of its own. -/
def isTemplate (e : Element) : Bool := e.space == .html && e.name == "template"

/-- Where reading stands at a token: at the start of the last token of markup. -/
def offsetAt (offset : Nat) (token : Token) : Nat :=
  match token.span? with
  | some span => span.start
  | none => offset

namespace Builder

/-- A builder that has read nothing. -/
def start (maxDepth : Nat) : Builder := ⟨.empty, [], 0, 0, #[], maxDepth⟩

/-- Notes an issue at the current token. -/
def note (b : Builder) (deviation : Deviation) : Builder :=
  { b with issues := b.issues.push ⟨deviation, b.token, b.offset⟩ }

/-- What the rules see of the open elements. -/
def keys (b : Builder) : List Key := b.opened.filterMap fun id => (b.tree.element? id).map keyOf

/-- The node whose children are being read. -/
def insertionParent (b : Builder) : NodeId :=
  match b.opened.head? with
  | none => Tree.root
  | some current => (b.tree.contents? current).getD current

/-! ## Closing elements -/

/-- Records that an element is closed at an offset without an end tag. -/
def closeAt (offset : Nat) (t : Tree) (id : NodeId) : Tree :=
  t.modifyElement id fun e => { e with location := e.location.map (·.closedAt offset) }

/-- Records that an end tag closes an element. -/
def closeBy (endTag : Span) (t : Tree) (id : NodeId) : Tree :=
  t.modifyElement id fun e => { e with location := e.location.map (·.closedBy endTag) }

/-- Closes the innermost open element, where `record` writes down how. -/
def pop (b : Builder) (record : Tree → NodeId → Tree) : Builder :=
  match b.opened with
  | [] => b
  | id :: rest => { b with tree := record b.tree id, opened := rest }

/-! ## Inserting nodes -/

/-- Adds an element as the last child of the node being read. With `stays` it is open then, unless too
many are open already. -/
def insertElement (b : Builder) (e : Element) (stays : Bool) : Except ParseError Builder :=
  if stays ∧ b.maxDepth ≤ b.opened.length then .error (.tooDeep b.maxDepth b.offset)
  else
    let parent := b.insertionParent
    let (tree, id) := b.tree.alloc (.element e)
    let tree :=
      if isTemplate e then
        let (tree, contents) := tree.alloc (.fragment none)
        tree.modifyElement id fun e => { e with contents := some contents }
      else tree
    .ok { b with
      tree := tree.appendChild parent id
      opened := if stays then id :: b.opened else b.opened }

/-- Adds a node that is no element as the last child of the node being read. -/
def insertLeaf (b : Builder) (kind : Kind) : Builder :=
  let (tree, id) := b.tree.alloc kind
  { b with tree := tree.appendChild b.insertionParent id }

/-- Adds a character to the text that ends the node being read, or begins a text there. -/
def insertCharacter (b : Builder) (c : Char) : Builder :=
  match (b.tree.children b.insertionParent).getLast? with
  | some last =>
    if (b.tree.text? last).isSome then { b with tree := b.tree.modifyText last (·.push c) }
    else b.insertLeaf (.text c.toString)
  | none => b.insertLeaf (.text c.toString)

/-! ## Tokens -/

/-- Does one of the things that a tag does. -/
def perform (b : Builder) : Action → Except ParseError Builder
  | .note deviation => .ok (b.note deviation)
  | .close => .ok (b.pop (closeAt b.offset))
  | .closeBy endTag => .ok (b.pop (closeBy endTag))
  | .insert e stays => b.insertElement e stays

/-- Closes all open elements at the end of the text. -/
def endOfFile (b : Builder) (offset : Nat) : Builder :=
  { b with tree := b.opened.foldl (closeAt offset) b.tree, opened := [] }

/-- Reads one token. -/
def read (b : Builder) : Token → Except ParseError Builder
  | .character c => .ok (b.insertCharacter c)
  | .comment data _ => .ok (b.insertLeaf (.comment data))
  | .doctype _ _ => .ok (b.note .doctypeIgnored)
  | .startTag name selfClosing attributes span =>
    ((Plan.start b.keys).startTag ⟨name, selfClosing, attributes, span⟩).actions.foldlM perform b
  | .endTag name span => ((Plan.start b.keys).endTag name span).actions.foldlM perform b
  | .endOfFile offset => .ok (b.endOfFile offset)

/-- Reads tokens in order. -/
def readAll (b : Builder) : List Token → Except ParseError Builder
  | [] => .ok b
  | token :: rest => do
    let read ← ({ b with offset := offsetAt b.offset token } : Builder).read token
    ({ read with token := b.token + 1 } : Builder).readAll rest

end Builder

/-- The tree of a list of tokens and the issues noted, where no more than `maxDepth` elements may be
open at once. -/
def build (maxDepth : Nat) (tokens : List Token) : Except ParseError (Tree × List Issue) := do
  let b ← (Builder.start maxDepth).readAll tokens
  return (b.tree, b.issues.toList)

/-- The tree of a text and the issues noted. -/
def parseWithIssues (text : String) : Except ParseError (Tree × List Issue) :=
  build maxOpenElements (tokenize text)

/-- The tree of a text. -/
def parse (text : String) : Except ParseError Tree := (parseWithIssues text).map (·.1)

end LiveMarkup.Html
