/-
The steps of the markup lexer.

The text is taken as it is: line ends are not normalised, and every offset refers to the text as it was
written. No text is refused; what the markup rules call a parse error is counted and the machine goes
on. Raw text ends at the first end tag of its element, and a document type declaration keeps its name
only.
-/
import LiveMarkup.Html.Entity
import LiveMarkup.Html.Lexer.State
import LiveMarkup.Text.Ascii

set_option autoImplicit false

namespace LiveMarkup.Html

open Text

/-! ## Pieces of a step -/

/-- The replacement for the null character, which no name, value or comment may hold. -/
def replaceNull (c : Char) : Char :=
  if c = '\x00' then '\ufffd' else c

/-- The attributes with later ones of a name already seen left out. -/
def dropRepeated : List String → List Attribute → List Attribute
  | _, [] => []
  | seen, a :: rest =>
    if a.name ∈ seen then dropRepeated seen rest else a :: dropRepeated (a.name :: seen) rest

namespace TagDraft

/-- Appends a character to the tag's name. -/
def pushName (tag : TagDraft) (c : Char) : TagDraft :=
  { tag with name := tag.name.push (replaceNull c).toLower }

/-- Begins an attribute without a name. -/
def beginAttribute (tag : TagDraft) : TagDraft :=
  { tag with attributes := ⟨"", ""⟩ :: tag.attributes }

/-- Appends a character to the name of the last attribute. -/
def pushAttributeName (tag : TagDraft) (c : Char) : TagDraft :=
  match tag.attributes with
  | [] => tag
  | a :: rest => { tag with attributes := { a with name := a.name.push c } :: rest }

/-- Appends text to the value of the last attribute. -/
def appendValue (tag : TagDraft) (text : String) : TagDraft :=
  match tag.attributes with
  | [] => tag
  | a :: rest => { tag with attributes := { a with value := a.value ++ text } :: rest }

end TagDraft

/-- Appends text to a comment. -/
def CommentDraft.append (comment : CommentDraft) (text : String) : CommentDraft :=
  { comment with data := comment.data ++ text }

/-- Whether a reference stands in an attribute value. -/
def Site.inValue : Site → Bool
  | .text _ => false
  | .value _ _ => true

/-- The site after text was written at it, and the tokens that this reports. -/
def Site.write : Site → String → List Token × Site
  | .text content, chars => (chars.toList.map .character, .text content)
  | .value tag quoting, chars => ([], .value (tag.appendValue chars) quoting)

/-- The state in which reading goes on after a reference. -/
def Site.resume : Site → State
  | .text content => .text content
  | .value tag quoting => .attributeValue tag quoting

namespace Lexer

/-- The lexer at the start of a text. -/
def start (text : List Char) : Lexer :=
  ⟨text, 0, none, .text .markup⟩

/-- Goes to a state without consuming anything. -/
def stay (l : Lexer) (state : State) (tokens : List Token := []) (errors : Nat := 0) : Step :=
  ⟨tokens, errors, some { l with state }⟩

/-- Consumes `c`, after which `rest` is left, and goes to a state. -/
def take (l : Lexer) (c : Char) (rest : List Char) (state : State) (tokens : List Token := [])
    (errors : Nat := 0) : Step :=
  ⟨tokens, errors, some { l with rest, offset := l.offset + c.utf8Size, state }⟩

/-- Consumes `n` characters of one byte and goes to a state. -/
def skip (l : Lexer) (n : Nat) (state : State) (tokens : List Token := []) (errors : Nat := 0) : Step :=
  ⟨tokens, errors, some { l with rest := l.rest.drop n, offset := l.offset + n, state }⟩

/-- Reports the end of the text. -/
def finish (l : Lexer) (tokens : List Token := []) (errors : Nat := 0) : Step :=
  ⟨tokens ++ [.endOfFile l.offset], errors, none⟩

/-- Consumes the `>` that ends a tag and reports the tag. After a start tag that is not self-closing,
the text of its element is read in that element's way. -/
def closeTag (l : Lexer) (rest : List Char) (tag : TagDraft) (selfClosing : Bool) (errors : Nat := 0) :
    Step :=
  let span : Span := ⟨tag.start, l.offset + 1⟩
  if tag.closing then
    l.take '>' rest (.text .markup) [.endTag tag.name span] errors
  else
    let written := tag.attributes.reverse
    let kept := dropRepeated [] written
    let content := if selfClosing then .markup else Content.ofElement tag.name
    ({ l with lastStart := some tag.name } : Lexer).take '>' rest (.text content)
      [.startTag tag.name selfClosing kept span]
      (errors + if kept.length = written.length then 0 else 1)

/-- Consumes the `>` that ends a comment and reports the comment. -/
def closeComment (l : Lexer) (rest : List Char) (comment : CommentDraft) (errors : Nat := 0) : Step :=
  l.take '>' rest (.text .markup) [.comment comment.data ⟨comment.start, l.offset + 1⟩] errors

/-- Reports a comment that the end of the text cuts off. -/
def cutComment (l : Lexer) (comment : CommentDraft) (errors : Nat) : Step :=
  l.finish [.comment comment.data ⟨comment.start, l.offset⟩] errors

/-- Consumes the `>` that ends a document type declaration and reports it. -/
def closeDoctype (l : Lexer) (rest : List Char) (start : Nat) (name : Option String)
    (errors : Nat := 0) : Step :=
  l.take '>' rest (.text .markup) [.doctype name ⟨start, l.offset + 1⟩] errors

/-- Reports a document type declaration that the end of the text cuts off. -/
def cutDoctype (l : Lexer) (start : Nat) (name : Option String) : Step :=
  l.finish [.doctype name ⟨start, l.offset⟩] 1

/-- Writes text at the site of a reference and goes on reading there, looking at the same character. -/
def stayAt (l : Lexer) (site : Site) (text : String) (errors : Nat := 0) : Step :=
  let written := site.write text
  l.stay written.2.resume written.1 errors

/-! ## Text -/

/-- A step in text. -/
def stepText (l : Lexer) (content : Content) : Step :=
  match l.rest with
  | [] => l.finish
  | c :: rest =>
    if c = '&' ∧ (content = .markup ∨ content = .escapable) then
      l.take c rest (.reference (.text content))
    else if c = '<' ∧ content = .markup then l.take c rest (.tagOpen l.offset)
    else if c = '<' ∧ content ≠ .plain then l.take c rest (.rawLessThan content l.offset)
    else l.take c rest (.text content) [.character c]

/-- A step after a `<` in raw text. -/
def stepRawLessThan (l : Lexer) (content : Content) (start : Nat) : Step :=
  match l.rest with
  | '/' :: rest => l.take '/' rest (.rawEndTagOpen content start)
  | _ => l.stay (.text content) [.character '<']

/-- A step after `</` in raw text. -/
def stepRawEndTagOpen (l : Lexer) (content : Content) (start : Nat) : Step :=
  match l.rest.head? with
  | some c =>
    if c.isAlpha then l.stay (.rawEndTagName content start "")
    else l.stay (.text content) [.character '<', .character '/']
  | none => l.stay (.text content) [.character '<', .character '/']

/-- A step in the name of what may be the end tag of a raw text element. Only the name of the last
start tag ends the raw text; any other is text. -/
def stepRawEndTagName (l : Lexer) (content : Content) (start : Nat) (written : String) : Step :=
  let tag : TagDraft := ⟨true, start, written.toLower, []⟩
  let appropriate := l.lastStart == some tag.name
  let asText : Step := l.stay (.text content)
    (.character '<' :: .character '/' :: written.toList.map .character)
  match l.rest with
  | [] => asText
  | c :: rest =>
    if isAsciiSpace c && appropriate then l.take c rest (.beforeAttributeName tag)
    else if c == '/' && appropriate then l.take c rest (.selfClosing tag)
    else if c == '>' && appropriate then l.closeTag rest tag false
    else if c.isAlpha then l.take c rest (.rawEndTagName content start (written.push c))
    else asText

/-! ## Tags -/

/-- A step after `<`. -/
def stepTagOpen (l : Lexer) (start : Nat) : Step :=
  match l.rest with
  | [] => l.finish [.character '<'] 1
  | c :: rest =>
    if c = '!' then l.take c rest (.markupDeclaration start)
    else if c = '/' then l.take c rest (.endTagOpen start)
    else if c.isAlpha then l.stay (.tagName ⟨false, start, "", []⟩)
    else if c = '?' then l.stay (.bogusComment ⟨start, ""⟩) [] 1
    else l.stay (.text .markup) [.character '<'] 1

/-- A step after `</`. -/
def stepEndTagOpen (l : Lexer) (start : Nat) : Step :=
  match l.rest with
  | [] => l.finish [.character '<', .character '/'] 1
  | c :: rest =>
    if c.isAlpha then l.stay (.tagName ⟨true, start, "", []⟩)
    else if c = '>' then l.take c rest (.text .markup) [] 1
    else l.stay (.bogusComment ⟨start, ""⟩) [] 1

/-- A step in the name of a tag. -/
def stepTagName (l : Lexer) (tag : TagDraft) : Step :=
  match l.rest with
  | [] => l.finish [] 1
  | c :: rest =>
    if isAsciiSpace c then l.take c rest (.beforeAttributeName tag)
    else if c = '/' then l.take c rest (.selfClosing tag)
    else if c = '>' then l.closeTag rest tag false
    else l.take c rest (.tagName (tag.pushName c))

/-- Consumes a character of an attribute's name. -/
def takeAttributeName (l : Lexer) (c : Char) (rest : List Char) (tag : TagDraft) : Step :=
  l.take c rest (.attributeName (tag.pushAttributeName (replaceNull c).toLower)) []
    (if c = '"' ∨ c = '\'' ∨ c = '<' then 1 else 0)

/-- A step before the name of an attribute. -/
def stepBeforeAttributeName (l : Lexer) (tag : TagDraft) : Step :=
  match l.rest with
  | [] => l.stay (.afterAttributeName tag)
  | c :: rest =>
    if isAsciiSpace c then l.take c rest (.beforeAttributeName tag)
    else if c = '/' ∨ c = '>' then l.stay (.afterAttributeName tag)
    else if c = '=' then
      l.take c rest (.attributeName (tag.beginAttribute.pushAttributeName '=')) [] 1
    else l.takeAttributeName c rest tag.beginAttribute

/-- A step in the name of an attribute. -/
def stepAttributeName (l : Lexer) (tag : TagDraft) : Step :=
  match l.rest with
  | [] => l.stay (.afterAttributeName tag)
  | c :: rest =>
    if isAsciiSpace c ∨ c = '/' ∨ c = '>' then l.stay (.afterAttributeName tag)
    else if c = '=' then l.take c rest (.beforeAttributeValue tag)
    else l.takeAttributeName c rest tag

/-- A step after the name of an attribute. -/
def stepAfterAttributeName (l : Lexer) (tag : TagDraft) : Step :=
  match l.rest with
  | [] => l.finish [] 1
  | c :: rest =>
    if isAsciiSpace c then l.take c rest (.afterAttributeName tag)
    else if c = '/' then l.take c rest (.selfClosing tag)
    else if c = '=' then l.take c rest (.beforeAttributeValue tag)
    else if c = '>' then l.closeTag rest tag false
    else l.takeAttributeName c rest tag.beginAttribute

/-- A step before the value of an attribute. -/
def stepBeforeAttributeValue (l : Lexer) (tag : TagDraft) : Step :=
  match l.rest with
  | [] => l.stay (.attributeValue tag .unquoted)
  | c :: rest =>
    if isAsciiSpace c then l.take c rest (.beforeAttributeValue tag)
    else if c = '"' then l.take c rest (.attributeValue tag .double)
    else if c = '\'' then l.take c rest (.attributeValue tag .single)
    else if c = '>' then l.closeTag rest tag false 1
    else l.stay (.attributeValue tag .unquoted)

/-- A step in the value of an attribute. -/
def stepAttributeValue (l : Lexer) (tag : TagDraft) (quoting : Quoting) : Step :=
  match l.rest with
  | [] => l.finish [] 1
  | c :: rest =>
    if quoting.mark? = some c then l.take c rest (.afterQuotedValue tag)
    else if quoting = .unquoted ∧ isAsciiSpace c then l.take c rest (.beforeAttributeName tag)
    else if c = '&' then l.take c rest (.reference (.value tag quoting))
    else if quoting = .unquoted ∧ c = '>' then l.closeTag rest tag false
    else
      l.take c rest (.attributeValue (tag.appendValue (replaceNull c).toString) quoting) []
        (if quoting = .unquoted ∧ c ∈ ['"', '\'', '<', '=', '\x60'] then 1 else 0)

/-- A step after the closing quote of a value. -/
def stepAfterQuotedValue (l : Lexer) (tag : TagDraft) : Step :=
  match l.rest with
  | [] => l.finish [] 1
  | c :: rest =>
    if isAsciiSpace c then l.take c rest (.beforeAttributeName tag)
    else if c = '/' then l.take c rest (.selfClosing tag)
    else if c = '>' then l.closeTag rest tag false
    else l.stay (.beforeAttributeName tag) [] 1

/-- A step after a `/` in a tag. -/
def stepSelfClosing (l : Lexer) (tag : TagDraft) : Step :=
  match l.rest with
  | [] => l.finish [] 1
  | c :: rest =>
    if c = '>' then l.closeTag rest tag true else l.stay (.beforeAttributeName tag) [] 1

/-! ## Comments and declarations -/

/-- A step in a comment that was not opened by two hyphens. -/
def stepBogusComment (l : Lexer) (comment : CommentDraft) : Step :=
  match l.rest with
  | [] => l.cutComment comment 0
  | c :: rest =>
    if c = '>' then l.closeComment rest comment
    else l.take c rest (.bogusComment (comment.append (replaceNull c).toString))

/-- A step after `<!`: two hyphens open a comment, the word DOCTYPE a declaration, and anything else a
comment to the next `>`. -/
def stepMarkupDeclaration (l : Lexer) (start : Nat) : Step :=
  if beginsWith l.rest "--" then l.skip 2 (.commentStart ⟨start, ""⟩)
  else if startsWithIgnoreCase l.rest "doctype" then l.skip 7 (.doctype start)
  else if beginsWith l.rest "[CDATA[" then l.skip 7 (.bogusComment ⟨start, "[CDATA["⟩) [] 1
  else l.stay (.bogusComment ⟨start, ""⟩) [] 1

/-- A step after the two hyphens that open a comment. -/
def stepCommentStart (l : Lexer) (comment : CommentDraft) : Step :=
  match l.rest with
  | '-' :: rest => l.take '-' rest (.commentStartDash comment)
  | '>' :: rest => l.closeComment rest comment 1
  | _ => l.stay (.comment comment)

/-- A step after the third hyphen of a comment's opening. -/
def stepCommentStartDash (l : Lexer) (comment : CommentDraft) : Step :=
  match l.rest with
  | [] => l.cutComment comment 1
  | '-' :: rest => l.take '-' rest (.commentEnd comment)
  | '>' :: rest => l.closeComment rest comment 1
  | _ => l.stay (.comment (comment.append "-"))

/-- A step in a comment. -/
def stepComment (l : Lexer) (comment : CommentDraft) : Step :=
  match l.rest with
  | [] => l.cutComment comment 1
  | c :: rest =>
    if c = '-' then l.take c rest (.commentEndDash comment)
    else l.take c rest (.comment (comment.append (replaceNull c).toString))

/-- A step after a hyphen in a comment. -/
def stepCommentEndDash (l : Lexer) (comment : CommentDraft) : Step :=
  match l.rest with
  | [] => l.cutComment comment 1
  | '-' :: rest => l.take '-' rest (.commentEnd comment)
  | _ => l.stay (.comment (comment.append "-"))

/-- A step after two hyphens in a comment. -/
def stepCommentEnd (l : Lexer) (comment : CommentDraft) : Step :=
  match l.rest with
  | [] => l.cutComment comment 1
  | '>' :: rest => l.closeComment rest comment
  | '!' :: rest => l.take '!' rest (.commentEndBang comment)
  | '-' :: rest => l.take '-' rest (.commentEnd (comment.append "-"))
  | _ => l.stay (.comment (comment.append "--"))

/-- A step after two hyphens and an exclamation mark in a comment. -/
def stepCommentEndBang (l : Lexer) (comment : CommentDraft) : Step :=
  match l.rest with
  | [] => l.cutComment comment 1
  | '-' :: rest => l.take '-' rest (.commentEndDash (comment.append "--!"))
  | '>' :: rest => l.closeComment rest comment 1
  | _ => l.stay (.comment (comment.append "--!"))

/-- A step after the word DOCTYPE. -/
def stepDoctype (l : Lexer) (start : Nat) : Step :=
  match l.rest with
  | [] => l.cutDoctype start none
  | c :: rest =>
    if isAsciiSpace c then l.take c rest (.beforeDoctypeName start) else l.stay (.beforeDoctypeName start)

/-- A step before the name of a document type. -/
def stepBeforeDoctypeName (l : Lexer) (start : Nat) : Step :=
  match l.rest with
  | [] => l.cutDoctype start none
  | c :: rest =>
    if isAsciiSpace c then l.take c rest (.beforeDoctypeName start)
    else if c = '>' then l.closeDoctype rest start none 1
    else l.take c rest (.doctypeName start (replaceNull c).toLower.toString)

/-- A step in the name of a document type. -/
def stepDoctypeName (l : Lexer) (start : Nat) (name : String) : Step :=
  match l.rest with
  | [] => l.cutDoctype start (some name)
  | c :: rest =>
    if isAsciiSpace c then l.take c rest (.afterDoctypeName start name)
    else if c = '>' then l.closeDoctype rest start (some name)
    else l.take c rest (.doctypeName start (name.push (replaceNull c).toLower))

/-- A step after the name of a document type; identifiers are skipped. -/
def stepAfterDoctypeName (l : Lexer) (start : Nat) (name : String) : Step :=
  match l.rest with
  | [] => l.cutDoctype start (some name)
  | c :: rest =>
    if c = '>' then l.closeDoctype rest start (some name)
    else l.take c rest (.afterDoctypeName start name)

/-! ## Character references -/

/-- A step after `&`. -/
def stepReference (l : Lexer) (site : Site) : Step :=
  match l.rest with
  | [] => l.stayAt site "&"
  | c :: rest =>
    if c.isAlphanum then l.stay (.namedReference site)
    else if c = '#' then l.take c rest (.numericReference site)
    else l.stayAt site "&"

/-- A step at the name of a reference. In an attribute value, an old name without its semicolon that an
equals sign or another letter or digit follows is text. -/
def stepNamedReference (l : Lexer) (site : Site) : Step :=
  match longestEntity? l.rest with
  | none =>
    let written := site.write "&"
    l.stay (.ambiguousAmpersand written.2) written.1
  | some found =>
    let asText := site.inValue && !found.terminated &&
      match (l.rest.drop found.length).head? with
      | none => false
      | some c => c == '=' || c.isAlphanum
    let text :=
      if asText then "&" ++ String.ofList (l.rest.take found.length) else found.replacement
    let written := site.write text
    l.skip found.length written.2.resume written.1 (if asText || found.terminated then 0 else 1)

/-- A step in a name that is no reference. -/
def stepAmbiguousAmpersand (l : Lexer) (site : Site) : Step :=
  match l.rest with
  | [] => l.stay site.resume
  | c :: rest =>
    if c.isAlphanum then
      let written := site.write c.toString
      l.take c rest (.ambiguousAmpersand written.2) written.1
    else l.stay site.resume [] (if c = ';' then 1 else 0)

/-- A step after `&#`. -/
def stepNumericReference (l : Lexer) (site : Site) : Step :=
  match l.rest with
  | [] => l.stay (.numericStart site 10 "&#")
  | c :: rest =>
    if c = 'x' ∨ c = 'X' then l.take c rest (.numericStart site 16 ("&#".push c))
    else l.stay (.numericStart site 10 "&#")

/-- A step before the first digit of a numeric reference. -/
def stepNumericStart (l : Lexer) (site : Site) (base : Nat) (written : String) : Step :=
  match l.rest with
  | [] => l.stayAt site written 1
  | c :: _ =>
    if isDigitOf base c then l.stay (.numericDigits site base 0) else l.stayAt site written 1

/-- The first number that is above every code point. A numeric reference does not count any further. -/
def codeLimit : Nat := 0x110000

/-- A step in the digits of a numeric reference. -/
def stepNumericDigits (l : Lexer) (site : Site) (base code : Nat) : Step :=
  match l.rest with
  | [] => l.stay (.numericEnd site code) [] 1
  | c :: rest =>
    match digitValue? base c with
    | some digit => l.take c rest (.numericDigits site base (min (code * base + digit) codeLimit))
    | none =>
      if c = ';' then l.take c rest (.numericEnd site code) else l.stay (.numericEnd site code) [] 1

/-- The characters that the numbers from 128 to 159 stand for, as code points: those of the code page
windows-1252. -/
def windows1252 : List Nat :=
  [0x20ac, 0x81, 0x201a, 0x0192, 0x201e, 0x2026, 0x2020, 0x2021, 0x02c6, 0x2030, 0x0160, 0x2039,
   0x0152, 0x8d, 0x017d, 0x8f, 0x90, 0x2018, 0x2019, 0x201c, 0x201d, 0x2022, 0x2013, 0x2014, 0x02dc,
   0x2122, 0x0161, 0x203a, 0x0153, 0x9d, 0x017e, 0x0178]

/-- The character that a number stands for, and the parse errors of asking for it. Zero, surrogates and
numbers past the last code point stand for the replacement character. -/
def decodeNumber (code : Nat) : Char × Nat :=
  if code = 0 ∨ (0xd800 ≤ code ∧ code ≤ 0xdfff) ∨ codeLimit ≤ code then ('\ufffd', 1)
  else if 0x80 ≤ code ∧ code ≤ 0x9f then (Char.ofNat (windows1252[code - 0x80]?.getD 0xfffd), 1)
  else (Char.ofNat code, 0)

/-- A step at the end of a numeric reference. -/
def stepNumericEnd (l : Lexer) (site : Site) (code : Nat) : Step :=
  l.stayAt site (decodeNumber code).1.toString (decodeNumber code).2

/-! ## The machine -/

/-- One step of the lexer. -/
def step (l : Lexer) : Step :=
  match l.state with
  | .text content => l.stepText content
  | .tagOpen start => l.stepTagOpen start
  | .endTagOpen start => l.stepEndTagOpen start
  | .tagName tag => l.stepTagName tag
  | .rawLessThan content start => l.stepRawLessThan content start
  | .rawEndTagOpen content start => l.stepRawEndTagOpen content start
  | .rawEndTagName content start written => l.stepRawEndTagName content start written
  | .beforeAttributeName tag => l.stepBeforeAttributeName tag
  | .attributeName tag => l.stepAttributeName tag
  | .afterAttributeName tag => l.stepAfterAttributeName tag
  | .beforeAttributeValue tag => l.stepBeforeAttributeValue tag
  | .attributeValue tag quoting => l.stepAttributeValue tag quoting
  | .afterQuotedValue tag => l.stepAfterQuotedValue tag
  | .selfClosing tag => l.stepSelfClosing tag
  | .bogusComment comment => l.stepBogusComment comment
  | .markupDeclaration start => l.stepMarkupDeclaration start
  | .commentStart comment => l.stepCommentStart comment
  | .commentStartDash comment => l.stepCommentStartDash comment
  | .comment comment => l.stepComment comment
  | .commentEndDash comment => l.stepCommentEndDash comment
  | .commentEnd comment => l.stepCommentEnd comment
  | .commentEndBang comment => l.stepCommentEndBang comment
  | .doctype start => l.stepDoctype start
  | .beforeDoctypeName start => l.stepBeforeDoctypeName start
  | .doctypeName start name => l.stepDoctypeName start name
  | .afterDoctypeName start name => l.stepAfterDoctypeName start name
  | .reference site => l.stepReference site
  | .namedReference site => l.stepNamedReference site
  | .ambiguousAmpersand site => l.stepAmbiguousAmpersand site
  | .numericReference site => l.stepNumericReference site
  | .numericStart site base written => l.stepNumericStart site base written
  | .numericDigits site base code => l.stepNumericDigits site base code
  | .numericEnd site code => l.stepNumericEnd site code

end Lexer

end LiveMarkup.Html
