/-
What a tag does to the open elements.

The rules of markup look at the names of the open elements only. A tag may close elements whose end
tags were left out, be ignored, or add elements that the text leaves out; a plan lists what it does, in
order, and keeps track of the elements that are open after it. The tree builder performs the plan.
-/
import LiveMarkup.Html.Foreign
import LiveMarkup.Html.Issue
import LiveMarkup.Html.Names

set_option autoImplicit false

namespace LiveMarkup.Html

/-- A start tag, as the builder reads it. -/
structure StartTag where
  /-- The name. -/
  name : String
  /-- Whether the tag ends with a slash. -/
  selfClosing : Bool
  /-- The attributes. -/
  attributes : List Attribute
  /-- Where the tag stands. -/
  span : Span
deriving DecidableEq, Repr

/-- What the rules see of an open element. -/
structure Key where
  /-- The language that the element belongs to. -/
  space : Namespace
  /-- The name of the element. -/
  name : String
deriving DecidableEq, Repr

/-- The key of an element. -/
def keyOf (e : Element) : Key := ⟨e.space, e.name⟩

namespace Key

/-- Whether the element is one of HTML of one of some names. -/
def isHtml (names : List String) (k : Key) : Bool := k.space == .html && names.contains k.name

/-- Whether tags inside the element belong to another language. -/
def isForeign (k : Key) : Bool := k.space != .html && !isIntegrationPoint k.space k.name

/-- Whether the element ends the search for the element that an end tag names. -/
def isSpecial (k : Key) : Bool :=
  match k.space with
  | .html => specialNames.contains k.name
  | .mathml => ["mi", "mo", "mn", "ms", "mtext", "annotation-xml"].contains k.name
  | .svg => ["foreignObject", "desc", "title"].contains k.name

/-- Whether the element is the one that a foreign end tag of a name closes, or one of HTML, which hands
the tag to the rules of HTML. -/
def endsForeign (name : String) (k : Key) : Bool := k.space == .html || Text.eqIgnoreCase k.name name

end Key

/-- One thing that a tag does. -/
inductive Action where
  /-- Notes an issue. -/
  | note (deviation : Deviation)
  /-- Closes the innermost open element where the tag starts. -/
  | close
  /-- Closes the innermost open element by the end tag. -/
  | closeBy (endTag : Span)
  /-- Adds an element, which stays open or not. -/
  | insert (element : Element) (stays : Bool)
deriving DecidableEq, Repr

/-- What a tag does. -/
structure Plan where
  /-- The elements that are open afterwards, the innermost first. -/
  opened : List Key
  /-- What is done, in order. -/
  actions : List Action
deriving DecidableEq, Repr

namespace Plan

/-- The plan that does nothing. -/
def start (opened : List Key) : Plan := ⟨opened, []⟩

/-- Notes an issue. -/
def note (p : Plan) (deviation : Deviation) : Plan := { p with actions := p.actions ++ [.note deviation] }

/-! ## The open elements -/

/-- Whether the innermost open element is an element of HTML of one of some names. -/
def currentIs (p : Plan) (names : List String) : Bool := p.opened.head?.any (Key.isHtml names)

/-- Whether tags belong to another language. -/
def inForeign (p : Plan) : Bool := p.opened.head?.any Key.isForeign

/-- The language of the innermost open element. -/
def currentSpace (p : Plan) : Namespace :=
  match p.opened with
  | k :: _ => k.space
  | [] => .html

/-- Whether, from the inside out, an element of a name is open before any element of `barriers`; with
`foreign`, before any foreign element that holds HTML. -/
def inScopeOf (name : String) (barriers : List String) (foreign : Bool) : List Key → Bool
  | [] => false
  | k :: rest =>
    if k.space == .html then
      k.name == name || (!barriers.contains k.name && inScopeOf name barriers foreign rest)
    else
      !(foreign && (isIntegrationPoint k.space k.name || k.name == "annotation-xml"))
        && inScopeOf name barriers foreign rest

/-- Whether an element of a name is open in scope. -/
def inScope (p : Plan) (name : String) : Bool := inScopeOf name scopeNames true p.opened

/-- Whether an element of a name is open in button scope. -/
def inButtonScope (p : Plan) (name : String) : Bool := inScopeOf name buttonScopeNames true p.opened

/-- Whether an element of a name is open in list item scope. -/
def inListItemScope (p : Plan) (name : String) : Bool :=
  inScopeOf name listItemScopeNames true p.opened

/-- Whether an element of a name is open in table scope. -/
def inTableScope (p : Plan) (name : String) : Bool := inScopeOf name tableScopeNames false p.opened

/-! ## Closing elements -/

/-- Closes the innermost open element where the tag starts. -/
def pop (p : Plan) : Plan :=
  match p.opened with
  | [] => p
  | _ :: rest => ⟨rest, p.actions ++ [.close]⟩

/-- Closes open elements from the inside out as long as they satisfy `f`. -/
def popWhile (p : Plan) (f : Key → Bool) : Plan :=
  ⟨p.opened.dropWhile f, p.actions ++ (p.opened.takeWhile f).map fun _ => .close⟩

/-- Closes open elements from the inside out to the first of one of some names, that one included. -/
def popThrough (p : Plan) (names : List String) : Plan := (p.popWhile fun k => !k.isHtml names).pop

/-- Closes the innermost open element that satisfies `f`, with all that are open inside it. An end tag
closes that element only; those inside it end where the tag starts. -/
def closeThrough (p : Plan) (f : Key → Bool) (endTag : Option Span) : Plan :=
  let p := p.popWhile fun k => !f k
  match p.opened, endTag with
  | [], _ => p
  | _ :: rest, some endTag => ⟨rest, p.actions ++ [.closeBy endTag]⟩
  | _ :: _, none => p.pop

/-- Closes the innermost open element of one of some names by an end tag. Nothing happens when none is
open. -/
def closeNamed (p : Plan) (names : List String) (endTag : Span) : Plan :=
  if p.opened.any (Key.isHtml names) then p.closeThrough (Key.isHtml names) (some endTag) else p

/-- Closes the innermost open elements whose end tags may be left out, except those of a name. -/
def closeImplied (p : Plan) (except : Option String) : Plan :=
  p.popWhile (Key.isHtml (impliedEndNames.filter fun name => except != some name))

/-- Closes a paragraph that is open in button scope. -/
def closeParagraph (p : Plan) : Plan :=
  if p.inButtonScope "p" then (p.closeImplied (some "p")).popThrough ["p"] else p

/-- Closes the innermost elements until one of some names is innermost. -/
def clearBackTo (p : Plan) (names : List String) : Plan := p.popWhile fun k => !k.isHtml names

/-- The name of the open list item that a new one ends: the innermost element of one of some names,
unless a special element other than `address`, `div` or `p` is open inside it. -/
def openListItem? (names : List String) : List Key → Option String
  | [] => none
  | k :: rest =>
    if k.isHtml names then some k.name
    else if k.isSpecial && !k.isHtml ["address", "div", "p"] then none
    else openListItem? names rest

/-- Closes the list item that a new one of one of some names ends. -/
def closeListItem (p : Plan) (names : List String) : Plan :=
  match openListItem? names p.opened with
  | none => p
  | some name => (p.closeImplied (some name)).closeThrough (Key.isHtml [name]) none

/-! ## Adding elements -/

/-- Adds an element inside the innermost open one; with `stays` it is open then. -/
def insert (p : Plan) (e : Element) (stays : Bool) : Plan :=
  ⟨if stays then keyOf e :: p.opened else p.opened, p.actions ++ [.insert e stays]⟩

/-- The element of a start tag of HTML. -/
def htmlElement (tag : StartTag) : Element :=
  { Element.ofName tag.name with
    attributes := tag.attributes
    location := some (.opened tag.span tag.selfClosing) }

/-- The element of a start tag of another language. -/
def foreignElement (space : Namespace) (tag : StartTag) : Element :=
  { Element.ofName (spellName space tag.name) with
    attributes := spellAttributes space tag.attributes
    space
    location := some (.opened tag.span tag.selfClosing) }

/-- Adds the element of a start tag of HTML; a void element is closed at once. -/
def insertHtml (p : Plan) (tag : StartTag) : Plan := p.insert (htmlElement tag) (!isVoidName tag.name)

/-- Adds the element of a start tag of another language; a self-closing one is closed at once. -/
def insertForeign (p : Plan) (tag : StartTag) (space : Namespace) : Plan :=
  p.insert (foreignElement space tag) (!tag.selfClosing)

/-- Adds an element that the text leaves out. It has no place in the text. -/
def insertImplied (p : Plan) (name : String) : Plan := (p.note (.implied name)).insert (.ofName name) true

/-! ## Start tags -/

/-- Reads the start tag of a part of a table. The cell and the caption that are open are closed, and
the group and the row that the text leaves out are added. -/
def startTablePart (p : Plan) (tag : StartTag) : Plan :=
  if !p.inTableScope "table" then p.note (.outsideTable tag.name)
  else
    let p :=
      if p.inTableScope "td" || p.inTableScope "th" then (p.closeImplied none).popThrough ["td", "th"]
      else p
    let p := if p.inTableScope "caption" then (p.closeImplied none).popThrough ["caption"] else p
    if tag.name == "col" then
      if p.currentIs ["colgroup"] then p.insertHtml tag
      else ((p.clearBackTo ["table", "template"]).insertImplied "colgroup").insertHtml tag
    else if tag.name == "tr" then
      let p := p.clearBackTo (rowGroupNames ++ ["table", "template"])
      let p := if p.currentIs ["table"] then p.insertImplied "tbody" else p
      p.insertHtml tag
    else if tag.name == "td" || tag.name == "th" then
      let p := p.clearBackTo ("tr" :: rowGroupNames ++ ["table", "template"])
      let p := if p.currentIs ["table"] then p.insertImplied "tbody" else p
      let p := if p.currentIs rowGroupNames then p.insertImplied "tr" else p
      p.insertHtml tag
    else (p.clearBackTo ["table", "template"]).insertHtml tag

/-- Reads a start tag of HTML. -/
def startHtml (p : Plan) (tag : StartTag) : Plan :=
  let name := tag.name
  if ignoredStartNames.contains name then p.note (.startIgnored name)
  else if name == "svg" then p.insertForeign tag .svg
  else if name == "math" then p.insertForeign tag .mathml
  else if blockStartNames.contains name then p.closeParagraph.insertHtml tag
  else if headings.contains name then
    let p := p.closeParagraph
    let p := if p.currentIs headings then (p.note (.headingInHeading name)).pop else p
    p.insertHtml tag
  else if name == "li" then (p.closeListItem ["li"]).closeParagraph.insertHtml tag
  else if name == "dd" || name == "dt" then (p.closeListItem ["dd", "dt"]).closeParagraph.insertHtml tag
  else if name == "button" then
    let p :=
      if p.inScope "button" then ((p.note (.nested "button")).closeImplied none).popThrough ["button"]
      else p
    p.insertHtml tag
  else if name == "a" then
    let p := if p.inScope "a" then (p.note (.nested "a")).popThrough ["a"] else p
    p.insertHtml tag
  else if name == "option" || name == "optgroup" then
    let p := if p.currentIs ["option"] then p.pop else p
    p.insertHtml tag
  else if name == "rb" || name == "rtc" then
    let p := if p.inScope "ruby" then p.closeImplied none else p
    p.insertHtml tag
  else if name == "rp" || name == "rt" then
    let p := if p.inScope "ruby" then p.closeImplied (some "rtc") else p
    p.insertHtml tag
  else if name == "image" then (p.note .imageAsImg).insertHtml { tag with name := "img" }
  else if tablePartNames.contains name then p.startTablePart tag
  else p.insertHtml tag

/-- Reads a start tag. -/
def startTag (p : Plan) (tag : StartTag) : Plan :=
  if p.inForeign then
    if breaksOut tag.name tag.attributes then
      ((p.note (.breaksOut tag.name)).popWhile Key.isForeign).startHtml tag
    else p.insertForeign tag p.currentSpace
  else p.startHtml tag

/-! ## End tags -/

/-- Whether an end tag without a rule of its own names an open element, with no special element open
inside it. -/
def isNamedOpen (name : String) : List Key → Bool
  | [] => false
  | k :: rest => k.isHtml [name] || (!k.isSpecial && isNamedOpen name rest)

/-- Reads an end tag that has no rule of its own. -/
def endOther (p : Plan) (name : String) (span : Span) : Plan :=
  if isNamedOpen name p.opened then
    (p.closeImplied (some name)).closeThrough (Key.isHtml [name]) (some span)
  else p.note (.strayEnd name)

/-- Closes an element by its end tag when it is in scope; its end tag is stray otherwise. -/
def endInScope (p : Plan) (inScope : Bool) (name : String) (except : Option String)
    (names : List String) (span : Span) : Plan :=
  if inScope then (p.closeImplied except).closeNamed names span else p.note (.strayEnd name)

/-- Reads an end tag of HTML. -/
def endHtml (p : Plan) (name : String) (span : Span) : Plan :=
  if ignoredEndNames.contains name then p.note (.endIgnored name)
  else if name == "br" then (p.note .breakEndTag).startTag ⟨"br", false, [], span⟩
  else if name == "p" then p.endInScope (p.inButtonScope "p") name (some "p") ["p"] span
  else if name == "li" then p.endInScope (p.inListItemScope "li") name (some "li") ["li"] span
  else if name == "dd" || name == "dt" then p.endInScope (p.inScope name) name (some name) [name] span
  else if headings.contains name then p.endInScope (headings.any p.inScope) name none headings span
  else if name == "template" then
    p.endInScope (p.opened.any (Key.isHtml ["template"])) name none ["template"] span
  else if tableEndNames.contains name then p.endInScope (p.inTableScope name) name none [name] span
  else if name == "col" then p.note .columnEndTag
  else if blockEndNames.contains name then p.endInScope (p.inScope name) name none [name] span
  else p.endOther name span

/-- Reads an end tag. -/
def endTag (p : Plan) (name : String) (span : Span) : Plan :=
  if p.currentSpace == .html then p.endHtml name span
  else
    match p.opened.find? (Key.endsForeign name) with
    | some k => if k.space == .html then p.endHtml name span else p.closeThrough (Key.endsForeign name) (some span)
    | none => p.note (.strayForeignEnd name)

end Plan

end LiveMarkup.Html
