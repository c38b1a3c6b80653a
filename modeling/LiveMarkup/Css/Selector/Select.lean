/-
Which elements a selector selects.

A complex selector selects an element when the element satisfies the subject and, for the combinator to
the left of it, some element that the combinator reaches is selected by what is on the left. Every
element that a combinator reaches is tried. The recursion follows the selector, so it needs no bound.
-/
import LiveMarkup.Css.Selector
import LiveMarkup.Dom.Walk

set_option autoImplicit false

namespace LiveMarkup.Css

open Text

/-! ## Attributes -/

/-- Whether the value of an attribute passes a comparison with a text. An empty text is never a word,
a beginning, an end or a part of a value. -/
def Comparison.holds (c : Comparison) (value expected : List Char) : Bool :=
  match c with
  | equals => value == expected
  | includes =>
    !expected.isEmpty && !expected.any isBlank && (wordsWhere isAsciiSpace value).contains expected
  | dashMatch =>
    value == expected ||
      match dropWord? expected value with
      | some ('-' :: _) => true
      | _ => false
  | startsWith => !expected.isEmpty && (dropWord? expected value).isSome
  | endsWith => !expected.isEmpty && (dropWord? expected.reverse value.reverse).isSome
  | contains => !expected.isEmpty && occursIn expected value

/-- Whether an attribute selector selects an element. -/
def AttributeSelector.selects (a : AttributeSelector) (e : Element) : Bool :=
  match e.attribute? a.name with
  | none => false
  | some value =>
    match a.test with
    | none => true
    | some (comparison, expected) =>
      if a.ignoresCase then comparison.holds value.toLower.toList expected.toLower.toList
      else comparison.holds value.toList expected.toList

/-! ## Places among the siblings -/

/-- The element siblings before a node, or after it, the nearest first. -/
def elementSiblings (t : Tree) (following : Bool) (id : NodeId) : List NodeId :=
  (if following then t.followingSiblings id else t.precedingSiblings id).filter t.isElement

/-- Whether a node is an element of the same name and language. -/
def isOfType (t : Tree) (e : Element) (id : NodeId) : Bool :=
  (t.element? id).any fun other => other.space == e.space && eqIgnoreCase other.name e.name

/-- The element siblings before a node, or after it, that have the type of an element. -/
def typeSiblings (t : Tree) (e : Element) (following : Bool) (id : NodeId) : List NodeId :=
  (elementSiblings t following id).filter (isOfType t e)

/-- The element ancestors of a node, the nearest first, up to the first ancestor that is no element. -/
def elementAncestors (t : Tree) (id : NodeId) : List NodeId := (t.ancestors id).takeWhile t.isElement

/-! ## Pseudo-classes without arguments -/

/-- Whether an element belongs to HTML and has one of the names. -/
def isHtmlNamed (e : Element) (names : List String) : Bool :=
  e.space == .html && names.any (eqIgnoreCase e.name)

/-- The elements that can be disabled. -/
def controlNames : List String :=
  ["button", "input", "select", "textarea", "optgroup", "option", "fieldset"]

/-- The elements that can be required. -/
def inputNames : List String := ["input", "select", "textarea"]

/-- Whether a node counts as content of its parent: comments and empty texts do not. -/
def isContent : Kind → Bool
  | .comment _ => false
  | .text text => !text.isEmpty
  | _ => true

/-- Whether an element is in the state that a pseudo-class names. -/
def PseudoClass.holds (p : PseudoClass) (t : Tree) (id : NodeId) (e : Element) : Bool :=
  let has (name : String) : Bool := (e.attribute? name).isSome
  match p with
  | root => (t.parent? id).any fun parent => (t.get? parent).any (·.kind == .document)
  | firstChild => (elementSiblings t false id).isEmpty
  | lastChild => (elementSiblings t true id).isEmpty
  | onlyChild => (elementSiblings t false id).isEmpty && (elementSiblings t true id).isEmpty
  | firstOfType => (typeSiblings t e false id).isEmpty
  | lastOfType => (typeSiblings t e true id).isEmpty
  | onlyOfType => (typeSiblings t e false id).isEmpty && (typeSiblings t e true id).isEmpty
  | empty => (t.children id).all fun child => !(t.get? child).any (isContent ·.kind)
  | anyLink => isHtmlNamed e ["a", "area"] && has "href"
  | checked =>
    let box := isHtmlNamed e ["input"] &&
      (e.attribute? "type").any fun kind => eqIgnoreCase kind "checkbox" || eqIgnoreCase kind "radio"
    (box && has "checked") || (isHtmlNamed e ["option"] && has "selected")
  | disabled => isHtmlNamed e controlNames && has "disabled"
  | enabled => isHtmlNamed e controlNames && !has "disabled"
  | required => isHtmlNamed e inputNames && has "required"
  | optional => isHtmlNamed e inputNames && !has "required"

/-! ## Selectors -/

mutual

/-- Whether an element satisfies a simple selector. -/
def Simple.holds (t : Tree) (id : NodeId) (e : Element) : Simple → Bool
  | .type name => eqIgnoreCase e.name name
  | .universal => true
  | .class name => e.classes.contains name
  | .id name => e.id? == some name
  | .attribute a => a.selects e
  | .pseudo p => p.holds t id e
  | .never _ => false
  | .nthChild fromEnd n => n.covers ((elementSiblings t fromEnd id).length + 1)
  | .nthChildOf fromEnd n list =>
    selectsAny t list id &&
      n.covers (((elementSiblings t fromEnd id).filter (selectsAny t list)).length + 1)
  | .nthOfType fromEnd n => n.covers ((typeSiblings t e fromEnd id).length + 1)
  | .not list => !selectsAny t list id
  | .is list | .whereIs list => selectsAny t list id

/-- Whether an element satisfies all of the simple selectors. -/
def holdAll (t : Tree) (id : NodeId) (e : Element) : List Simple → Bool
  | [] => true
  | s :: rest => s.holds t id e && holdAll t id e rest

/-- Whether a node is an element that the complex selector selects. -/
def Complex.selects (t : Tree) : Complex → NodeId → Bool
  | .compound subject, id => (t.element? id).any fun e => holdAll t id e subject
  | .joined left combinator subject, id =>
    ((t.element? id).any fun e => holdAll t id e subject) &&
      match combinator with
      | .descendant => (elementAncestors t id).any (left.selects t)
      | .child => (t.parent? id).any fun parent => t.isElement parent && left.selects t parent
      | .nextSibling => (elementSiblings t false id).head?.any (left.selects t)
      | .subsequentSibling => (elementSiblings t false id).any (left.selects t)

/-- Whether a node is an element that a selector of the list selects. -/
def selectsAny (t : Tree) : List Complex → NodeId → Bool
  | [], _ => false
  | c :: rest, id => c.selects t id || selectsAny t rest id

end

end LiveMarkup.Css
