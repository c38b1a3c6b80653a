/-
Groups of element names.

Which elements a tag closes, and where the search for an element to close stops, depends on the name of
the element only. This file holds the groups that those rules speak of.
-/

set_option autoImplicit false

namespace LiveMarkup.Html

/-- The headings. -/
def headings : List String := ["h1", "h2", "h3", "h4", "h5", "h6"]

/-- The elements that end the search for an open element. -/
def scopeNames : List String :=
  ["applet", "caption", "html", "table", "td", "th", "marquee", "object", "template"]

/-- The elements that end the search for an open paragraph. -/
def buttonScopeNames : List String := scopeNames ++ ["button"]

/-- The elements that end the search for an open list item. -/
def listItemScopeNames : List String := scopeNames ++ ["ol", "ul"]

/-- The elements that end the search for an open part of a table. -/
def tableScopeNames : List String := ["html", "table", "template"]

/-- The elements whose end tag may be left out before another end tag. -/
def impliedEndNames : List String :=
  ["dd", "dt", "li", "optgroup", "option", "p", "rb", "rp", "rt", "rtc"]

/-- The elements that end the search for the start of an element that an end tag names. -/
def specialNames : List String :=
  ["address", "applet", "area", "article", "aside", "base", "basefont", "bgsound", "blockquote",
   "body", "br", "button", "caption", "center", "col", "colgroup", "dd", "details", "dir", "div",
   "dl", "dt", "embed", "fieldset", "figcaption", "figure", "footer", "form", "frame", "frameset",
   "h1", "h2", "h3", "h4", "h5", "h6", "head", "header", "hgroup", "hr", "html", "iframe", "img",
   "input", "keygen", "li", "link", "listing", "main", "marquee", "menu", "meta", "nav", "noembed",
   "noframes", "noscript", "object", "ol", "p", "param", "plaintext", "pre", "script", "search",
   "section", "select", "source", "style", "summary", "table", "tbody", "td", "template",
   "textarea", "tfoot", "th", "thead", "title", "tr", "track", "ul", "wbr", "xmp"]

/-- The start tags that a fragment does not take. -/
def ignoredStartNames : List String := ["html", "head", "body", "frameset", "frame"]

/-- The end tags that a fragment does not take. -/
def ignoredEndNames : List String := ["html", "head", "body"]

/-- The start tags that close an open paragraph and do nothing else. -/
def blockStartNames : List String :=
  ["address", "article", "aside", "blockquote", "center", "details", "dialog", "dir", "div", "dl",
   "fieldset", "figcaption", "figure", "footer", "header", "hgroup", "main", "menu", "nav", "ol", "p",
   "search", "section", "summary", "ul", "pre", "listing", "form", "table", "xmp", "plaintext", "hr"]

/-- The end tags that close their element wherever it is in scope. -/
def blockEndNames : List String :=
  ["address", "article", "aside", "blockquote", "button", "center", "details", "dialog", "dir", "div",
   "dl", "fieldset", "figcaption", "figure", "footer", "form", "header", "hgroup", "listing", "main",
   "menu", "nav", "ol", "pre", "search", "section", "select", "summary", "ul"]

/-- The start tags of the parts of a table. -/
def tablePartNames : List String :=
  ["caption", "colgroup", "col", "tbody", "thead", "tfoot", "tr", "td", "th"]

/-- The end tags of a table and its parts. -/
def tableEndNames : List String :=
  ["table", "tbody", "thead", "tfoot", "tr", "td", "th", "caption", "colgroup"]

/-- The groups of rows. -/
def rowGroupNames : List String := ["tbody", "thead", "tfoot"]

end LiveMarkup.Html
