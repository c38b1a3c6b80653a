/-
Elements of other languages in HTML.

Tag names and attribute names are read in lower case. Inside drawings and formulas some of them are
spelled with capitals, and a tag that can only be meant as HTML ends the foreign element. Some foreign
elements hold HTML again; they are the integration points.
-/
import LiveMarkup.Dom.Node

set_option autoImplicit false

namespace LiveMarkup.Html

/-- The spelling of element names in drawings. -/
def svgNames : List (String × String) :=
  [("altglyph", "altGlyph"), ("altglyphdef", "altGlyphDef"), ("altglyphitem", "altGlyphItem"),
   ("animatecolor", "animateColor"), ("animatemotion", "animateMotion"),
   ("animatetransform", "animateTransform"), ("clippath", "clipPath"), ("feblend", "feBlend"),
   ("fecolormatrix", "feColorMatrix"), ("fecomponenttransfer", "feComponentTransfer"),
   ("fecomposite", "feComposite"), ("feconvolvematrix", "feConvolveMatrix"),
   ("fediffuselighting", "feDiffuseLighting"), ("fedisplacementmap", "feDisplacementMap"),
   ("fedistantlight", "feDistantLight"), ("fedropshadow", "feDropShadow"), ("feflood", "feFlood"),
   ("fefunca", "feFuncA"), ("fefuncb", "feFuncB"), ("fefuncg", "feFuncG"), ("fefuncr", "feFuncR"),
   ("fegaussianblur", "feGaussianBlur"), ("feimage", "feImage"), ("femerge", "feMerge"),
   ("femergenode", "feMergeNode"), ("femorphology", "feMorphology"), ("feoffset", "feOffset"),
   ("fepointlight", "fePointLight"), ("fespecularlighting", "feSpecularLighting"),
   ("fespotlight", "feSpotLight"), ("fetile", "feTile"), ("feturbulence", "feTurbulence"),
   ("foreignobject", "foreignObject"), ("glyphref", "glyphRef"),
   ("lineargradient", "linearGradient"), ("radialgradient", "radialGradient"),
   ("textpath", "textPath")]

/-- The spelling of attribute names in drawings. -/
def svgAttributeNames : List (String × String) :=
  [("attributename", "attributeName"), ("attributetype", "attributeType"),
   ("basefrequency", "baseFrequency"), ("baseprofile", "baseProfile"), ("calcmode", "calcMode"),
   ("clippathunits", "clipPathUnits"), ("diffuseconstant", "diffuseConstant"),
   ("edgemode", "edgeMode"), ("filterunits", "filterUnits"), ("glyphref", "glyphRef"),
   ("gradienttransform", "gradientTransform"), ("gradientunits", "gradientUnits"),
   ("kernelmatrix", "kernelMatrix"), ("kernelunitlength", "kernelUnitLength"),
   ("keypoints", "keyPoints"), ("keysplines", "keySplines"), ("keytimes", "keyTimes"),
   ("lengthadjust", "lengthAdjust"), ("limitingconeangle", "limitingConeAngle"),
   ("markerheight", "markerHeight"), ("markerunits", "markerUnits"), ("markerwidth", "markerWidth"),
   ("maskcontentunits", "maskContentUnits"), ("maskunits", "maskUnits"),
   ("numoctaves", "numOctaves"), ("pathlength", "pathLength"),
   ("patterncontentunits", "patternContentUnits"), ("patterntransform", "patternTransform"),
   ("patternunits", "patternUnits"), ("pointsatx", "pointsAtX"), ("pointsaty", "pointsAtY"),
   ("pointsatz", "pointsAtZ"), ("preservealpha", "preserveAlpha"),
   ("preserveaspectratio", "preserveAspectRatio"), ("primitiveunits", "primitiveUnits"),
   ("refx", "refX"), ("refy", "refY"), ("repeatcount", "repeatCount"), ("repeatdur", "repeatDur"),
   ("requiredextensions", "requiredExtensions"), ("requiredfeatures", "requiredFeatures"),
   ("specularconstant", "specularConstant"), ("specularexponent", "specularExponent"),
   ("spreadmethod", "spreadMethod"), ("startoffset", "startOffset"),
   ("stddeviation", "stdDeviation"), ("stitchtiles", "stitchTiles"),
   ("surfacescale", "surfaceScale"), ("systemlanguage", "systemLanguage"),
   ("tablevalues", "tableValues"), ("targetx", "targetX"), ("targety", "targetY"),
   ("textlength", "textLength"), ("viewbox", "viewBox"), ("viewtarget", "viewTarget"),
   ("xchannelselector", "xChannelSelector"), ("ychannelselector", "yChannelSelector"),
   ("zoomandpan", "zoomAndPan")]

/-- The spelling of attribute names in formulas. -/
def mathmlAttributeNames : List (String × String) := [("definitionurl", "definitionURL")]

/-- The spelling of a name by a table; the name itself when the table does not list it. -/
def spelling (table : List (String × String)) (name : String) : String :=
  (table.lookup name).getD name

/-- The spelling of a tag name in a language. -/
def spellName (space : Namespace) (name : String) : String :=
  match space with
  | .svg => spelling svgNames name
  | .html | .mathml => name

/-- Attributes with their names spelled as a language spells them. -/
def spellAttributes (space : Namespace) (attributes : List Attribute) : List Attribute :=
  match space with
  | .svg => attributes.map fun a => { a with name := spelling svgAttributeNames a.name }
  | .mathml => attributes.map fun a => { a with name := spelling mathmlAttributeNames a.name }
  | .html => attributes

/-- The tags that can only be meant as HTML. -/
def breakoutNames : List String :=
  ["b", "big", "blockquote", "body", "br", "center", "code", "dd", "div", "dl", "dt", "em", "embed",
   "h1", "h2", "h3", "h4", "h5", "h6", "head", "hr", "i", "img", "li", "listing", "menu", "meta",
   "nobr", "ol", "p", "pre", "ruby", "s", "small", "span", "strong", "strike", "sub", "sup",
   "table", "tt", "u", "ul", "var"]

/-- Whether a start tag ends foreign content. A `font` tag does so when an attribute says how its text
looks. -/
def breaksOut (name : String) (attributes : List Attribute) : Bool :=
  breakoutNames.contains name
    || (name == "font" && attributes.any fun a => ["color", "face", "size"].contains a.name)

/-- Whether a foreign element holds HTML. -/
def isIntegrationPoint (space : Namespace) (name : String) : Bool :=
  match space with
  | .svg => ["foreignObject", "desc", "title"].contains name
  | .mathml => ["mi", "mo", "mn", "ms", "mtext"].contains name
  | .html => false

end LiveMarkup.Html
