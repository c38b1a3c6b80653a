/-
What command lines look like.

A command is called by its name. Its operands are known by their place and its options by their name;
some options belong to every command and may also stand before its name.
-/

set_option autoImplicit false

namespace LiveMarkup.Command

/-- What a value says. -/
inductive ValueKind where
  | text
  /-- Where a file is. -/
  | path
  | number
deriving DecidableEq, Repr

/-- An argument that is known by its place. -/
structure Operand where
  name : String
  kind : ValueKind
deriving DecidableEq, Repr

/-- An operand in a usage line. -/
def Operand.shown (o : Operand) : String := "<" ++ o.name ++ ">"

/-- An argument that is known by its name. -/
structure Switch where
  name : String
  /-- What its value is called; none for an option that is given or not. -/
  valueName : Option String
  /-- What its value says. -/
  kind : ValueKind
deriving DecidableEq, Repr

/-- An option in a usage line. -/
def Switch.shown (s : Switch) : String :=
  "--" ++ s.name ++ match s.valueName with
    | some value => " <" ++ value ++ ">"
    | none => ""

/-- The commands. -/
inductive Verb where
  | canonicalize
  | text
  | attributes
  | rules
  | index
  | preview
deriving DecidableEq, Repr

namespace Verb

/-- All commands. -/
def all : List Verb := [canonicalize, text, attributes, rules, index, preview]

/-- The name of a command. -/
def name : Verb → String
  | canonicalize => "canonicalize"
  | text => "text"
  | attributes => "attrs"
  | rules => "rules"
  | index => "index"
  | preview => "preview"

/-- The command with a name. -/
def ofName? (name : String) : Option Verb := all.find? fun v => v.name == name

/-- The operands of a command. -/
def operands : Verb → List Operand
  | canonicalize | preview => [⟨"FILE", .path⟩]
  | text | attributes => [⟨"FILE", .path⟩, ⟨"TOKEN", .text⟩]
  | rules => [⟨"CSS", .path⟩, ⟨"HTML", .path⟩, ⟨"TOKEN", .text⟩]
  | index => [⟨"CSS", .path⟩]

/-- The options of a command that others do not take. -/
def options : Verb → List Switch
  | rules => [⟨"width", some "WIDTH", .number⟩, ⟨"height", some "HEIGHT", .number⟩]
  | preview => [⟨"css", some "CSS", .path⟩, ⟨"shadow", none, .text⟩]
  | _ => []

end Verb

/-- The options that every command takes. -/
def commonOptions : List Switch :=
  [⟨"attribute", some "NAME", .text⟩, ⟨"prefix", some "PREFIX", .text⟩, ⟨"json", none, .text⟩,
   ⟨"verbose", none, .text⟩]

/-- The option that is given by the letter `v`. -/
def verboseOption : Switch := ⟨"verbose", none, .text⟩

/-- The options that can stand after a command, or before any. -/
def optionsAt (verb : Option Verb) : List Switch := (verb.map Verb.options).getD [] ++ commonOptions

/-- The line that says how a command is called, or the program before any command. It names the options
`used`, or says that there are options. -/
def usageLine (verb : Option Verb) (used : Option (List Switch)) : String :=
  let words := match verb with
    | some v => ["vellum", v.name]
    | none => ["vellum"]
  let options := match used with
    | some used => used.map Switch.shown
    | none => ["[OPTIONS]"]
  let operands := match verb with
    | some v => v.operands.map Operand.shown
    | none => ["<COMMAND>"]
  " ".intercalate (words ++ options ++ operands)

end LiveMarkup.Command
