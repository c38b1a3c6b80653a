/-
Command lines that cannot be understood.

An error says what is wrong, may have tips and says how the program or the command is called.
-/
import LiveMarkup.Command.Grammar
import LiveMarkup.Text.Similarity

set_option autoImplicit false

namespace LiveMarkup.Command

/-- What is wrong with a command line. -/
inductive Misuse where
  /-- There is no such command. -/
  | unknownCommand (text : String)
  | noCommand
  /-- An argument that is not taken. -/
  | unexpected (text : String)
  /-- A value for an option that takes none. -/
  | unexpectedValue (value : String) (s : Switch)
  /-- An option or operand without its value, as it is shown. -/
  | missingValue (shown : String)
  /-- A value that is no number for an option or operand, as it is shown. -/
  | invalidNumber (value shown : String)
  | repeatedOption (s : Switch)
  | missingOperands (os : List Operand)
deriving DecidableEq, Repr

/-- The text of what is wrong. -/
def Misuse.message : Misuse → String
  | unknownCommand text => "unrecognized subcommand '" ++ text ++ "'"
  | noCommand =>
    "'vellum' requires a subcommand but one was not provided\n  [subcommands: " ++
      ", ".intercalate (Verb.all.map Verb.name ++ ["help"]) ++ "]"
  | unexpected text => "unexpected argument '" ++ text ++ "' found"
  | unexpectedValue value s =>
    "unexpected value '" ++ value ++ "' for '" ++ s.shown ++ "' found; no more were expected"
  | missingValue shown => "a value is required for '" ++ shown ++ "' but none was supplied"
  | invalidNumber value shown =>
    "invalid value '" ++ value ++ "' for '" ++ shown ++ "': " ++
      if value.isEmpty then "cannot parse float from empty string" else "invalid float literal"
  | repeatedOption s => "the argument '" ++ s.shown ++ "' cannot be used multiple times"
  | missingOperands os =>
    "the following required arguments were not provided:" ++
      String.join (os.map fun o => "\n  " ++ o.shown)

/-- Why a command line cannot be understood. -/
structure UsageError where
  misuse : Misuse
  tips : List String
  /-- How the program or the command is called. -/
  usage : Option String
deriving DecidableEq, Repr

/-- The text of the error. -/
def UsageError.message (e : UsageError) : String :=
  "error: " ++ e.misuse.message ++ (if e.tips.isEmpty then "" else "\n") ++
    String.join (e.tips.map fun tip => "\n  tip: " ++ tip) ++
    (match e.usage with
    | some usage => "\n\nUsage: " ++ usage
    | none => "") ++
    "\n\nFor more information, try '--help'.\n"

/-- The tip that some things of a kind are like what was written. -/
def similarTip (kind : String) : List String → List String
  | [] => []
  | [name] => ["a similar " ++ kind ++ " exists: '" ++ name ++ "'"]
  | names => ["some similar " ++ kind ++ "s exist: '" ++ "', '".intercalate names ++ "'"]

namespace UsageError

/-- There is no such command. -/
def unknownCommand (text : String) : UsageError :=
  ⟨.unknownCommand text, similarTip "subcommand" (Text.similarTo text (Verb.all.map Verb.name ++ ["help"])),
    usageLine none none⟩

/-- A command stands after the two dashes that end the options. -/
def commandAfterDashes (v : Verb) : UsageError :=
  ⟨.unexpected v.name, ["subcommand '" ++ v.name ++ "' exists; to use it, remove the '--' before it"],
    usageLine none none⟩

/-- No command takes an operand that looks like an option, unless two dashes stand before it. -/
def dashesTip (verb : Option Verb) (text : String) : List String :=
  if verb.isSome then ["to pass '" ++ text ++ "' as a value, use '-- " ++ text ++ "'"] else []

/-- There is no option with a name. The usage names the options and operands that were given before. -/
def unknownOption (verb : Option Verb) (used : List Switch) (hasOperands : Bool) (name : String) :
    UsageError :=
  let shown := "--" ++ name
  let names := (optionsAt verb).map (·.name) ++ ["help"]
  match Text.similarTo name names with
  | like :: _ =>
    let added := (optionsAt verb).filter fun s => s.name == like && !used.contains s
    ⟨.unexpected shown, similarTip "argument" ["--" ++ like], usageLine verb (some (used ++ added))⟩
  | [] =>
    ⟨.unexpected shown, dashesTip verb shown,
      usageLine verb (if used.isEmpty && !hasOperands then none else some used)⟩

/-- There is no option with a letter. -/
def unknownLetter (verb : Option Verb) (c : Char) : UsageError :=
  let shown := String.ofList ['-', c]
  ⟨.unexpected shown, dashesTip verb shown, usageLine verb none⟩

end UsageError

end LiveMarkup.Command
