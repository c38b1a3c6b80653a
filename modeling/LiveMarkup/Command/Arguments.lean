/-
What a command line asks for.

The first argument that is no option names the command, the others are its operands. The options of a
command stand after it, those that every command takes stand before or after it; of one that stands in
both places the later counts. In one place an option is given at most once. Its value follows it or
stands after an equals sign. After two dashes every argument is an operand.
-/
import LiveMarkup.Command.Usage
import LiveMarkup.Decimal.Digits
import LiveMarkup.Identity.Scheme

set_option autoImplicit false

namespace LiveMarkup.Command

/-- What is to be shown. -/
inductive Request where
  /-- The canonical markup of a file and where its elements come from. -/
  | canonicalize (file : String)
  /-- The text of an element that can be edited. -/
  | text (file token : String)
  /-- The start tag of an element that can be edited. -/
  | attributes (file token : String)
  /-- The rules of a style sheet that apply to an element, on a screen of a size. -/
  | rules (css html token : String) (width height : Float)
  /-- The rules of a style sheet. -/
  | index (css : String)
  /-- The page that a preview shows. -/
  | preview (file : String) (css : Option String) (shadowMode : Bool)
deriving Repr

/-- What a command line asks for. -/
structure Invocation where
  request : Request
  /-- The attribute that carries the token of an element. -/
  key : String
  /-- What a new token starts with. -/
  stem : String
  /-- Whether the answer is to be JSON. -/
  json : Bool
deriving Repr

/-- A command line that was read up to some argument. -/
structure Arguments where
  /-- The command, once it was read. -/
  verb : Option Verb
  /-- The options before the command with their values, which are empty where there are none. -/
  leading : List (Switch × String)
  /-- The options that were read since: all of them before the command is read. -/
  options : List (Switch × String)
  operands : List String
  /-- The option whose value is to follow. -/
  pending : Option Switch
  /-- Whether two dashes were read. -/
  escaped : Bool
deriving DecidableEq, Repr

namespace Arguments

/-- Nothing was read. -/
def empty : Arguments := ⟨none, [], [], [], none, false⟩

/-- The options that were read in this place. -/
def used (a : Arguments) : List Switch := a.options.map (·.1)

/-- Nothing has to follow. -/
def settled (a : Arguments) : Except UsageError Unit :=
  match a.pending with
  | some s => .error ⟨.missingValue s.shown, [], none⟩
  | none => .ok ()

/-- The value can be what an option or operand wants: a path is not empty and a number can be read. -/
def checked (kind : ValueKind) (shown value : String) : Except UsageError Unit :=
  match kind with
  | .text => .ok ()
  | .path => if value.isEmpty then .error ⟨.missingValue shown, [], none⟩ else .ok ()
  | .number =>
    if (Decimal.readReal? value).isSome then .ok () else .error ⟨.invalidNumber value shown, [], none⟩

/-- The arguments with one more option. -/
def add (a : Arguments) (s : Switch) (value : String) : Except UsageError Arguments := do
  if a.used.contains s then throw ⟨.repeatedOption s, [], usageLine a.verb none⟩
  checked s.kind s.shown value
  return { a with options := a.options ++ [(s, value)], pending := none }

/-- The name of an option and the value after the equals sign, if there is one. -/
def splitOption (cs : List Char) : String × Option String :=
  match cs.span (· ≠ '=') with
  | (name, _ :: value) => (String.ofList name, some (String.ofList value))
  | (name, []) => (String.ofList name, none)

/-- Reads an option by its name, which stands after two dashes. -/
def readName (a : Arguments) (cs : List Char) : Except UsageError Arguments := do
  let (name, value) := splitOption cs
  let some s := (optionsAt a.verb).find? fun s => s.name == name
    | throw (.unknownOption a.verb a.used (!a.operands.isEmpty) name)
  match s.valueName, value with
  | none, some value =>
    throw ⟨.unexpectedValue value s, [], usageLine a.verb (if a.used.isEmpty then none else some a.used)⟩
  | none, none => a.settled; a.add s ""
  | some _, some value => a.settled; a.add s value
  | some _, none => a.settled; return { a with pending := some s }

/-- Reads options by their letters. -/
def readLetters (a : Arguments) : List Char → Except UsageError Arguments
  | [] => .ok a
  | 'v' :: cs => do
    a.settled
    (← a.add verboseOption "").readLetters cs
  | c :: _ => .error (.unknownLetter a.verb c)

/-- Reads an argument that is no option: the value of one, the command or an operand. -/
def readOperand (a : Arguments) (text : String) : Except UsageError Arguments := do
  match a.pending, a.escaped with
  | some s, false => a.add s text
  | _, _ =>
    a.settled
    match a.verb, Verb.ofName? text with
    | none, some v =>
      if a.escaped then throw (.commandAfterDashes v)
      return { a with verb := some v, leading := a.options, options := [] }
    | none, none => throw (.unknownCommand text)
    | some v, _ =>
      let some o := v.operands[a.operands.length]? | throw ⟨.unexpected text, [], usageLine v none⟩
      checked o.kind o.shown text
      return { a with operands := a.operands ++ [text] }

/-- Reads an argument. A single dash is no option. -/
def readOne (a : Arguments) (text : String) : Except UsageError Arguments :=
  match a.escaped, text.toList with
  | false, ['-', '-'] => .ok { a with escaped := true }
  | false, '-' :: '-' :: cs => a.readName cs
  | false, '-' :: c :: cs => a.readLetters (c :: cs)
  | _, _ => a.readOperand text

/-- The value of an option, if it is given. -/
def value? (a : Arguments) (name : String) : Option String :=
  let named := fun (given : Switch × String) => given.1.name == name
  ((a.options.find? named).or (a.leading.find? named)).map (·.2)

/-- Whether an option is given. -/
def has (a : Arguments) (name : String) : Bool := (a.value? name).isSome

/-- The number that an option gives. -/
def real (a : Arguments) (name : String) (default : Float) : Float :=
  ((a.value? name).bind Decimal.readReal?).getD default

/-- What a command with its operands asks for. -/
def request (a : Arguments) : Except UsageError Request := do
  a.settled
  let some v := a.verb | throw ⟨.noCommand, [], usageLine none none⟩
  match v, a.operands with
  | .canonicalize, [file] => return .canonicalize file
  | .text, [file, token] => return .text file token
  | .attributes, [file, token] => return .attributes file token
  | .rules, [css, html, token] => return .rules css html token (a.real "width" 1280) (a.real "height" 720)
  | .index, [css] => return .index css
  | .preview, [file] => return .preview file (a.value? "css") (a.has "shadow")
  | v, operands => throw ⟨.missingOperands (v.operands.drop operands.length), [], usageLine v (some a.used)⟩

end Arguments

/-- What a list of arguments asks for. -/
def Invocation.ofArguments (args : List String) : Except UsageError Invocation := do
  let a ← args.foldlM Arguments.readOne Arguments.empty
  return ⟨← a.request, (a.value? "attribute").getD Identity.Scheme.default.key,
    (a.value? "prefix").getD Identity.Scheme.default.stem, a.has "json"⟩

end LiveMarkup.Command
