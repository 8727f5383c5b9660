import ListPress.Build
import ListPress.Node.Json

/-! # The command line

Arguments are parsed into a command, and a command is run against the contents of files and the
standard input. Running is pure: what a build has to write comes back as a plan. -/

namespace ListPress

inductive Command where
  | markup (file : String) (json : Bool)
  | style (file : String) (json : Bool) (vars : List (String × String))
  | build (manifest : String) (out : Option String)
deriving DecidableEq

/-- Why arguments are rejected. -/
inductive ArgumentError where
  /-- Not an error: help was asked for. -/
  | help
  | noCommand
  | unexpected (argument : String)
  | repeated (option : String)
  | valueMissing (option : String)
  | valueGiven (option : String)
  | emptyValue (option : String)
  | fileMissing
  | badVariable (text : String)
deriving DecidableEq

def ArgumentError.message : ArgumentError → String
  | .help => "usage: markup FILE [--json] | style FILE [--json] [--var NAME=VALUE]... | " ++
      "build [--manifest FILE] [--out DIR]"
  | .noCommand => "a command is required: markup, style or build"
  | .unexpected argument => s!"unexpected argument '{argument}'"
  | .repeated option => s!"the argument '--{option}' cannot be used multiple times"
  | .valueMissing option => s!"a value is required for '--{option}'"
  | .valueGiven option => s!"the argument '--{option}' takes no value"
  | .emptyValue option => s!"the value of '--{option}' must not be empty"
  | .fileMissing => "the argument FILE is required"
  | .badVariable text => s!"expected NAME=VALUE, got '{text}'"

/-! ## Arguments -/

/-- An option of a command. -/
structure OptionSpec where
  long : String
  short : Option Char := none
  takesValue : Bool := true
  repeatable : Bool := false
  check : String → Except ArgumentError Unit := fun _ => .ok ()

/-- What a command takes. -/
structure Usage where
  options : List OptionSpec
  /-- The most arguments that are not options. -/
  maxOperands : Nat

/-- Arguments sorted into options and other ones, the last one first. -/
structure Arguments where
  options : List (String × String)
  operands : List String

namespace Arguments

def empty : Arguments := ⟨[], []⟩

def values (arguments : Arguments) (option : String) : List String :=
  (arguments.options.filter (·.1 == option)).reverse.map (·.2)

def value? (arguments : Arguments) (option : String) : Option String :=
  (arguments.values option).head?

def add (arguments : Arguments) (spec : OptionSpec) (value : String) :
    Except ArgumentError Arguments := do
  if !spec.repeatable && (arguments.value? spec.long).isSome then .error (.repeated spec.long)
  spec.check value
  pure { arguments with options := (spec.long, value) :: arguments.options }

def addOperand (usage : Usage) (arguments : Arguments) (operand : String) :
    Except ArgumentError Arguments :=
  if arguments.operands.length < usage.maxOperands then
    .ok { arguments with operands := operand :: arguments.operands }
  else .error (.unexpected operand)

/-- What an argument is, before the `--` that ends the options. -/
inductive Shape where
  | ending
  | operand
  /-- An option, and the value that is part of the argument. -/
  | option (spec : OptionSpec) (value : Option String)
  | rejected (error : ArgumentError)

def longShape (specs : List OptionSpec) (argument : String) (body : List Char) : Shape :=
  let name := String.ofList (body.takeWhile (· != '='))
  let value := (body.dropWhile (· != '=')).tail?.map String.ofList
  match specs.find? (·.long == name) with
  | some spec => .option spec value
  | none => .rejected (if argument = "--help" then .help else .unexpected argument)

/-- A short option has its value, if any, right after it or after an equals sign. -/
def shortShape (specs : List OptionSpec) (argument : String) (letter : Char) (body : List Char) :
    Shape :=
  match specs.find? (·.short == some letter) with
  | some spec =>
    match body with
    | [] => .option spec none
    | '=' :: value => .option spec (some (String.ofList value))
    | value => .option spec (some (String.ofList value))
  | none => .rejected (if letter = 'h' then .help else .unexpected argument)

def shape (specs : List OptionSpec) (argument : String) : Shape :=
  match argument.toList with
  | ['-', '-'] => .ending
  | '-' :: '-' :: body => longShape specs argument body
  | '-' :: letter :: body => shortShape specs argument letter body
  | _ => .operand

/-- A separate value may not look like an option. -/
def isValue (argument : String) : Bool := argument = "-" || argument.toList.head? != some '-'

/-- Sort the arguments of a command. The first one that does not fit decides. -/
def collect (usage : Usage) : List String → Arguments → Except ArgumentError Arguments
  | [], arguments => .ok arguments
  | argument :: rest, arguments =>
    match shape usage.options argument with
    | .ending => rest.foldlM (addOperand usage) arguments
    | .operand => do collect usage rest (← addOperand usage arguments argument)
    | .rejected error => .error error
    | .option spec value =>
      match spec.takesValue, value with
      | false, none => do collect usage rest (← arguments.add spec "")
      | false, some _ => .error (.valueGiven spec.long)
      | true, some value => do collect usage rest (← arguments.add spec value)
      | true, none =>
        match rest with
        | [] => .error (.valueMissing spec.long)
        | value :: rest =>
          if isValue value then do collect usage rest (← arguments.add spec value)
          else .error (.valueMissing spec.long)

/-- The first operand, a file. -/
def file (arguments : Arguments) : Except ArgumentError String :=
  match arguments.operands.getLast? with
  | some file => .ok file
  | none => .error .fileMissing

end Arguments

namespace Command

/-- A variable and its value, divided by the first equals sign. -/
def binding (text : String) : Except ArgumentError (String × String) :=
  let chars := text.toList
  match chars.takeWhile (· != '='), chars.dropWhile (· != '=') with
  | name@(_ :: _), '=' :: value => .ok (String.ofList name, String.ofList value)
  | _, _ => .error (.badVariable text)

def jsonOption : OptionSpec := { long := "json", takesValue := false }

def varOption : OptionSpec where
  long := "var"
  repeatable := true
  check text := do discard (binding text)

/-- An option whose value is a path. -/
def pathOption (long : String) (short : Char) : OptionSpec where
  long := long
  short := some short
  check path := if path.isEmpty then .error (.emptyValue long) else .ok ()

def markupUsage : Usage := ⟨[jsonOption], 1⟩

def styleUsage : Usage := ⟨[jsonOption, varOption], 1⟩

def buildUsage : Usage := ⟨[pathOption "manifest" 'm', pathOption "out" 'o'], 0⟩

def defaultManifest : String := "quill.toml"

def parse : List String → Except ArgumentError Command
  | "markup" :: args => do
    let arguments ← Arguments.collect markupUsage args .empty
    pure (.markup (← arguments.file) (arguments.value? "json").isSome)
  | "style" :: args => do
    let arguments ← Arguments.collect styleUsage args .empty
    let vars ← (arguments.values "var").mapM binding
    pure (.style (← arguments.file) (arguments.value? "json").isSome vars)
  | "build" :: args => do
    let arguments ← Arguments.collect buildUsage args .empty
    let manifest := (arguments.value? "manifest").getD defaultManifest
    pure (.build manifest (arguments.value? "out"))
  | ["help"] | ["help", "markup"] | ["help", "style"] | ["help", "build"] | ["help", "help"] =>
    .error .help
  | argument :: _ => .error (if argument = "--help" || argument.toList.take 2 = ['-', 'h'] then .help
      else .unexpected argument)
  | [] => .error .noCommand

/-! ## Running -/

/-- Why a command fails. -/
inductive Failure where
  | input (error : FileError)
  | json (error : JsonTextError)
  | source (error : ReadError)
  | malformed (error : StructureError)
  | manifest (error : ManifestError)

def Failure.message : Failure → String
  | .input error => error.message
  | .json error => error.message
  | .source error => error.message
  | .malformed error => error.message
  | .manifest error => error.message

/-- What a command can read. -/
structure Inputs where
  stdin : Except FileError String
  read : Reading

/-- What a command has to do. -/
inductive Effect where
  | print (text : String)
  | write (plan : Plan)

section
variable (inputs : Inputs)

/-- The contents of a file; `-` is the standard input. -/
def input (file : String) : Except Failure String :=
  (if file = "-" then inputs.stdin else inputs.read file).mapError .input

/-- The node in a file, with the heap of its cells. -/
def node (file : String) (json : Bool) : Except Failure (Heap × Node) := do
  let text ← input inputs file
  if json then
    let node ← (Node.ofJsonText text).mapError .json
    pure (.empty, node)
  else
    let datum ← (Datum.readDocument text).mapError .source
    pure (Heap.empty.store datum)

def run : Command → Except Failure Effect
  | .markup file json => do
    let (h, tree) ← node inputs file json
    let text ← (h.markup tree).mapError .malformed
    pure (.print (text ++ "\n"))
  | .style file json vars => do
    let (h, rules) ← node inputs file json
    let text ← (h.style (Table.ofList vars).get? rules).mapError .malformed
    pure (.print text)
  | .build manifest out => do
    let plan ← (Manifest.plan inputs.read manifest out).mapError .manifest
    pure (.write plan)

end
end Command

/-! ## Running on a volume -/

/-- What a run of the program leaves. -/
structure Outcome where
  code : Nat
  stdout : String
  volume : Volume

/-- Run the program on a volume. It exits with 2 if the arguments are rejected and with 1 if the
command fails. -/
def Volume.run (volume : Volume) (stdin : ByteArray) (args : List String) : Outcome :=
  match Command.parse args with
  | .error .help => ⟨0, ArgumentError.help.message ++ "\n", volume⟩
  | .error _ => ⟨2, "", volume⟩
  | .ok command =>
    match command.run ⟨decodeText stdin, volume.readText⟩ with
    | .error _ => ⟨1, "", volume⟩
    | .ok (.print text) => ⟨0, text, volume⟩
    | .ok (.write plan) =>
      match volume.carryOut plan with
      | (volume, .ok ()) => ⟨0, "", volume⟩
      | (volume, .error _) => ⟨1, "", volume⟩

end ListPress
