import ObjectQuery.Settings.Environment

/-!
# Command line arguments

Arguments are read from left to right, and the first one that cannot be
understood ends the reading. A request for help or for the version is
answered as soon as it is met, so only what stands before it can be wrong.

Every option has a value, either the next argument or, after an equals
sign, the rest of the same one. An argument that starts with a hyphen is no
value, except for the hyphen alone. An option stands at most once, and only
the model must be given.
-/

namespace ObjectQuery.CommandLine

/-- An option. -/
inductive CliOption where
  | model
  | data
  | config
  | format
  | depth
  deriving DecidableEq

/-- The name of an option after its two hyphens. -/
def CliOption.name : CliOption → String
  | .model => "model"
  | .data => "data"
  | .config => "config"
  | .format => "format"
  | .depth => "max-subquery-depth"

/-- The option of a name. -/
def CliOption.ofName? (name : String) : Option CliOption :=
  [CliOption.model, .data, .config, .format, .depth].find? (·.name = name)

/-- The arguments found so far. -/
structure Arguments where
  model : Option String
  data : Option String
  config : Option String
  format : Option OutputFormat
  depth : Option Nat

/-- No arguments. -/
def Arguments.empty : Arguments := ⟨none, none, none, none, none⟩

/-- What is asked for. -/
inductive Request where
  /-- Help, at length or in short. -/
  | help (long : Bool)
  | version
  /-- The model in a file is to be compiled. -/
  | compile (model : String) (arguments : Arguments)

/-- Fills a place that is empty. -/
def fillOnce {α : Type} (place : Option α) (value : Option α) : Option (Option α) :=
  match place with
  | some _ => none
  | none => value.map some

/-- A path that is not empty. -/
def path? (value : String) : Option String :=
  if value.isEmpty then none else some value

/-- A number of thirty-two bits. Zero may carry either sign. -/
def depth? (value : String) : Option Nat :=
  match value.toList with
  | '-' :: c :: digits => if (c :: digits).all (· == '0') then some 0 else none
  | _ => (readWord value).toOption

/-- The arguments with the value of an option. -/
def Arguments.set (arguments : Arguments) (option : CliOption) (value : String) :
    Option Arguments :=
  match option with
  | .model => do return { arguments with model := ← fillOnce arguments.model (path? value) }
  | .data => do return { arguments with data := ← fillOnce arguments.data (path? value) }
  | .config => do return { arguments with config := ← fillOnce arguments.config (path? value) }
  | .format => do
    return { arguments with format := ← fillOnce arguments.format (OutputFormat.ofText? value) }
  | .depth => do return { arguments with depth := ← fillOnce arguments.depth (depth? value) }

/-- The request when all arguments are read. -/
def Arguments.request? (arguments : Arguments) : Option Request := do
  return .compile (← arguments.model) arguments

/-- One argument by itself. -/
inductive Word where
  /-- The end of the options, after which nothing may follow. -/
  | separator
  | help (long : Bool)
  | version
  /-- An option, with its value if it is written after an equals sign. -/
  | option (option : CliOption) (value : Option String)
  | unknown

/-- The word after two hyphens. -/
def longWord (cs : List Char) : Word :=
  let name := String.ofList (cs.takeWhile (· != '='))
  let value := (cs.dropWhile (· != '=')).tail?.map String.ofList
  match CliOption.ofName? name with
  | some option => .option option value
  | none =>
    if cs = "help".toList then .help true
    else if cs = "version".toList then .version
    else .unknown

/-- What an argument is. -/
def Word.ofArgument (argument : String) : Word :=
  match argument.toList with
  | ['-', '-'] => .separator
  | '-' :: '-' :: cs => longWord cs
  | '-' :: 'h' :: _ => .help false
  | '-' :: 'V' :: _ => .version
  | _ => .unknown

/-- Whether an argument can be the value of the option before it. -/
def isValue (argument : String) : Bool :=
  argument = "-" || argument.toList.head? != some '-'

/-- Reads arguments after those found. -/
def Arguments.read (found : Arguments) : List String → Option Request
  | [] => found.request?
  | argument :: rest =>
    match Word.ofArgument argument with
    | .separator => if rest.isEmpty then found.request? else none
    | .help long => some (.help long)
    | .version => some .version
    | .option option (some value) => do (← found.set option value).read rest
    | .option option none =>
      match rest with
      | value :: rest => if isValue value then do (← found.set option value).read rest else none
      | [] => none
    | .unknown => none

/-- The request that arguments make, or none if they are not understood. -/
def request? (arguments : List String) : Option Request :=
  Arguments.empty.read arguments

end ObjectQuery.CommandLine
