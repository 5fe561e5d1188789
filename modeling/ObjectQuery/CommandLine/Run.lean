import ObjectQuery.CommandLine.Arguments
import ObjectQuery.CommandLine.Help
import ObjectQuery.Engine.Run
import ObjectQuery.Hql.Encoding
import ObjectQuery.Json.Writer
import ObjectQuery.Method.Defaults
import ObjectQuery.Settings.File
import ObjectQuery.Compilation.Basic

/-!
# A run of the command line

A run reads the settings and the model, compiles the model, prints the
result and, where a data set is named, runs the query over it. It stops at
the first thing that fails; what was printed before remains.

How a file is read is left open, so that a run can be looked at without one.
-/

namespace ObjectQuery.CommandLine

/-- A failure: what failed, and why, the most general cause first. -/
structure Failure where
  message : String
  causes : List String

/-- The report of a failure. -/
def Failure.report (failure : Failure) : String :=
  "Error: " ++ failure.message ++
    match failure.causes with
    | [] => ""
    | [cause] => "\n\nCaused by:\n    " ++ cause
    | causes =>
      "\n\nCaused by:" ++ String.join (causes.zipIdx.map fun (cause, i) =>
        "\n    " ++ toString i ++ ": " ++ cause)

/-- How a run ends. -/
structure Exit where
  code : UInt32
  /-- What was printed. -/
  output : String
  /-- What failed, if anything did. -/
  failure : Option Failure

/-- The end of a run that succeeded. -/
def Exit.success (output : String) : Exit := ⟨0, output, none⟩

/-- The end of a run that failed after it had printed something. -/
def Exit.failed (output message : String) (causes : List String) : Exit :=
  ⟨1, output, some ⟨message, causes⟩⟩

/-- The end of a run whose arguments were not understood. -/
def Exit.misuse : Exit := ⟨2, "", none⟩

/-- The causes of a failure for want of settings. -/
def settingsCauses : SettingsError → List String
  | .parse field value reason => [parseMessage field value reason, reason]
  | .unreadableFile => []
  | .unreadableContent _ => []
  | .invalid violations =>
    ["Validation error: " ++
      "\n".intercalate (violations.map fun v => v.field ++ ": " ++ v.message)]

/-- The causes of a failed compilation. -/
def compileCauses : CompileError → List String
  | .expansion (.malformed error) =>
    [CompileError.message (.expansion (.malformed error)),
      (ExpansionError.malformed error).message, error.message]
  | .expansion error => [CompileError.message (.expansion error), error.message]
  | .lowering error => [CompileError.message (.lowering error), error.message]

/-- A compiled model as it is printed. -/
def printedText (compiled : Compiled) : OutputFormat → String
  | .hql => compiled.query.render
  | .json =>
    (Json.object [("model", compiled.model.toJson), ("hql", compiled.query.toJson)]).indented

/-- Runs a query over a data set, after the compiled model has been printed. -/
def runQuery (printed : String) (query : Hql.Query) (path : String) (content : Option String) :
    Exit :=
  match content.bind DataSet.ofText? with
  | none => .failed printed ("Failed to load data set " ++ path) []
  | some data =>
    match query.execute ⟨data, []⟩ with
    | .error error => .failed printed error.message []
    | .ok v => .success (printed ++ v.text ++ "\n")

section

variable {m : Type → Type} [Monad m]

/-- Compiles a model with settings. -/
def runModel (contentOf : String → m (Option String)) (settings : Settings) (path : String)
    (data : Option String) : m Exit := do
  let some content ← contentOf path
    | return .failed "" ("Failed to read model file " ++ path) []
  let some model := (Json.readTolerant? content).bind QueryModel.ofJson?
    | return .failed "" ("Invalid query model in " ++ path) []
  match (model.compile .withDefaults settings.maxSubqueryDepth).outcome with
  | .error error =>
    return .failed "" ("Failed to translate " ++ model.text) (compileCauses error)
  | .ok compiled =>
    let printed := printedText compiled settings.outputFormat ++ "\n"
    match data with
    | none => return .success printed
    | some path => return runQuery printed compiled.query path (← contentOf path)

/-- The settings of a run. -/
def readSettings (contentOf : String → m (Option String)) (valueOf : String → Option String)
    (arguments : Arguments) : m (Except SettingsError Settings) := do
  let settings ←
    match arguments.config with
    | some path => do pure (Settings.ofFile (← contentOf path))
    | none => pure (Settings.ofVariables valueOf)
  return settings >>= (·.overriddenBy arguments.depth arguments.format)

/-- A run with the given arguments. -/
def run (contentOf : String → m (Option String)) (valueOf : String → Option String)
    (arguments : List String) : m Exit := do
  match request? arguments with
  | none => return .misuse
  | some (.help long) => return .success (helpText long)
  | some .version => return .success versionText
  | some (.compile path arguments) =>
    match ← readSettings contentOf valueOf arguments with
    | .error error => return .failed "" "Configuration error" (settingsCauses error)
    | .ok settings => runModel contentOf settings path arguments.data

end

end ObjectQuery.CommandLine
