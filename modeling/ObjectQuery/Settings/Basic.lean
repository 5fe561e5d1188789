/-!
# Settings

How deep subqueries may nest, how a compiled query is printed, and what
is logged. Settings from any source are checked before they are used, and
again after the command line has had its say.
-/

namespace ObjectQuery

/-- How a compiled query is printed. -/
inductive OutputFormat where
  /-- As query text. -/
  | hql
  /-- As the model and the tree of the query in JSON. -/
  | json
  deriving DecidableEq, Inhabited

/-- The name of a format. -/
def OutputFormat.text : OutputFormat → String
  | .hql => "hql"
  | .json => "json"

/-- The format of exactly that name. -/
def OutputFormat.ofText? (s : String) : Option OutputFormat :=
  [OutputFormat.hql, OutputFormat.json].find? (·.text = s)

/-- The settings of a compilation. -/
structure Settings where
  /-- How deep subqueries may nest. -/
  maxSubqueryDepth : Nat
  outputFormat : OutputFormat
  /-- What is logged. -/
  logFilter : String
  deriving DecidableEq

/-- A setting for which a rule was broken, and the rule. -/
structure Violation where
  field : String
  message : String
  deriving DecidableEq

/-- Why there are no settings. -/
inductive SettingsError where
  /-- A text does not say what it should. -/
  | parse (field value reason : String)
  /-- The file of settings cannot be read. -/
  | unreadableFile
  /-- The content of the file of settings is not what it should be. -/
  | unreadableContent (content : String)
  /-- Rules were broken, in the order of the names of the settings. -/
  | invalid (violations : List Violation)
  deriving DecidableEq

/-- The text of an error about a setting that cannot be read. -/
def parseMessage (field value reason : String) : String :=
  "Parse error for " ++ field ++ ": " ++ value ++ " - " ++ reason

namespace Settings

/-- The settings where nothing is said. -/
def default : Settings := ⟨64, .hql, "info"⟩

/-- The rules that settings break. -/
def violations (settings : Settings) : List Violation :=
  (if settings.logFilter.isEmpty then [⟨"log_filter", "Log filter cannot be empty"⟩] else []) ++
  (if 1 ≤ settings.maxSubqueryDepth ∧ settings.maxSubqueryDepth ≤ 1024 then []
    else [⟨"max_subquery_depth", "Max subquery depth must be between 1 and 1024"⟩])

/-- The settings, if they break no rule. -/
def validated (settings : Settings) : Except SettingsError Settings :=
  match settings.violations with
  | [] => .ok settings
  | violations => .error (.invalid violations)

/-- The settings with some of them replaced. -/
def overriddenBy (settings : Settings) (depth : Option Nat) (format : Option OutputFormat) :
    Except SettingsError Settings :=
  validated { settings with
    maxSubqueryDepth := depth.getD settings.maxSubqueryDepth
    outputFormat := format.getD settings.outputFormat }

end Settings

end ObjectQuery
