/-!
# Help

The texts that the command line prints about itself, at length with the
values of each option and in short on request.
-/

namespace ObjectQuery.CommandLine

/-- The text that tells the version. -/
def versionText : String := "queryweave 0.3.0-dev\n"

/-- An option in the help: how it is written and what is said about it. -/
structure HelpEntry where
  usage : String
  /-- One line. -/
  summary : String
  /-- Lines that only the long help has. -/
  details : List String
  /-- What only the short help says, on the line of the summary. -/
  note : String

/-- The options in the help. -/
def helpEntries (long : Bool) : List HelpEntry := [
  ⟨"      --model <MODEL>", "JSON file holding the query model", [], ""⟩,
  ⟨"      --data <DATA>", "JSON data set to evaluate the translated query against", [], ""⟩,
  ⟨"      --config <CONFIG>",
    "YAML configuration file (defaults to QUERYWEAVE_* environment variables)", [], ""⟩,
  ⟨"      --format <FORMAT>", "Output format",
    ["Possible values:", "- hql:  HQL query text",
      "- json: The rewritten query model and HQL tree as JSON"],
    " [possible values: hql, json]"⟩,
  ⟨"      --max-subquery-depth <MAX_SUBQUERY_DEPTH>", "Maximum subquery nesting depth", [], ""⟩,
  ⟨"  -h, --help",
    if long then "Print help (see a summary with '-h')" else "Print help (see more with '--help')",
    [], ""⟩,
  ⟨"  -V, --version", "Print version", [], ""⟩]

/-- What stands before each line about an option. -/
def helpIndent : String := "          "

/-- The lines about an option. -/
def HelpEntry.lines (long : Bool) (entry : HelpEntry) : List String :=
  if long then
    [entry.usage, helpIndent ++ entry.summary] ++
      (if entry.details.isEmpty then [] else "" :: entry.details.map (helpIndent ++ ·)) ++ [""]
  else [entry.usage, helpIndent ++ entry.summary ++ entry.note]

/-- How the program is called. -/
def usageLine : String := "Usage: queryweave [OPTIONS] --model <MODEL>"

/-- The help. -/
def helpText (long : Bool) : String :=
  let lines :=
    ["Query-model rewriting and HQL lowering for typed object queries", "", usageLine, "",
      "Options:"] ++ (helpEntries long).flatMap (HelpEntry.lines long)
  let lines := if long then lines.dropLast else lines
  String.join (lines.map (· ++ "\n"))

end ObjectQuery.CommandLine
