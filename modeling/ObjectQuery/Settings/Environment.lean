import ObjectQuery.Settings.Basic
import ObjectQuery.Text.LetterCase

/-!
# Settings from variables

Each setting has a variable of the environment, and a variable that is not
set leaves the setting as it is by default. Where several texts are wrong,
the depth is reported before the format.
-/

namespace ObjectQuery

/-- Why a text is no whole number of thirty-two bits. -/
inductive WordError where
  | empty
  | invalidDigit
  | overflow
  deriving DecidableEq

/-- The message of an error. -/
def WordError.message : WordError → String
  | .empty => "cannot parse integer from empty string"
  | .invalidDigit => "invalid digit found in string"
  | .overflow => "number too large to fit in target type"

/-- Reads decimal digits after those that make up `value`, from left to right
and up to the first thing that is wrong. -/
def readWordDigits (value : Nat) : List Char → Except WordError Nat
  | [] => .ok value
  | c :: rest =>
    if c.isDigit then
      let value := 10 * value + (c.toNat - '0'.toNat)
      if value < UInt32.size then readWordDigits value rest else .error .overflow
    else .error .invalidDigit

/-- Reads a whole number of thirty-two bits: digits, perhaps after a plus
sign. -/
def readWord (s : String) : Except WordError Nat :=
  match s.toList with
  | [] => .error .empty
  | ['+'] => .error .invalidDigit
  | '+' :: digits => readWordDigits 0 digits
  | digits => readWordDigits 0 digits

/-- Reads the name of a format in letters of any case. -/
def OutputFormat.read (s : String) : Except SettingsError OutputFormat :=
  let name := Text.lowerAscii s
  match OutputFormat.ofText? name with
  | some format => .ok format
  | none => .error (.parse "output_format" name "expected 'hql' or 'json'")

namespace Settings

/-- The variable for the nesting of subqueries. -/
def depthVariable : String := "QUERYWEAVE_MAX_SUBQUERY_DEPTH"

/-- The variable for the format. -/
def formatVariable : String := "QUERYWEAVE_OUTPUT_FORMAT"

/-- The variable for what is logged. -/
def logVariable : String := "QUERYWEAVE_LOG"

/-- The depth in a text. -/
def readDepth (s : String) : Except SettingsError Nat :=
  (readWord s).mapError fun error => .parse depthVariable s error.message

/-- The format in a text. What is said about the text stands inside of what
is said about the variable. -/
def readFormat (s : String) : Except SettingsError OutputFormat :=
  (OutputFormat.read s).mapError fun
    | .parse field value reason => .parse formatVariable s (parseMessage field value reason)
    | error => error

/-- The settings that variables describe, given their values. -/
def ofVariables (value : String → Option String) : Except SettingsError Settings := do
  let depth ←
    match value depthVariable with
    | some s => readDepth s
    | none => pure Settings.default.maxSubqueryDepth
  let format ←
    match value formatVariable with
    | some s => readFormat s
    | none => pure Settings.default.outputFormat
  validated ⟨depth, format, (value logVariable).getD Settings.default.logFilter⟩

end Settings

end ObjectQuery
