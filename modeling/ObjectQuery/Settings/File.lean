import ObjectQuery.Json.Token
import ObjectQuery.Settings.Basic
import ObjectQuery.Yaml.Document

/-!
# Settings from a file

A file of settings is a YAML mapping from the names of the settings to
their values. A setting that is not named is as it is by default; other
names are ignored; a setting that is named twice is refused. A file without
any value describes the settings by default, and a file with any other value
than a mapping is refused.
-/

namespace ObjectQuery

/-- The number in a text of digits, or none if a character is no digit of
the base. -/
def digitsIn? (base : Nat) (digits : List Char) : Option Nat :=
  if digits.isEmpty then none
  else
    digits.foldlM
      (fun value c => do
        let digit ← Json.hexDigit? c
        if digit < base then some (value * base + digit) else none)
      0

/-- Whether digits are those of a decimal number. A further digit after a
zero makes them a mere text. -/
def areDecimal : List Char → Bool
  | ['0'] => true
  | '0' :: rest => !rest.all Char.isDigit
  | _ => true

/-- The number that a scalar writes in decimal digits or, after a prefix, in
hexadecimal, octal or binary digits, perhaps after a plus sign. -/
def scalarNumber? (s : String) : Option Nat :=
  let cs := s.toList
  let unsigned := if cs.head? = some '+' then cs.tail else cs
  match unsigned with
  | '0' :: 'x' :: digits => digitsIn? 16 digits
  | '0' :: 'o' :: digits => digitsIn? 8 digits
  | '0' :: 'b' :: digits => digitsIn? 2 digits
  | digits => if areDecimal digits then digitsIn? 10 digits else none

/-- Whether a text without quotes is the absence of a value. -/
def isNull (text : String) : Bool := ["", "~", "null", "Null", "NULL"].contains text

/-- The name after the exclamation mark of a tag that begins with one. A mark
with nothing behind it is a name itself. -/
def tagName? : YamlTag → Option String
  | [] => none
  | first :: name =>
    if first = Yaml.exclamationMark then
      String.fromUTF8? ⟨(if name.isEmpty then [first] else name).toArray⟩
    else none

namespace Settings

/-- The tag of a number in lines of its own. -/
def numberTag : YamlTag := Yaml.octetsOf "tag:yaml.org,2002:int".toList

/-- The depth that a value says. -/
def depthOfYaml? : Yaml → Option Nat
  | .scalar style tag text => do
    if style = .plain ∨ (style = .literal ∧ tag = some numberTag) then
      let n ← scalarNumber? text
      if n < UInt32.size then some n else none
    else none
  | _ => none

/-- The format that a value says: the text of a scalar, or the name in its
tag. With a name in the tag there must be nothing else. -/
def formatOfYaml? : Yaml → Option OutputFormat
  | .scalar style tag text =>
    match tag.bind tagName? with
    | some name =>
      if style = .plain ∧ isNull text then OutputFormat.ofText? name else none
    | none => OutputFormat.ofText? text
  | _ => none

/-- The settings with one of them replaced by what a value says. -/
def withEntry (settings : Settings) (name : String) (v : Yaml) : Option Settings :=
  if name = "max_subquery_depth" then do
    return { settings with maxSubqueryDepth := ← depthOfYaml? v }
  else if name = "output_format" then do
    return { settings with outputFormat := ← formatOfYaml? v }
  else if name = "log_filter" then do
    return { settings with logFilter := ← v.text? }
  else some settings

/-- The names of the settings. -/
def names : List String := ["max_subquery_depth", "output_format", "log_filter"]

/-- The settings that named values describe. -/
def ofEntries? (entries : List (String × Yaml)) : Option Settings :=
  if names.any fun name => 1 < entries.countP (·.1 = name) then none
  else entries.foldlM (fun settings (name, v) => settings.withEntry name v) Settings.default

/-- The settings that a document describes. A document without a value, or
with an absent one, describes those by default. -/
def ofDocument? (document : Yaml.Document) : Option Settings :=
  match document.root with
  | none => some Settings.default
  | some (.mapping entries) => do
    ofEntries? (← entries.mapM fun (key, v) => do
      return (← (← document.resolve? key).text?, ← document.resolve? v))
  | some v => if v.isAbsent then some Settings.default else none

/-- The settings in the content of a file, which is missing where the file
cannot be read. -/
def ofFile : (content : Option String) → Except SettingsError Settings
  | none => .error .unreadableFile
  | some content =>
    match Yaml.read? content with
    | none => .error (.unreadableContent content)
    | some document =>
      match ofDocument? document with
      | none => .error (.unreadableContent content)
      | some settings => validated settings

end Settings

end ObjectQuery
