import ObjectQuery.Json.Token
import ObjectQuery.Yaml.Cell

/-!
# The text of YAML scalars

There are five ways to write a scalar: without quotes, in single or double
quotes, and in lines of its own that are either kept or folded. Each has its
reader, which goes through the cells once and gives the text of the scalar
and what comes behind it. Texts under construction are held with the latest
character first.

## Main definitions

* `readPlain` — a scalar without quotes.
* `readSingle`, `readDouble` — a scalar in quotes.
* `readBlock` — a scalar in lines of its own.
-/

namespace ObjectQuery.Yaml

/-- The text that is held with the latest character first. -/
def textOf (reversed : List Char) : String := String.ofList reversed.reverse

/-! ## Without quotes -/

/-- A scalar without quotes and what comes behind it. -/
structure PlainText where
  text : String
  /-- Whether a line break separates it from what comes behind it. -/
  endsLine : Bool
  rest : List Cell

/-- Whether a scalar without quotes ends in front of a cell that follows a
gap: at a mark between documents, at a comment, and outside of brackets at
the indentation of what surrounds it. -/
def endsPlainAfterGap (inBrackets : Bool) (leastColumn : Nat) (cell : Cell) (rest : List Cell) :
    Bool :=
  isAnyDocumentMark (cell :: rest) || cell.char == '#' ||
    (!inBrackets && cell.column < leastColumn)

/-- Whether a scalar without quotes ends in front of a cell wherever it
stands: at a colon before a space and, in brackets, at a bracket or comma. -/
def endsPlain (inBrackets : Bool) (cell : Cell) (rest : List Cell) : Bool :=
  (cell.char == ':' && isSpaceNext rest) ||
    (inBrackets && [',', '[', ']', '\x7b', '\x7d'].contains cell.char)

/-- Whether a colon stands in brackets where it can neither end a scalar nor
belong to one. -/
def isStrayColon (inBrackets : Bool) (cell : Cell) (rest : List Cell) : Bool :=
  inBrackets && cell.char == ':' && isNext [',', '?', '[', ']', '\x7b', '\x7d'] rest

/-- Reads a scalar without quotes. Its later lines must be indented to the
least column, and no tab may stand in that indentation. -/
def readPlain (inBrackets : Bool) (leastColumn : Nat) (text : List Char) (gap : Gap) :
    List Cell → Option PlainText
  | [] => some ⟨textOf text, gap.isBroken, []⟩
  | cell :: rest =>
    if cell.isSpace then
      if cell.char == '\t' && gap.isBroken && cell.column < leastColumn then none
      else readPlain inBrackets leastColumn text (gap.push cell) rest
    else if !gap.isEmpty && endsPlainAfterGap inBrackets leastColumn cell rest then
      some ⟨textOf text, gap.isBroken, cell :: rest⟩
    else if isStrayColon inBrackets cell rest then none
    else if endsPlain inBrackets cell rest then
      some ⟨textOf text, gap.isBroken, cell :: rest⟩
    else readPlain inBrackets leastColumn (cell.char :: gap.after text) .empty rest

/-! ## In quotes -/

/-- Reads a scalar in single quotes behind its first quote. A quote that
belongs to the text is written twice. -/
def readSingle (text : List Char) (gap : Gap) : List Cell → Option (String × List Cell)
  | [] => none
  | cell :: rest =>
    if isAnyDocumentMark (cell :: rest) then none
    else if cell.char == '\'' then
      match rest with
      | [] => some (textOf (gap.after text), [])
      | next :: further =>
        if next.char == '\'' then readSingle ('\'' :: gap.after text) .empty further
        else some (textOf (gap.after text), rest)
    else if cell.isSpace then readSingle text (gap.push cell) rest
    else readSingle (cell.char :: gap.after text) .empty rest

/-- The character that a short escape in double quotes stands for. -/
def shortEscape? : Char → Option Char
  | '0' => some '\x00'
  | 'a' => some '\x07'
  | 'b' => some '\x08'
  | 't' => some '\t'
  | '\t' => some '\t'
  | 'n' => some '\n'
  | 'v' => some '\x0b'
  | 'f' => some '\x0c'
  | 'r' => some '\r'
  | 'e' => some '\x1b'
  | ' ' => some ' '
  | '"' => some '"'
  | '/' => some '/'
  | '\\' => some '\\'
  | 'N' => some '\u0085'
  | '_' => some '\u00a0'
  | 'L' => some '\u2028'
  | 'P' => some '\u2029'
  | _ => none

/-- The number of hexadecimal digits after the letter of a long escape. -/
def longEscape? : Char → Option Nat
  | 'x' => some 2
  | 'u' => some 4
  | 'U' => some 8
  | _ => none

/-- The character whose code point is written by hexadecimal digits. -/
def escapedChar? (digits : List Cell) : Option Char := do
  let code ← digits.foldlM (fun value cell => do
    return value * 16 + (← Json.hexDigit? cell.char)) 0
  if code.isValidChar then some (Char.ofNat code) else none

/-- Reads a scalar in double quotes behind its first quote. -/
def readDouble (text : List Char) (gap : Gap) : List Cell → Option (String × List Cell)
  | [] => none
  | cell :: rest =>
    if isAnyDocumentMark (cell :: rest) then none
    else if cell.char == '"' then some (textOf (gap.after text), rest)
    else if cell.char == '\\' then
      match rest with
      | [] => none
      | letter :: further =>
        if letter.isLineBreak then readDouble (gap.after text) .escaped further
        else
          match shortEscape? letter.char, longEscape? letter.char with
          | some c, _ => readDouble (c :: gap.after text) .empty further
          | none, some length =>
            if length ≤ further.length then
              match escapedChar? (further.take length) with
              | some c => readDouble (c :: gap.after text) .empty (further.drop length)
              | none => none
            else none
          | none, none => none
    else if cell.isSpace then readDouble text (gap.push cell) rest
    else readDouble (cell.char :: gap.after text) .empty rest
termination_by cells => cells.length
decreasing_by
  all_goals simp only [List.length_cons, List.length_drop]
  all_goals omega

/-! ## In lines of its own -/

/-- What becomes of the line breaks at the end of a scalar in lines of its
own. -/
inductive Chomping where
  /-- None is kept. -/
  | strip
  /-- The one that ends the last line is kept. -/
  | clip
  /-- All are kept. -/
  | keep
  deriving DecidableEq

/-- The sign for what becomes of the line breaks at the end. -/
def chomping? : Char → Option Chomping
  | '+' => some .keep
  | '-' => some .strip
  | _ => none

/-- Takes the sign for the line breaks at the end. -/
def takeChomping : List Cell → Option Chomping × List Cell
  | [] => (none, [])
  | cell :: rest =>
    match chomping? cell.char with
    | some chomping => (some chomping, rest)
    | none => (none, cell :: rest)

/-- Takes the digit for the indentation. A zero is no indentation. -/
def takeIndentation : List Cell → Option (Option Nat × List Cell)
  | [] => some (none, [])
  | cell :: rest =>
    if cell.char == '0' then none
    else if cell.char.isDigit then some (some (cell.char.toNat - '0'.toNat), rest)
    else some (none, cell :: rest)

/-- The first line of a scalar in lines of its own behind its mark: a sign and
a digit in either order, each of which may be missing, and nothing more. -/
def readBlockHeader (cells : List Cell) : Option (Chomping × Option Nat × List Cell) := do
  let (before, cells) := takeChomping cells
  let (indentation, cells) ← takeIndentation cells
  let (behind, cells) := if before.isNone then takeChomping cells else (none, cells)
  return ((before <|> behind).getD .clip, indentation, ← skipRestOfLine cells)

/-- The greatest indentation of the lines up to the first that is not empty. A
tab is no indentation. -/
def leadingIndentation (greatest : Nat) : List Cell → Option Nat
  | [] => some greatest
  | cell :: rest =>
    if cell.char == ' ' then leadingIndentation (max greatest (cell.column + 1)) rest
    else if cell.char == '\t' then none
    else if cell.isLineBreak then leadingIndentation greatest rest
    else some greatest

/-- A scalar in lines of its own between two characters. -/
structure BlockText where
  text : List Char
  /-- The line break behind the last line that is not empty. -/
  lineBreak : Option Char
  /-- The empty lines after it, the latest first. -/
  emptyLines : List Char
  /-- Whether the last line that is not empty begins with a blank. -/
  isMoreIndented : Bool
  /-- Whether the indentation of the line is behind. -/
  inLine : Bool

namespace BlockText

/-- The scalar in front of its first line. -/
def empty : BlockText := ⟨[], none, [], false, false⟩

/-- What separates the lines before from a line that begins with `cell`. When
folding, a line feed between two lines that do not begin with a blank stands
for a space, or for nothing where empty lines follow it. -/
def separator (block : BlockText) (isFolded : Bool) (cell : Cell) : List Char :=
  (if isFolded && block.lineBreak == some '\n' && !block.isMoreIndented && !cell.isBlank then
    if block.emptyLines.isEmpty then [' '] else []
  else block.lineBreak.toList) ++ block.emptyLines.reverse

/-- The scalar with the first character of a line. -/
def beginLine (block : BlockText) (isFolded : Bool) (cell : Cell) : BlockText :=
  ⟨cell.char :: ((block.separator isFolded cell).reverse ++ block.text), none, [],
    cell.isBlank, true⟩

/-- The text when the scalar has ended. -/
def result (block : BlockText) (chomping : Chomping) : String :=
  let lastBreak := if chomping = .strip then [] else block.lineBreak.toList
  let emptyLines := if chomping = .keep then block.emptyLines else []
  textOf (emptyLines ++ lastBreak ++ block.text)

end BlockText

/-- Reads the lines of a scalar that are indented to a column. -/
def readBlockLines (isFolded : Bool) (indentation : Nat) (block : BlockText) :
    List Cell → Option (BlockText × List Cell)
  | [] => some (block, [])
  | cell :: rest =>
    if block.inLine then
      if cell.isLineBreak then
        readBlockLines isFolded indentation
          { block with lineBreak := some cell.char, inLine := false } rest
      else
        readBlockLines isFolded indentation { block with text := cell.char :: block.text } rest
    else if cell.isLineBreak then
      readBlockLines isFolded indentation
        { block with emptyLines := cell.char :: block.emptyLines } rest
    else if cell.column < indentation then
      if cell.char == ' ' then readBlockLines isFolded indentation block rest
      else if cell.char == '\t' then none
      else some (block, cell :: rest)
    else readBlockLines isFolded indentation (block.beginLine isFolded cell) rest

/-- Reads a scalar in lines of its own behind its mark. Its lines are indented
by what its first line says or, where that says nothing, as far as its first
line that is not empty, but at least to the least column and by one blank. -/
def readBlock (isFolded : Bool) (leastColumn : Nat) (cells : List Cell) :
    Option (String × List Cell) := do
  let (chomping, stated, cells) ← readBlockHeader cells
  let indentation ←
    match stated with
    | some n => pure (leastColumn - 1 + n)
    | none => do pure (max (← leadingIndentation 0 cells) (max leastColumn 1))
  let (block, rest) ← readBlockLines isFolded indentation .empty cells
  return (block.result chomping, rest)

end ObjectQuery.Yaml
