/-!
# The characters of YAML text in their places

What a character means in YAML depends on where it stands: on its column,
because indentation is structure, and on its line, because a key without a
mark must stand on one line with its colon. A text is therefore laid out as
*cells* first, each a character with its line, its column and its distance
from the start of the text. Every line break but the two that Unicode has
for lines and paragraphs is laid out as a line feed.

A run of blanks and line breaks between the words of a scalar is a `Gap`,
and `Gap.text` says what it stands for.

## Main definitions

* `layOut` — the cells of a text, or none if it has a control character.
* `skipGap` — what stands between two tokens.
* `Gap.text` — blanks stand for themselves and a single line break for a
  space.
-/

namespace ObjectQuery.Yaml

/-! ## Cells -/

/-- A character and where it stands. -/
structure Cell where
  char : Char
  line : Nat
  column : Nat
  /-- The number of characters before it in the text. -/
  index : Nat

namespace Cell

/-- Whether the character is a space or tab. -/
def isBlank (cell : Cell) : Bool := cell.char == ' ' || cell.char == '\t'

/-- Whether the character ends a line. -/
def isLineBreak (cell : Cell) : Bool :=
  cell.char == '\n' || cell.char == '\u2028' || cell.char == '\u2029'

/-- Whether the character separates words. -/
def isSpace (cell : Cell) : Bool := cell.isBlank || cell.isLineBreak

/-- Whether the character may stand in a name: a letter or digit of ASCII, a
hyphen or an underscore. -/
def isNameChar (cell : Cell) : Bool :=
  cell.char.isAlphanum || cell.char == '_' || cell.char == '-'

end Cell

/-- Whether a character may stand in a text at all. -/
def isPrintable (c : Char) : Bool :=
  let n := c.toNat
  n = 0x09 || n = 0x0A || n = 0x0D || (0x20 ≤ n && n ≤ 0x7E) || n = 0x85 ||
    (0xA0 ≤ n && n ≤ 0xFFFD) || 0x10000 ≤ n

/-- The cells of characters of which the first stands at the given place. -/
def cellsFrom (line column index : Nat) : List Char → List Cell
  | [] => []
  | '\r' :: '\n' :: rest => ⟨'\n', line, column, index⟩ :: cellsFrom (line + 1) 0 (index + 2) rest
  | c :: rest =>
    if c = '\n' ∨ c = '\r' ∨ c = '\u0085' then
      ⟨'\n', line, column, index⟩ :: cellsFrom (line + 1) 0 (index + 1) rest
    else if c = '\u2028' ∨ c = '\u2029' then
      ⟨c, line, column, index⟩ :: cellsFrom (line + 1) 0 (index + 1) rest
    else ⟨c, line, column, index⟩ :: cellsFrom line (column + 1) (index + 1) rest

/-- The cells of a text. -/
def layOut (text : String) : Option (List Cell) :=
  if text.toList.all isPrintable then some (cellsFrom 0 0 0 text.toList) else none

/-! ## What comes next -/

/-- Whether nothing, a blank or a line break comes next. -/
def isSpaceNext : List Cell → Bool
  | [] => true
  | cell :: _ => cell.isSpace

/-- Whether nothing or a line break comes next. -/
def isLineEndNext : List Cell → Bool
  | [] => true
  | cell :: _ => cell.isLineBreak

/-- Whether one of some characters comes next. -/
def isNext (chars : List Char) : List Cell → Bool
  | [] => false
  | cell :: _ => chars.contains cell.char

/-- Whether a line begins with a mark between documents: the same character
three times. -/
def isDocumentMark (c : Char) : List Cell → Bool
  | a :: b :: d :: rest =>
    a.column == 0 && a.char == c && b.char == c && d.char == c && isSpaceNext rest
  | _ => false

/-- Whether a line begins with the mark of the start or of the end of a
document. -/
def isAnyDocumentMark (cells : List Cell) : Bool :=
  isDocumentMark '-' cells || isDocumentMark '.' cells

/-! ## Between tokens -/

/-- Skips blanks, comments and line breaks, and tells whether a key may begin
behind them. In brackets a line break changes nothing about that; outside of
brackets a line may begin with a key, and a tab is no indentation. The very
first character of a text may be a byte order mark. -/
def skipGap (inBrackets keyAllowed inComment : Bool) : List Cell → Bool × List Cell
  | [] => (keyAllowed, [])
  | cell :: rest =>
    if cell.isLineBreak then skipGap inBrackets (keyAllowed || !inBrackets) false rest
    else if inComment then skipGap inBrackets keyAllowed true rest
    else if cell.char == '#' then skipGap inBrackets keyAllowed true rest
    else if cell.char == ' ' || (cell.char == '\t' && (inBrackets || !keyAllowed)) ||
        (cell.char == '\uFEFF' && cell.index == 0) then
      skipGap inBrackets keyAllowed false rest
    else (keyAllowed, cell :: rest)

/-- Skips blanks and a comment up to the end of the line and the line break.
Nothing else may stand there. -/
def skipRestOfLine (cells : List Cell) : Option (List Cell) :=
  let cells := cells.dropWhile Cell.isBlank
  let cells := if isNext ['#'] cells then cells.dropWhile (!·.isLineBreak) else cells
  if isLineEndNext cells then some (cells.drop 1) else none

/-! ## Between the words of a scalar -/

/-- A run of blanks and line breaks in a scalar, the latest first. -/
structure Gap where
  /-- The blanks, as long as there is no line break. -/
  blanks : List Char
  /-- The line breaks, without an escaped one. -/
  lineBreaks : List Char
  /-- Whether the run begins with an escaped line break. -/
  isEscaped : Bool

namespace Gap

/-- No gap. -/
def empty : Gap := ⟨[], [], false⟩

/-- The gap at an escaped line break. -/
def escaped : Gap := ⟨[], [], true⟩

/-- Whether there is a line break in the gap. -/
def isBroken (gap : Gap) : Bool := gap.isEscaped || !gap.lineBreaks.isEmpty

/-- Whether there is neither a blank nor a line break. -/
def isEmpty (gap : Gap) : Bool := gap.blanks.isEmpty && !gap.isBroken

/-- The gap with one more cell. Blanks beside a line break do not count. -/
def push (gap : Gap) (cell : Cell) : Gap :=
  if cell.isLineBreak then { gap with blanks := [], lineBreaks := cell.char :: gap.lineBreaks }
  else if gap.isBroken then gap
  else { gap with blanks := cell.char :: gap.blanks }

/-- What a gap stands for: blanks for themselves, one line feed for a space,
and every further line break for itself. An escaped line break stands for
nothing. -/
def text (gap : Gap) : List Char :=
  if gap.isEscaped then gap.lineBreaks.reverse
  else
    match gap.lineBreaks.reverse with
    | [] => gap.blanks.reverse
    | ['\n'] => [' ']
    | '\n' :: further => further
    | lineBreaks => lineBreaks

/-- A text that is held with the latest character first, after a gap. -/
def after (gap : Gap) (text : List Char) : List Char := gap.text.reverse ++ text

end Gap

end ObjectQuery.Yaml
