import ObjectQuery.Yaml.Scalar
import ObjectQuery.Yaml.Tag

/-!
# The tokens of YAML text

Besides the signs that are written, a text has tokens for its structure: a
column to the right opens a collection, and a column to the left closes all
collections that stand further right.

A key is mostly not marked as one: only the colon behind it tells. Where a
node begins that can be a key, the tokenizer therefore keeps a *candidate*
with the number of tokens before it, and a colon puts the token for a key in
there. A candidate is given up at the end of its line or after 1024
characters. One that stands at the column of an open collection has to be a
key, and giving it up makes the text no YAML.

## Main definitions

* `Tokenizer.next` — one sign or scalar.
* `tokenize` — all tokens of a text.
-/

namespace ObjectQuery.Yaml

/-! ## Tokens -/

/-- A token of YAML text. -/
inductive Token where
  | directive (directive : Directive)
  | documentStart
  | documentEnd
  /-- A sequence is opened by its column. -/
  | openItems
  /-- A mapping is opened by its column. -/
  | openEntries
  /-- What was opened by its column is closed. -/
  | closeBlock
  | openBracket
  | closeBracket
  | openBrace
  | closeBrace
  /-- The mark of an item. -/
  | dash
  | comma
  /-- A key comes next. -/
  | key
  /-- The value of a key comes next. -/
  | value
  | reference (name : String)
  | anchor (name : String)
  | tag (tag : WrittenTag)
  | scalar (style : ScalarStyle) (text : String)

/-- A place where a key may have begun. -/
structure KeyCandidate where
  /-- Whether it has to be a key. -/
  isRequired : Bool
  /-- The number of tokens before it. -/
  position : Nat
  start : Cell

/-- Whether a candidate is no key any more when `cell` comes next. -/
def KeyCandidate.isExpired (candidate : KeyCandidate) (cell : Cell) : Bool :=
  candidate.start.line < cell.line || candidate.start.index + 1024 < cell.index

/-- What is known between two tokens. -/
structure Tokenizer where
  /-- The tokens so far, the latest first. -/
  tokens : List Token
  /-- The columns of the open collections without brackets, innermost first. -/
  columns : List Nat
  /-- The candidate in the innermost open bracket, or outside of all. -/
  candidate : Option KeyCandidate
  /-- The candidates around each open bracket, innermost first. -/
  outerCandidates : List (Option KeyCandidate)
  /-- Whether a key may begin here. -/
  keyAllowed : Bool

namespace Tokenizer

/-- What is known at the start of a text. -/
def initial : Tokenizer := ⟨[], [], none, [], true⟩

/-- Whether a bracket is open. -/
def inBrackets (t : Tokenizer) : Bool := !t.outerCandidates.isEmpty

/-- The least column of what belongs to the innermost collection. -/
def leastColumn (t : Tokenizer) : Nat :=
  match t.columns with
  | [] => 0
  | column :: _ => column + 1

/-- One more token. -/
def put (t : Tokenizer) (token : Token) : Tokenizer := { t with tokens := token :: t.tokens }

/-- One more token behind the first `position` ones. -/
def insert (t : Tokenizer) (position : Nat) (token : Token) : Tokenizer :=
  let later := t.tokens.length - position
  { t with tokens := t.tokens.take later ++ token :: t.tokens.drop later }

/-! ## Columns -/

/-- Closes the collections that stand at one of the columns `isRight` tells,
which does nothing in brackets. -/
def closeColumns (t : Tokenizer) (isRight : Nat → Bool) : Tokenizer :=
  if t.inBrackets then t
  else
    let closed := t.columns.takeWhile isRight
    { t with
      tokens := List.replicate closed.length .closeBlock ++ t.tokens
      columns := t.columns.drop closed.length }

/-- Opens a collection at a column behind the first `position` tokens, unless
one stands there already. In brackets there are no such collections. -/
def openColumn (t : Tokenizer) (column position : Nat) (token : Token) : Tokenizer :=
  if !t.inBrackets && t.leastColumn ≤ column then
    { t.insert position token with columns := column :: t.columns }
  else t

/-! ## Candidates -/

/-- Gives the candidate up. -/
def dropCandidate (t : Tokenizer) : Option Tokenizer :=
  if t.candidate.any KeyCandidate.isRequired then none else some { t with candidate := none }

/-- Makes `cell` the candidate where a key may begin. -/
def keepCandidate (t : Tokenizer) (cell : Cell) : Option Tokenizer :=
  if t.keyAllowed then do
    let isRequired := !t.inBrackets && t.columns.head? == some cell.column
    return { ← t.dropCandidate with candidate := some ⟨isRequired, t.tokens.length, cell⟩ }
  else some t

/-- A candidate when `cell` comes next. -/
def remaining? (cell : Cell) : Option KeyCandidate → Option (Option KeyCandidate)
  | none => some none
  | some candidate =>
    if !candidate.isExpired cell then some (some candidate)
    else if candidate.isRequired then none
    else some none

/-- Gives up all candidates that have expired when `cell` comes next. -/
def expireCandidates (t : Tokenizer) (cell : Cell) : Option Tokenizer := do
  return { t with
    candidate := ← remaining? cell t.candidate
    outerCandidates := ← t.outerCandidates.mapM (remaining? cell) }

/-! ## Signs -/

/-- A mark between documents, or a directive: all collections end. -/
def betweenDocuments (t : Tokenizer) (token : Token) : Option Tokenizer := do
  let t ← (t.closeColumns fun _ => true).dropCandidate
  return { t.put token with keyAllowed := false }

/-- An opening bracket, which may begin a key. -/
def openBrackets (t : Tokenizer) (token : Token) (cell : Cell) : Option Tokenizer := do
  let t ← t.keepCandidate cell
  return { t.put token with
    candidate := none
    outerCandidates := t.candidate :: t.outerCandidates
    keyAllowed := true }

/-- A closing bracket. -/
def closeBrackets (t : Tokenizer) (token : Token) : Option Tokenizer := do
  let t ← t.dropCandidate
  return { t.put token with
    candidate := t.outerCandidates.head?.getD none
    outerCandidates := t.outerCandidates.tail
    keyAllowed := false }

/-- A comma. -/
def comma (t : Tokenizer) : Option Tokenizer := do
  return { (← t.dropCandidate).put .comma with keyAllowed := true }

/-- The mark of an item. -/
def dash (t : Tokenizer) (cell : Cell) : Option Tokenizer :=
  if t.inBrackets || t.keyAllowed then do
    let t := t.openColumn cell.column t.tokens.length .openItems
    return { (← t.dropCandidate).put .dash with keyAllowed := true }
  else none

/-- The mark of a key. -/
def key (t : Tokenizer) (cell : Cell) : Option Tokenizer :=
  if t.inBrackets || t.keyAllowed then do
    let t := t.openColumn cell.column t.tokens.length .openEntries
    return { (← t.dropCandidate).put .key with keyAllowed := !t.inBrackets }
  else none

/-- A colon. It makes the candidate a key; without one, it stands behind a
marked key or behind none. -/
def value (t : Tokenizer) (cell : Cell) : Option Tokenizer :=
  match t.candidate with
  | some candidate =>
    let t := (t.insert candidate.position .key).openColumn candidate.start.column
      candidate.position .openEntries
    some { t.put .value with candidate := none, keyAllowed := false }
  | none =>
    if t.inBrackets || t.keyAllowed then
      let t := t.openColumn cell.column t.tokens.length .openEntries
      some { t.put .value with keyAllowed := !t.inBrackets }
    else none

/-! ## Nodes -/

/-- A node that may be a key, or what stands in front of one. -/
def node (t : Tokenizer) (cell : Cell) : Option Tokenizer := do
  return { ← t.keepCandidate cell with keyAllowed := false }

/-- A scalar in lines of its own, behind its mark. -/
def block (t : Tokenizer) (style : ScalarStyle) (cells : List Cell) :
    Option (Tokenizer × List Cell) := do
  let t ← t.dropCandidate
  let (text, rest) ← readBlock (style == .folded) t.leastColumn cells
  return ({ t.put (.scalar style text) with keyAllowed := true }, rest)

/-- Whether a scalar without quotes can begin with a cell. -/
def startsPlain (t : Tokenizer) (cell : Cell) (rest : List Cell) : Bool :=
  if cell.char == '-' then !rest.head?.any Cell.isBlank
  else if cell.char == '?' || cell.char == ':' then !t.inBrackets && !isSpaceNext rest
  else
    !cell.isSpace &&
      !isNext [',', '[', ']', '\x7b', '\x7d', '#', '&', '*', '!', '|', '>', '\'', '"', '%', '@',
        '\x60'] [cell]

/-- A scalar without quotes. -/
def plain (t : Tokenizer) (cell : Cell) (rest : List Cell) : Option (Tokenizer × List Cell) := do
  let t ← t.node cell
  let read ← readPlain t.inBrackets t.leastColumn [] .empty (cell :: rest)
  return ({ t.put (.scalar .plain read.text) with keyAllowed := read.endsLine }, read.rest)

/-- One sign or scalar, which begins with `cell`, and what comes behind it. -/
def next (t : Tokenizer) (cell : Cell) (rest : List Cell) : Option (Tokenizer × List Cell) := do
  let t := (← t.expireCandidates cell).closeColumns (cell.column < ·)
  let isApart := isSpaceNext rest
  if cell.column == 0 && cell.char == '%' then
    let (directive, rest) ← readDirective rest
    return (← t.betweenDocuments (.directive directive), rest)
  else if isDocumentMark '-' (cell :: rest) then
    return (← t.betweenDocuments .documentStart, rest.drop 2)
  else if isDocumentMark '.' (cell :: rest) then
    return (← t.betweenDocuments .documentEnd, rest.drop 2)
  else
    match cell.char with
    | '[' => return (← t.openBrackets .openBracket cell, rest)
    | '\x7b' => return (← t.openBrackets .openBrace cell, rest)
    | ']' => return (← t.closeBrackets .closeBracket, rest)
    | '\x7d' => return (← t.closeBrackets .closeBrace, rest)
    | ',' => return (← t.comma, rest)
    | '*' =>
      let (name, rest) ← readAnchor rest
      return ((← t.node cell).put (.reference name), rest)
    | '&' =>
      let (name, rest) ← readAnchor rest
      return ((← t.node cell).put (.anchor name), rest)
    | '!' =>
      let (tag, rest) ← readTag t.inBrackets (cell :: rest)
      return ((← t.node cell).put (.tag tag), rest)
    | '\'' =>
      let (text, rest) ← readSingle [] .empty rest
      return ((← t.node cell).put (.scalar .quoted text), rest)
    | '"' =>
      let (text, rest) ← readDouble [] .empty rest
      return ((← t.node cell).put (.scalar .quoted text), rest)
    | c =>
      if c == '-' && isApart then return (← t.dash cell, rest)
      else if c == '?' && (t.inBrackets || isApart) then return (← t.key cell, rest)
      else if c == ':' && (t.inBrackets || isApart) then return (← t.value cell, rest)
      else if c == '|' && !t.inBrackets then t.block .literal rest
      else if c == '>' && !t.inBrackets then t.block .folded rest
      else if t.startsPlain cell rest then t.plain cell rest
      else none

/-- The tokens at the end of the text. -/
def finish (t : Tokenizer) : Option (List Token) := do
  return (← (t.closeColumns fun _ => true).dropCandidate).tokens.reverse

/-- The tokens of the rest of a text. Each sign or scalar takes at least one
character. -/
def run (t : Tokenizer) (cells : List Cell) : Option (List Token) :=
  match cells with
  | [] => t.finish
  | cell :: rest =>
    match t.next cell rest with
    | none => none
    | some (t, rest') =>
      let (keyAllowed, further) := skipGap t.inBrackets t.keyAllowed false rest'
      if further.length ≤ rest.length then run { t with keyAllowed } further else none
termination_by cells.length

end Tokenizer

/-- The tokens of a text. -/
def tokenize (text : String) : Option (List Token) := do
  let (keyAllowed, cells) := skipGap false true false (← layOut text)
  Tokenizer.run { Tokenizer.initial with keyAllowed } cells

end ObjectQuery.Yaml
