import ObjectQuery.Json.Token
import ObjectQuery.Yaml.Basic
import ObjectQuery.Yaml.Cell

/-!
# Anchors, tags and directives

An anchor is a name for a node. A tag is written in full between `!<` and
`>`, or as a handle and a suffix; what a handle stands for is said by the
directives at the head of a document, and two handles have a meaning without
any directive.

## Main definitions

* `readAnchor` — the name of an anchor or of a reference.
* `readTag` — a tag as it is written.
* `readDirective` — a line that begins with a percent sign.
* `Directives.expand?` — the tag that a handle and a suffix stand for.
-/

namespace ObjectQuery.Yaml

/-! ## Anchors -/

/-- The characters of the name that comes next, and what comes behind it. -/
def takeName (cells : List Cell) : List Char × List Cell :=
  ((cells.takeWhile Cell.isNameChar).map Cell.char, cells.dropWhile Cell.isNameChar)

/-- Reads a name behind the mark of an anchor or reference. It must not be
empty, and only a space or one of a few marks may follow it. -/
def readAnchor (cells : List Cell) : Option (String × List Cell) :=
  let (name, rest) := takeName cells
  if !name.isEmpty &&
      (isSpaceNext rest || isNext ['?', ':', ',', ']', '\x7d', '%', '@', '\x60'] rest) then
    some (String.ofList name, rest)
  else none

/-! ## Tags -/

/-- The octet of an escape in a tag: a percent sign and two hexadecimal
digits. -/
def takeOctet? : List Cell → Option (UInt8 × List Cell)
  | sign :: high :: low :: rest => do
    if sign.char == '%' then
      return (UInt8.ofNat ((← Json.hexDigit? high.char) * 16 + (← Json.hexDigit? low.char)), rest)
    else none
  | _ => none

/-- How many octets a character takes of which the first octet is given. -/
def octetCount? (first : UInt8) : Option Nat :=
  if first < 0x80 then some 1
  else if first < 0xC0 then none
  else if first < 0xE0 then some 2
  else if first < 0xF0 then some 3
  else if first < 0xF8 then some 4
  else none

/-- The octets that continue a character, each written by an escape. -/
def takeFurtherOctets? : (count : Nat) → List Cell → Option (YamlTag × List Cell)
  | 0, cells => some ([], cells)
  | count + 1, cells => do
    let (octet, cells) ← takeOctet? cells
    if 0x80 ≤ octet && octet < 0xC0 then
      let (octets, cells) ← takeFurtherOctets? count cells
      return (octet :: octets, cells)
    else none

/-- The octets of a character that is written by escapes. -/
def takeEscapedChar? (cells : List Cell) : Option (YamlTag × List Cell) := do
  let (first, cells) ← takeOctet? cells
  let (octets, cells) ← takeFurtherOctets? ((← octetCount? first) - 1) cells
  return (first :: octets, cells)

/-- Whether a character may stand in a tag. A tag in brackets of its own may
hold some marks that would end any other. -/
def isTagChar (isEnclosed : Bool) (cell : Cell) : Bool :=
  cell.isNameChar ||
    [';', '/', '?', ':', '@', '&', '=', '+', '$', '.', '%', '!', '~', '*', '\'', '(', ')'].contains
      cell.char ||
    (isEnclosed && [',', '[', ']'].contains cell.char)

/-- The octets of the characters of a tag that come next, of which there are at
most `limit`. -/
def takeTagChars (isEnclosed : Bool) : (limit : Nat) → List Cell → Option (YamlTag × List Cell)
  | 0, cells => some ([], cells)
  | _, [] => some ([], [])
  | limit + 1, cell :: rest =>
    if isTagChar isEnclosed cell then do
      let (octets, cells) ←
        if cell.char == '%' then takeEscapedChar? (cell :: rest)
        else some ([UInt8.ofNat cell.char.toNat], rest)
      let (further, cells) ← takeTagChars isEnclosed limit cells
      return (octets ++ further, cells)
    else some ([], cell :: rest)

/-- A part of a tag: the octets that come next, up to the first that is zero.
There must be a character unless the part was begun before. -/
def readTagPart (isEnclosed isBegun : Bool) (cells : List Cell) : Option (YamlTag × List Cell) := do
  if !isBegun && !cells.head?.any (isTagChar isEnclosed) then none
  else
    let (octets, rest) ← takeTagChars isEnclosed cells.length cells
    return (octets.takeWhile (· ≠ 0), rest)

/-- Takes a handle: an exclamation mark, a name and perhaps a further
exclamation mark. -/
def takeHandle? : List Cell → Option (List Char × List Cell)
  | cell :: rest =>
    if cell.char == '!' then
      let (name, rest) := takeName rest
      if isNext ['!'] rest then some ('!' :: name ++ ['!'], rest.drop 1)
      else some ('!' :: name, rest)
    else none
  | [] => none

/-- A tag as it is written: a handle, which is empty for a tag in full, and a
suffix. -/
structure WrittenTag where
  handle : List Char
  suffix : YamlTag

/-- The octets of characters of ASCII. -/
def octetsOf (chars : List Char) : YamlTag := chars.map (UInt8.ofNat ·.toNat)

/-- The octet of the exclamation mark. -/
def exclamationMark : UInt8 := 33

/-- Reads a tag in brackets of its own behind the opening one. -/
def readEnclosedTag (cells : List Cell) : Option (WrittenTag × List Cell) := do
  let (suffix, rest) ← readTagPart true false cells
  if isNext ['>'] rest then return (⟨[], suffix⟩, rest.drop 1) else none

/-- Reads a tag of handle and suffix. A handle of more than one character ends
with an exclamation mark: where that is missing, what stands behind the first
one belongs to the suffix. A single exclamation mark is a tag in full. -/
def readShortTag (cells : List Cell) : Option (WrittenTag × List Cell) := do
  let (handle, rest) ← takeHandle? cells
  if 1 < handle.length && handle.getLast? = some '!' then
    let (suffix, rest) ← readTagPart false false rest
    return (⟨handle, suffix⟩, rest)
  else
    let (suffix, rest) ← readTagPart false true rest
    let suffix := octetsOf handle.tail ++ suffix
    return (if suffix.isEmpty then ⟨[], [exclamationMark]⟩ else ⟨['!'], suffix⟩, rest)

/-- Reads a tag. Only a space may follow it or, in brackets, a comma. -/
def readTag (inBrackets : Bool) (cells : List Cell) : Option (WrittenTag × List Cell) := do
  let (tag, rest) ←
    if isNext ['<'] (cells.drop 1) then readEnclosedTag (cells.drop 2) else readShortTag cells
  if isSpaceNext rest || (inBrackets && isNext [','] rest) then return (tag, rest) else none

/-! ## Directives -/

/-- A directive. -/
inductive Directive where
  | version (major minor : Nat)
  /-- What a handle stands for. -/
  | handle (name : List Char) (expansion : YamlTag)

/-- Takes a number of at most nine digits. -/
def takeNumber? (cells : List Cell) : Option (Nat × List Cell) :=
  let digits := cells.takeWhile (·.char.isDigit)
  if digits.isEmpty || 9 < digits.length then none
  else
    some (digits.foldl (fun value cell => 10 * value + (cell.char.toNat - '0'.toNat)) 0,
      cells.drop digits.length)

/-- Reads the two numbers of a version. -/
def readVersion (cells : List Cell) : Option (Directive × List Cell) := do
  let (major, rest) ← takeNumber? cells
  if isNext ['.'] rest then
    let (minor, rest) ← takeNumber? (rest.drop 1)
    return (.version major minor, rest)
  else none

/-- Reads a handle, blanks, and what the handle stands for. -/
def readHandle (cells : List Cell) : Option (Directive × List Cell) := do
  let (name, rest) ← takeHandle? cells
  if (name.length = 1 || name.getLast? = some '!') && rest.head?.any Cell.isBlank then
    let (expansion, rest) ← readTagPart true false (rest.dropWhile Cell.isBlank)
    if isSpaceNext rest then return (.handle name expansion, rest) else none
  else none

/-- Reads a directive behind its percent sign up to the end of the line. -/
def readDirective (cells : List Cell) : Option (Directive × List Cell) := do
  let (name, rest) := takeName cells
  if isSpaceNext rest then
    let rest := rest.dropWhile Cell.isBlank
    let (directive, rest) ←
      if name = "YAML".toList then readVersion rest
      else if name = "TAG".toList then readHandle rest
      else none
    return (directive, ← skipRestOfLine rest)
  else none

/-- What directives say. -/
structure Directives where
  hasVersion : Bool
  /-- The handles and what they stand for. -/
  handles : List (List Char × YamlTag)

namespace Directives

/-- No directives. -/
def empty : Directives := ⟨false, []⟩

/-- The directives with one more of them. The version must be said once, and
so must be what a handle stands for. -/
def add? (directives : Directives) : Directive → Option Directives
  | .version major minor =>
    if !directives.hasVersion && major = 1 && (minor = 1 || minor = 2) then
      some { directives with hasVersion := true }
    else none
  | .handle name expansion =>
    if (directives.handles.lookup name).isNone then
      some { directives with handles := (name, expansion) :: directives.handles }
    else none

/-- The handles that have a meaning without any directive. -/
def ownHandles : List (List Char × YamlTag) :=
  [(['!'], [exclamationMark]), (['!', '!'], octetsOf "tag:yaml.org,2002:".toList)]

/-- The tag that a written tag stands for, if its handle stands for
anything. -/
def expand? (directives : Directives) (tag : WrittenTag) : Option YamlTag :=
  if tag.handle.isEmpty then some tag.suffix
  else ((directives.handles ++ ownHandles).lookup tag.handle).map (· ++ tag.suffix)

end Directives

end ObjectQuery.Yaml
