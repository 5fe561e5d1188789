/-!
# The pattern language of like

In a pattern `%` stands for any run of characters and `_` for any single
character, a line break included. Every other character stands for itself.
A pattern may come with an escape character. A pair of the escape character
and the character after it stands for that character alone.

The wildcards and the pairs are found by a regular expression with a search
from left to right; what is between them is literal. The expression decides
what a pair is. It tries the wildcards first, so `%` and `_` stay wildcards
even where they are given as the escape character. And the dot in it does not
take a line feed, so an escape character in front of a line feed stands for
itself, as it does at the end of the pattern.

Matching then works on whole rows: the row of a token list says, for every
suffix of the text at once, whether the tokens match that suffix. The row for
one more token follows from the row without it, so the cost is the product of
the two lengths, whatever the wildcards.
-/

namespace ObjectQuery.Text.Like

/-! ## Searching -/

/-- A step of a regular expression that takes one character. -/
inductive Step where
  /-- One of several characters. -/
  | oneOf (cs : List Char)
  /-- A dot: any character but a line feed. -/
  | dot
  deriving DecidableEq, Repr

/-- Whether a step takes a character. -/
def Step.takes : Step → Char → Bool
  | .oneOf cs, c => cs.contains c
  | .dot, c => c != '\n'

/-- What a sequence of steps takes at the front of a text. -/
def takeFront : List Step → List Char → Option (List Char)
  | [], _ => some []
  | _ :: _, [] => none
  | step :: steps, c :: cs =>
    if step.takes c then (takeFront steps cs).map (c :: ·) else none

/-- What an expression takes at the front of a text: the first of its
alternatives that fits counts. -/
def matchFront (alternatives : List (List Step)) (text : List Char) : Option (List Char) :=
  alternatives.findSome? (takeFront · text)

/-- A part of a text that is searched. -/
inductive Piece where
  /-- A match. -/
  | found (text : List Char)
  /-- A character outside all matches. -/
  | between (c : Char)
  deriving DecidableEq, Repr

/-- The parts of a text that is searched for an expression that takes at least
one character; `inside` characters at the front are still in the last match. -/
def search (alternatives : List (List Step)) : (inside : Nat) → List Char → List Piece
  | _, [] => []
  | inside + 1, _ :: cs => search alternatives inside cs
  | 0, c :: cs =>
    match matchFront alternatives (c :: cs) with
    | some text => .found text :: search alternatives (text.length - 1) cs
    | none => .between c :: search alternatives 0 cs

/-! ## Tokens -/

/-- One step of a pattern. -/
inductive Token where
  /-- Any run of characters, the empty one included. -/
  | anyRun
  /-- Any one character. -/
  | anyOne
  /-- This character. -/
  | literal (c : Char)
  deriving DecidableEq, Repr

/-- What is searched for in a pattern: a wildcard, or the escape character
with a character after it. -/
def tokenExpression (escape : Option Char) : List (List Step) :=
  [.oneOf ['%', '_']] :: (escape.map fun c => [.oneOf [c], .dot]).toList

/-- The tokens of a part of a pattern. Of a pair, the character after the
escape character counts. -/
def Piece.tokens : Piece → List Token
  | .found ['%'] => [.anyRun]
  | .found ['_'] => [.anyOne]
  | .found pair => (pair.drop 1).map .literal
  | .between c => [.literal c]

/-- Cuts a pattern into tokens. -/
def tokens (escape : Option Char) (pattern : List Char) : List Token :=
  (search (tokenExpression escape) 0 pattern).flatMap Piece.tokens

/-! ## Matching -/

/-- Whether `p` holds at some place from here on, for every place. -/
def fromHereOn (row : List Bool) : List Bool :=
  row.foldr (fun b later => (b || later.headD false) :: later) []

/-- The row of one token in front of the tokens of `row`. The entry for the
empty suffix, which comes last, has no character to match. -/
def extendRow (token : Token) (text : List Char) (row : List Bool) : List Bool :=
  match token with
  | .anyRun => fromHereOn row
  | .anyOne => row.tail ++ [false]
  | .literal c => (text.zipWith (fun x b => x == c && b) row.tail) ++ [false]

/-- For every suffix of `text`, the longest first, whether the tokens match
it. The row has one more entry than the text has characters. -/
def matchRow (text : List Char) : List Token → List Bool
  | [] => text.map (fun _ => false) ++ [true]
  | token :: rest => extendRow token text (matchRow text rest)

/-- Whether the tokens match the whole text. -/
def matchesTokens (ts : List Token) (text : List Char) : Bool :=
  (matchRow text ts).headD false

/-- Whether `text` matches `pattern` under the escape character. -/
def isMatch (escape : Option Char) (pattern text : String) : Bool :=
  matchesTokens (tokens escape pattern.toList) text.toList

end ObjectQuery.Text.Like
