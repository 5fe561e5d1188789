import ObjectQuery.Text.CaseTable

/-!
# Upper and lower case

Both mappings are the full ones: a character may become several, as when
`ß` becomes `SS`. Upper case looks at one character at a time. Lower case
needs its surroundings in one place only: a capital sigma that ends a word
becomes `ς` and any other becomes `σ`. A sigma ends a word when, going
outwards and skipping the characters that letter case ignores, a cased
character stands before it and none stands after it.

`lower` therefore carries the characters already passed, nearest first, so
that the look to the left and the look to the right are the same function.
-/

namespace ObjectQuery.Text

/-! ## One character -/

/-- The full mapping given by runs and by expansions; an unlisted
character is kept. -/
def mapCase (runs : List CaseRun) (expansions : List (Nat × List Nat)) (c : Char) : List Char :=
  match expansions.lookup c.toNat with
  | some codes => codes.map Char.ofNat
  | none =>
    match runs.find? (·.contains c.toNat) with
    | some run => [Char.ofNat (c.toNat + run.shift).toNat]
    | none => [c]

/-- The upper case of one character. -/
def upperChar (c : Char) : List Char :=
  mapCase upperRuns upperExpansions c

/-- The lower case of one character that has no capital sigma in it. -/
def lowerChar (c : Char) : List Char :=
  mapCase lowerRuns lowerExpansions c

/-- Whether a character lies in one of the inclusive ranges. -/
def inRanges (ranges : List (Nat × Nat)) (c : Char) : Bool :=
  ranges.any fun (first, last) => first ≤ c.toNat && c.toNat ≤ last

/-! ## Words -/

/-- Whether the first character that letter case does not ignore is a
cased one. -/
def startsCased (cs : List Char) : Bool :=
  match cs.find? (fun c => !inRanges caseIgnorableRanges c) with
  | some c => inRanges casedRanges c
  | none => false

/-- The lower case of `cs`, where `before` holds what precedes it, nearest
character first. -/
def lowerAfter (before : List Char) : List Char → List Char
  | [] => []
  | c :: cs =>
    (if c = 'Σ' then
      [if startsCased before && !startsCased cs then 'ς' else 'σ']
    else
      lowerChar c) ++ lowerAfter (c :: before) cs

/-- The upper case of a text. -/
def upper (s : String) : String :=
  String.ofList (s.toList.flatMap upperChar)

/-- The lower case of a text. -/
def lower (s : String) : String :=
  String.ofList (lowerAfter [] s.toList)

/-- Lower case on the twenty-six letters of ASCII alone; every other
character is kept. -/
def lowerAscii (s : String) : String :=
  s.map Char.toLower

end ObjectQuery.Text
