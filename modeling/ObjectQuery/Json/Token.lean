import ObjectQuery.Json.Basic
import ObjectQuery.Json.Numeral

/-!
# The tokens of JSON text

A text is first cut into tokens: brackets, commas and colons by themselves,
and strings, numbers and the three words as values. Blanks separate tokens
and carry no meaning. A character that starts no token makes the text
invalid, and so do an unescaped control character and an unknown escape
inside a string.

Two kinds of token are well formed and have no value: a string with half a
surrogate pair, and a number beyond the doubles. Whether they matter is up
to whoever reads the tokens.

`tokenize` takes one token from the front at a time. It ends because each
token is at least one character long.
-/

namespace ObjectQuery.Json

/-- A token of JSON text. -/
inductive Token where
  | openArray
  | closeArray
  | openObject
  | closeObject
  | comma
  | colon
  /-- A string, if it has a value. -/
  | string (s : Option String)
  /-- `true`, `false`, `null`, or a number, if it has a value. -/
  | scalar (value : Option Json)

/-! ## Strings -/

/-- What one element of a string literal stands for. -/
inductive StringUnit where
  /-- A character, written as itself or by a short escape. -/
  | char (c : Char)
  /-- Sixteen bits, written in hexadecimal. -/
  | code (unit : Nat)

/-- The value of a hexadecimal digit. -/
def hexDigit? (c : Char) : Option Nat :=
  if '0' ≤ c ∧ c ≤ '9' then some (c.toNat - '0'.toNat)
  else if 'a' ≤ c ∧ c ≤ 'f' then some (c.toNat - 'a'.toNat + 10)
  else if 'A' ≤ c ∧ c ≤ 'F' then some (c.toNat - 'A'.toNat + 10)
  else none

/-- The value of four hexadecimal digits. -/
def hexUnit? (a b c d : Char) : Option Nat := do
  return (((← hexDigit? a) * 16 + (← hexDigit? b)) * 16 + (← hexDigit? c)) * 16 + (← hexDigit? d)

/-- The character that a short escape stands for. -/
def shortEscape? : Char → Option Char
  | '"' => some '"'
  | '\\' => some '\\'
  | '/' => some '/'
  | 'b' => some '\x08'
  | 'f' => some '\x0c'
  | 'n' => some '\n'
  | 'r' => some '\r'
  | 't' => some '\t'
  | _ => none

/-- The elements of a string literal after its opening quote, and what
follows its closing quote. -/
def stringUnits? : List Char → Option (List StringUnit × List Char)
  | [] => none
  | '"' :: rest => some ([], rest)
  | '\\' :: 'u' :: a :: b :: c :: d :: rest => do
    let unit ← hexUnit? a b c d
    let (units, rest) ← stringUnits? rest
    return (.code unit :: units, rest)
  | '\\' :: e :: rest => do
    let c ← shortEscape? e
    let (units, rest) ← stringUnits? rest
    return (.char c :: units, rest)
  | c :: rest =>
    if c.toNat < 0x20 then none
    else do
      let (units, rest) ← stringUnits? rest
      return (.char c :: units, rest)

/-- Joins the two halves of each surrogate pair. -/
def joinUnits? : List StringUnit → Option (List Char)
  | [] => some []
  | .char c :: rest => (joinUnits? rest).map (c :: ·)
  | .code high :: rest =>
    if 0xDC00 ≤ high ∧ high < 0xE000 then none
    else if 0xD800 ≤ high ∧ high < 0xDC00 then
      match rest with
      | .code low :: rest =>
        if 0xDC00 ≤ low ∧ low < 0xE000 then
          let code := 0x10000 + (high - 0xD800) * 0x400 + (low - 0xDC00)
          (joinUnits? rest).map (Char.ofNat code :: ·)
        else none
      | _ => none
    else (joinUnits? rest).map (Char.ofNat high :: ·)

private theorem length_stringUnits? {cs : List Char} {units : List StringUnit} {rest : List Char}
    (h : stringUnits? cs = some (units, rest)) : rest.length < cs.length := by
  fun_induction stringUnits? cs generalizing units rest with
  | case1 => simp at h
  | case2 rest' => simp_all
  | case3 a b c d rest' ih =>
    simp only [bind, Option.bind_eq_some_iff, pure, Option.some.injEq, Prod.mk.injEq] at h
    obtain ⟨_, _, ⟨u, r⟩, h, _, rfl⟩ := h
    have := ih h
    simp only [List.length_cons]
    omega
  | case4 e rest' _ ih =>
    simp only [bind, Option.bind_eq_some_iff, pure, Option.some.injEq, Prod.mk.injEq] at h
    obtain ⟨_, _, ⟨u, r⟩, h, _, rfl⟩ := h
    have := ih h
    simp only [List.length_cons]
    omega
  | case5 => simp at h
  | case6 c rest' _ _ _ _ ih =>
    simp only [bind, Option.bind_eq_some_iff, pure, Option.some.injEq, Prod.mk.injEq] at h
    obtain ⟨⟨u, r⟩, h, _, rfl⟩ := h
    have := ih h
    simp only [List.length_cons]
    omega

/-! ## All tokens -/

/-- Whether a character separates tokens. -/
def isSeparator (c : Char) : Bool :=
  c == ' ' || c == '\t' || c == '\n' || c == '\r'

/-- Whether a character may be part of a numeral. -/
def isNumeralChar (c : Char) : Bool :=
  c.isDigit || c == '-' || c == '+' || c == '.' || c == 'e' || c == 'E'

/-- The token of a single character. -/
def bracket? : Char → Option Token
  | '[' => some .openArray
  | ']' => some .closeArray
  | '{' => some .openObject
  | '}' => some .closeObject
  | ',' => some .comma
  | ':' => some .colon
  | _ => none

/-- The value of a word. -/
def word? (letters : List Char) : Option Json :=
  if letters = ['n', 'u', 'l', 'l'] then some .null
  else if letters = ['t', 'r', 'u', 'e'] then some (.bool true)
  else if letters = ['f', 'a', 'l', 's', 'e'] then some (.bool false)
  else none

/-- The value of a numeral, if it has one. -/
def Numeral.value? (numeral : Numeral) : Option Json :=
  match numeral.integer? with
  | some n => some (.integer n)
  | none => numeral.float?.map .float

/-- The tokens of a text. -/
def tokenize : List Char → Option (List Token)
  | [] => some []
  | c :: cs =>
    if isSeparator c then tokenize cs
    else
      match bracket? c with
      | some token => (tokenize cs).map (token :: ·)
      | none =>
        if c = '"' then
          match _h : stringUnits? cs with
          | none => none
          | some (units, rest) => do
            return .string ((joinUnits? units).map String.ofList) :: (← tokenize rest)
        else if isNumeralChar c then do
          let numeral ← Numeral.ofChars? (c :: cs.takeWhile isNumeralChar)
          return .scalar numeral.value? :: (← tokenize (cs.dropWhile isNumeralChar))
        else do
          let value ← word? (c :: cs.takeWhile Char.isAlpha)
          return .scalar (some value) :: (← tokenize (cs.dropWhile Char.isAlpha))
termination_by cs => cs.length
decreasing_by
  all_goals simp only [List.length_cons]
  · omega
  · omega
  · have := length_stringUnits? _h
    omega
  · have := (List.dropWhile_sublist (p := isNumeralChar) (l := cs)).length_le
    omega
  · have := (List.dropWhile_sublist (p := Char.isAlpha) (l := cs)).length_le
    omega

end ObjectQuery.Json
