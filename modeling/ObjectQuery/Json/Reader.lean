import ObjectQuery.Json.Token

/-!
# Reading JSON text

Tokens are put together by a machine that holds the open arrays and objects
on a stack and knows what may come next. One token is one step, so reading
is a fold over the tokens, and the length of the stack is the depth of
nesting. A text is valid when the machine ends with one finished value and
nothing open.

A well-formed value may be *out of reach*: a token without a value, an array
or object that nests too deep, an array with such an item, an object with
such a name. What holds it may still be readable, because a record ignores
the members it does not know. `readTolerant?` therefore enters a member
whose value is out of reach twice. Whoever ignores members of that name is
not concerned, and nobody else accepts a repeated member. `read?` is strict:
it gives no value where any part is out of reach.

Repeated members are kept as the text has them. Whoever needs the merged
reading applies `Json.merged`.
-/

namespace ObjectQuery.Json

/-- How a text is read. -/
structure Reading where
  /-- How deep arrays and objects may nest, where there is a limit. -/
  limit : Option Nat
  /-- Whether an object with a value out of reach is out of reach itself. -/
  isStrict : Bool

/-- The members of an object, or none if it is out of reach. The latest is the
first. -/
abbrev Members := Option (List (String × Json))

/-- The members with one more. -/
def Members.add (reading : Reading) (members : Members) (name : Option String)
    (value : Option Json) : Members := do
  let members ← members
  let name ← name
  match value with
  | some value => some ((name, value) :: members)
  | none => if reading.isStrict then none else some ((name, .null) :: (name, .null) :: members)

/-- The items of an array, or none if it is out of reach. The latest is the
first. -/
abbrev Items := Option (List Json)

/-- The items with one more. -/
def Items.add (items : Items) (value : Option Json) : Items := do
  return (← value) :: (← items)

/-- An array or object that is not closed yet, with what it holds so far. -/
inductive Open where
  | array (items : Items)
  /-- `name` is the member whose value is being read. -/
  | object (members : Members) (name : Option String)

/-- What the machine waits for. -/
inductive Expecting where
  /-- A value. -/
  | value
  /-- A value, or the end of the array just opened. -/
  | itemOrEnd
  /-- The name of a member of an object that already has some. -/
  | name (members : Members)
  /-- The name of a member, or the end of the object just opened. -/
  | nameOrEnd
  /-- The colon after the name of a member. -/
  | colon (members : Members) (name : Option String)
  /-- A comma or the end of what is open, after this value, which may be out
  of reach; with nothing open, the end of the text. -/
  | after (value : Option Json)

/-- The machine between two tokens. -/
structure Progress where
  /-- What is open, innermost first. -/
  stack : List Open
  expecting : Expecting

/-- The machine before the first token. -/
def Progress.start : Progress := ⟨[], .value⟩

/-- What an array or object holds when it is opened: nothing, or what is out
of reach if it nests too deep. -/
def Reading.opened {α : Type} (reading : Reading) (stack : List Open) : Option (List α) :=
  if reading.limit.all (stack.length < ·) then some [] else none

/-- A value begins. -/
def Progress.beginValue (reading : Reading) (stack : List Open) : Token → Option Progress
  | .string s => some ⟨stack, .after (s.map .string)⟩
  | .scalar value => some ⟨stack, .after value⟩
  | .openArray => some ⟨.array (reading.opened stack) :: stack, .itemOrEnd⟩
  | .openObject => some ⟨.object (reading.opened stack) none :: stack, .nameOrEnd⟩
  | _ => none

/-- One step of the machine. -/
def Progress.step (reading : Reading) (p : Progress) (token : Token) : Option Progress :=
  match p.expecting, p.stack, token with
  | .value, stack, token => beginValue reading stack token
  | .itemOrEnd, .array items :: stack, .closeArray => some ⟨stack, .after (items.map .array)⟩
  | .itemOrEnd, stack, token => beginValue reading stack token
  | .nameOrEnd, .object members _ :: stack, .closeObject =>
    some ⟨stack, .after (members.map .object)⟩
  | .nameOrEnd, .object members _ :: stack, .string name => some ⟨stack, .colon members name⟩
  | .name members, stack, .string name => some ⟨stack, .colon members name⟩
  | .colon members name, stack, .colon => some ⟨.object members name :: stack, .value⟩
  | .after value, .array items :: stack, .comma =>
    some ⟨.array (items.add value) :: stack, .value⟩
  | .after value, .array items :: stack, .closeArray =>
    some ⟨stack, .after ((items.add value).map fun items => .array items.reverse)⟩
  | .after value, .object members name :: stack, .comma =>
    some ⟨stack, .name (members.add reading name value)⟩
  | .after value, .object members name :: stack, .closeObject =>
    some ⟨stack, .after ((members.add reading name value).map fun members =>
      .object members.reverse)⟩
  | _, _, _ => none

/-- The value of a machine that is done. -/
def Progress.result? : Progress → Option Json
  | ⟨[], .after value⟩ => value
  | _ => none

/-- Reads a text in a given way. -/
def readWith? (reading : Reading) (text : String) : Option Json := do
  let tokens ← tokenize text.toList
  let p ← tokens.foldlM (Progress.step reading) Progress.start
  p.result?

/-- Reads a text whose arrays and objects nest at most `limit` deep, or to
any depth where there is no limit. -/
def read? (limit : Option Nat) (text : String) : Option Json :=
  readWith? ⟨limit, true⟩ text

/-- How deep the arrays and objects of a file may nest. -/
def fileDepth : Nat := 127

/-- Reads a text under the limit for files. -/
def readBounded? (text : String) : Option Json :=
  read? (some fileDepth) text

/-- Reads a text under the limit for files, for records that ignore the
members they do not know. -/
def readTolerant? (text : String) : Option Json :=
  readWith? ⟨some fileDepth, false⟩ text

end ObjectQuery.Json
