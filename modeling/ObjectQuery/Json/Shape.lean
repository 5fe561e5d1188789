import ObjectQuery.Json.Basic

/-!
# Shapes of encoded data

Two shapes carry all structured data in JSON.

* A *record* has named members in a fixed order. It is written as an object,
  in which unknown members are ignored and a known one stands at most once,
  or as an array of all its members in that order. The last few members of
  a record may be optional as a whole; in an array they may be left out.
* A *variant* is one of several cases. A case without content is a string
  or an object whose one member has the value null; a case with content is
  an object with exactly one member, named for the case.

Everything found is handed on as a `Part` of the value that was looked at,
so that readers of recursive data end.
-/

namespace ObjectQuery.Json

/-- The one entry of that name, or none where it is missing. A name that
stands twice is refused. -/
def findMember {α : Type} (members : List (String × α)) (name : String) : Option (Option α) :=
  match members.filter (·.1 = name) with
  | [] => some none
  | [(_, value)] => some (some value)
  | _ => none

/-- The members of those names in an object, each of which may be missing. -/
def fields? (names : List String) (whole : Json) : Option (List (Option whole.Part)) := do
  names.mapM (findMember (← whole.members?))

/-- The members of a record. Those named in `required` must all be present
in an array, those in `trailing` may be left out from the end; in an object
any may be missing. -/
def record? (required trailing : List String) (whole : Json) :
    Option (List (Option whole.Part)) :=
  match whole.fields? (required ++ trailing) with
  | some fields => some fields
  | none =>
    match whole.items? with
    | some items =>
      if required.length ≤ items.length ∧ items.length ≤ required.length + trailing.length then
        some (items.map some ++
          List.replicate (required.length + trailing.length - items.length) none)
      else none
    | none => none

/-- What is read of a member, or the given value where it is missing. -/
def orMissing {α : Type} {whole : Json} (missing : α) (read : whole.Part → Option α) :
    Option whole.Part → Option α
  | none => some missing
  | some part => read part

theorem orMissing_some {α : Type} {whole value : Json} (missing : α)
    (read : whole.Part → Option α) (h : sizeOf value < sizeOf whole) :
    orMissing missing read (some ⟨value, h⟩) = read ⟨value, h⟩ :=
  rfl

/-- The case of a variant and its content, if it has any. -/
def variant? : (whole : Json) → Option (String × Option whole.Part)
  | .string name => some (name, none)
  | .object [(name, content)] =>
    some (name, some ⟨content, sizeOf_lt_of_mem_members List.mem_cons_self⟩)
  | _ => none

/-! ## Scalars -/

/-- Whether a value is null. -/
def isNull : Json → Bool
  | .null => true
  | _ => false

/-- A string. -/
def string? : Json → Option String
  | .string s => some s
  | _ => none

/-- A boolean. -/
def bool? : Json → Option Bool
  | .bool b => some b
  | _ => none

/-- A whole number between two bounds. -/
def integerIn? (least greatest : Int) : Json → Option Int
  | .integer n => if least ≤ n ∧ n ≤ greatest then some n else none
  | _ => none

/-- A whole number that fits into thirty-two unsigned bits. -/
def word32? (j : Json) : Option Nat :=
  (j.integerIn? 0 0xFFFFFFFF).map Int.toNat

/-- Any number, as a double. -/
def number? : Json → Option Float
  | .integer n => some (Float.ofInt n)
  | .float x => some x
  | _ => none

/-- An array whose items can all be read. -/
def list? {α : Type} (readItem : Json → Option α) (j : Json) : Option (List α) := do
  (← j.items?).mapM fun item => readItem item.1

/-- Whether the content of a case without content is as it must be. -/
def isEmptyContent {whole : Json} : Option whole.Part → Bool
  | none => true
  | some content => isNull content.1

end ObjectQuery.Json
