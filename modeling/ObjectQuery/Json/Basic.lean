/-!
# JSON values

A JSON value as its text describes it. Whole numbers that a text writes
without a point or an exponent stay whole and exact; every other number is
a double. Objects are lists of members in the order of the text, and a
member may be repeated. `Json.merged` is the reading in which a repeated
member keeps its first place and takes its last value.

Recursive readers of JSON go from a value to its parts. `Json.Part` is a
value that comes with the proof that it is smaller, which is all that such
a reader needs in order to end.
-/

namespace ObjectQuery

/-- A JSON value. -/
inductive Json where
  | null
  | bool (b : Bool)
  /-- A number without point and exponent. -/
  | integer (n : Int)
  /-- Any other number. -/
  | float (x : Float)
  | string (s : String)
  | array (items : List Json)
  | object (members : List (String × Json))
  deriving Inhabited

namespace Json

/-! ## Repeated members -/

/-- Writes a member: in its old place if there is one of that name, else at
the end. -/
def setMember (name : String) (value : Json) : List (String × Json) → List (String × Json)
  | [] => [(name, value)]
  | (key, old) :: rest =>
    if key = name then (key, value) :: rest else (key, old) :: setMember name value rest

/-- Members with each name once: a repeated one keeps its first place and
takes its last value. -/
def mergeMembers (members : List (String × Json)) : List (String × Json) :=
  members.foldl (fun done (name, value) => setMember name value done) []

mutual

/-- The value in which no object, however deep, repeats a member. -/
def merged : Json → Json
  | .array items => .array (mergedItems items)
  | .object members => .object (mergeMembers (mergedMembers members))
  | .null => .null
  | .bool b => .bool b
  | .integer n => .integer n
  | .float x => .float x
  | .string s => .string s

/-- `merged` on every item. -/
def mergedItems : List Json → List Json
  | [] => []
  | item :: rest => item.merged :: mergedItems rest

/-- `merged` on every member's value. -/
def mergedMembers : List (String × Json) → List (String × Json)
  | [] => []
  | (name, value) :: rest => (name, value.merged) :: mergedMembers rest

end

/-! ## Equality -/

mutual

/-- Whether two values are the same when the order of members is ignored.
A whole number is never the same as a double, and two doubles are compared
as numbers. -/
def same : Json → Json → Bool
  | .null, .null => true
  | .bool a, .bool b => a == b
  | .integer a, .integer b => a == b
  | .float a, .float b => a == b
  | .string a, .string b => a == b
  | .array as, .array bs => sameItems as bs
  | .object as, .object bs => as.length == bs.length && sameMembers as bs
  | _, _ => false

/-- Whether two lists hold the same values in the same order. -/
def sameItems : List Json → List Json → Bool
  | [], [] => true
  | a :: as, b :: bs => a.same b && sameItems as bs
  | _, _ => false

/-- Whether `others` has, for every member of the list, one of that name
with the same value. -/
def sameMembers : List (String × Json) → List (String × Json) → Bool
  | [], _ => true
  | (name, value) :: rest, others =>
    (match others.lookup name with
      | some other => value.same other
      | none => false) && sameMembers rest others

end

/-! ## Parts -/

/-- A value smaller than `whole`. -/
def Part (whole : Json) : Type :=
  { part : Json // sizeOf part < sizeOf whole }

theorem sizeOf_lt_of_mem_items {items : List Json} {item : Json} (h : item ∈ items) :
    sizeOf item < sizeOf (Json.array items) := by
  have := List.sizeOf_lt_of_mem h
  simp only [Json.array.sizeOf_spec]
  omega

theorem sizeOf_lt_of_mem_members {members : List (String × Json)} {name : String}
    {value : Json} (h : (name, value) ∈ members) :
    sizeOf value < sizeOf (Json.object members) := by
  have := List.sizeOf_lt_of_mem h
  simp only [Json.object.sizeOf_spec, Prod.mk.sizeOf_spec] at *
  omega

/-- The items of an array. -/
def items? : (whole : Json) → Option (List whole.Part)
  | .array items =>
    some (items.attach.map fun ⟨item, h⟩ => ⟨item, sizeOf_lt_of_mem_items h⟩)
  | _ => none

/-- The members of an object. -/
def members? : (whole : Json) → Option (List (String × whole.Part))
  | .object members =>
    some (members.attach.map fun ⟨(name, value), h⟩ =>
      (name, ⟨value, sizeOf_lt_of_mem_members h⟩))
  | _ => none

end Json

end ObjectQuery
