import ObjectQuery.Engine.Operators
import ObjectQuery.Text.Blank
import ObjectQuery.Text.LetterCase
import ObjectQuery.Text.Replace

/-!
# The functions of the query language

A function takes the values of all its arguments. Those with one argument
look at the first and take a missing one for null; what else they are given
does not matter. Null in gives null out, except that a null collection
counts as an empty one.
-/

namespace ObjectQuery.Value

/-- A function on a string, by name. -/
def onString (name : String) (f : String → Value) : Value → Outcome Value
  | .string s => .ok (f s)
  | .null => .ok .null
  | v => mismatch (.function name) v

/-- A function on the length of a list, by name. -/
def onLength (name : String) (f : Nat → Value) : Value → Outcome Value
  | .list items => .ok (f items.length)
  | .null => .ok (f 0)
  | v => mismatch (.function name) v

/-- A count as a value. -/
def ofCount (n : Nat) : Value :=
  .integer (Int64.ofNat n)

/-- The magnitude of a number. -/
def abs : Value → Outcome Value
  | .integer n => orOverflow (.abs n) (Word64.abs? n)
  | .decimal x => .ok (.decimal x.abs)
  | .null => .ok .null
  | v => mismatch (.function "abs") v

/-- The text that a value contributes to a longer one. -/
def contribution : Value → String
  | .string s => s
  | v => v.text

/-- All values written one after the other; null if one of them is. -/
def concat (values : List Value) : Value :=
  if values.any isNull then .null else .string (String.join (values.map contribution))

/-- Every occurrence of one text in another replaced by a third. -/
def replace (arguments : List Value) : Outcome Value :=
  match arguments with
  | [.string s, .string old, .string new] => .ok (.string (Text.replace s old new))
  | [a, b, c] =>
    if a.isNull || b.isNull || c.isNull then .ok .null else mismatch (.function "replace") a
  | _ => mismatch (.function "replace") (arguments.headD .null)

/-- A call of the function of that name. -/
def call (name : String) (arguments : List Value) : Outcome Value :=
  let first := arguments.headD .null
  match name with
  | "exists" => onLength name (fun n => .boolean (n != 0)) first
  | "size" => onLength name ofCount first
  | "upper" => onString name (fun s => .string (Text.upper s)) first
  | "lower" => onString name (fun s => .string (Text.lower s)) first
  | "trim" => onString name (fun s => .string (Text.trim s)) first
  | "length" => onString name (fun s => ofCount s.length) first
  | "abs" => abs first
  | "concat" => .ok (concat arguments)
  | "replace" => replace arguments
  | "least" => .ok (extreme .lt arguments)
  | _ => .error (.unknownFunction name)

end ObjectQuery.Value
