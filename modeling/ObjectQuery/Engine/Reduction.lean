import ObjectQuery.Engine.Functions

/-!
# Reducing selected values

The aggregates that look at nothing but the selected values, nulls left
out: their sum, their average, and their extremes. Strings add up to one
text. Nothing to add up gives null.
-/

namespace ObjectQuery.Value

/-- The values that are not null. -/
def presentOnly (values : List Value) : List Value :=
  values.filter fun v => !v.isNull

/-- The sum of several values, from left to right. -/
def sum (values : List Value) : Outcome Value :=
  match presentOnly values with
  | [] => .ok .null
  | first :: rest => rest.foldlM (arithmetic .add) first

/-- The sum divided by how many values there are; null where the sum is no
number. -/
def average (values : List Value) : Outcome Value := do
  let total ← sum values
  match total.number? with
  | some x => return .decimal (x / Float.ofNat (presentOnly values).length)
  | none => return .null

/-- The first of several values. -/
def first : List Value → Outcome Value
  | [] => .error .emptySequence
  | v :: _ => .ok v

/-- The only one of several values. -/
def single : List Value → Outcome Value
  | [] => .error .emptySequence
  | [v] => .ok v
  | _ => .error .moreThanOneElement

/-- The entries whose value equals none before it; `seen` holds the values
that were kept further to the left. -/
def distinctBy {α : Type} (value : α → Value) (seen : List Value) : List α → List α
  | [] => []
  | entry :: rest =>
    if seen.any (·.same (value entry)) then distinctBy value seen rest
    else entry :: distinctBy value (seen ++ [value entry]) rest

end ObjectQuery.Value
