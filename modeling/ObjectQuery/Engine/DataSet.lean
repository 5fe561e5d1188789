import ObjectQuery.Engine.Error
import ObjectQuery.Json.Reader

/-!
# Data sets

A data set gives the records of each entity. In JSON it is an object with a
list of objects for each entity. Of an entity that is listed twice the last
list counts, and of a member that a record repeats the last value.
-/

namespace ObjectQuery

/-- The records of each entity. -/
structure DataSet where
  /-- Entities with their records; of several entries for one entity the
  first counts. -/
  entities : List (String × List Record)

namespace DataSet

/-- The data set without entities. -/
def empty : DataSet := ⟨[]⟩

/-- The records of an entity. -/
def records (data : DataSet) (entity : String) : Outcome (List Record) :=
  match data.entities.lookup entity with
  | some records => .ok records
  | none => .error (.unknownEntity entity)

/-- The rows of an entity as a value. -/
def rows (data : DataSet) (entity : String) : Outcome Value := do
  return .list ((← data.records entity).map .row)

/-- Reads one record. -/
def recordOfJson? (j : Json) : Option Record :=
  match j.merged with
  | .object members => some members
  | _ => none

/-- Reads a data set. -/
def ofJson? : Json → Option DataSet
  | .object members => do
    let entities ← members.mapM fun (name, records) => do
      return (name, ← records.list? recordOfJson?)
    return ⟨entities.reverse⟩
  | _ => none

/-- Reads the text of a data set. -/
def ofText? (text : String) : Option DataSet := do
  ofJson? (← Json.readBounded? text)

end DataSet

end ObjectQuery
