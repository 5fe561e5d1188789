import ObjectQuery.Hql.Build

/-!
# The tail of a query

A model ends in an ordered list of operators. A query has one place each for
dropping repeated values, skipping rows, taking rows and the aggregate, and
applies them in this order. The tail is these four places. What a further
operator adds to it is said here, with the operand already lowered:
several skips add up, several takes keep the least number.
-/

namespace ObjectQuery

open Hql (Node Query Aggregate)

/-- What a query does with its selected rows. -/
structure Tail where
  distinct : Bool
  skip : Option Node
  take : Option Node
  aggregate : Option Aggregate

namespace Tail

/-- The tail that does nothing. -/
def empty : Tail := ⟨false, none, none, none⟩

/-- Takes a number of rows of what is left. -/
def taking (tail : Tail) (count : Node) : Tail :=
  { tail with take := some <|
      match tail.take with
      | some previous => .function "least" [previous, count]
      | none => count }

/-- Skips a number of rows of what is left. -/
def skipping (tail : Tail) (count : Node) : Tail :=
  { tail with skip := some <|
      match tail.skip with
      | some previous => .binary .add previous count
      | none => count }

/-- Drops repeated values. -/
def distinctly (tail : Tail) : Tail :=
  { tail with distinct := true }

/-- Ends in an aggregate. -/
def reducedBy (tail : Tail) (aggregate : Aggregate) : Tail :=
  { tail with aggregate := some aggregate }

end Tail

/-- The node of a subquery. A query that only asks for the existence of a
row, of which no rows are skipped or taken, is a test for existence: what it
selects does not matter then. -/
def Hql.Node.ofQuery (query : Query) : Node :=
  match query.aggregate, query.skip, query.take with
  | some .any, none, none =>
    .nonempty { query with aggregate := none, select := none, distinct := false }
  | _, _, _ => .subquery query

end ObjectQuery
