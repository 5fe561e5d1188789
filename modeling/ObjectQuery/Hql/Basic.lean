import ObjectQuery.Expr.Basic

/-!
# Trees of the query language

The target of lowering: nodes, which denote values, and queries, which
denote lists of values or, with an aggregate, one value. A node may hold a
query as a subquery and a query is made of nodes, so the two are defined
together.

In a query everything that the ordered result operators of a model say has
its own place: whether equal rows are dropped, how many rows are skipped
and kept, and the final aggregate.
-/

namespace ObjectQuery.Hql

mutual

/-- A node of the tree. -/
inductive Node where
  | constant (value : Literal)
  /-- A value supplied when the query runs. -/
  | parameter (name : String)
  /-- All rows of an entity. -/
  | entity (name : String)
  /-- The current item of the source of that name. -/
  | ident (name : String)
  /-- A property of a row. -/
  | dot (target : Node) (property : String)
  | binary (operator : BinaryOperator) (left right : Node)
  | not (operand : Node)
  | negate (operand : Node)
  | cast (operand : Node) (type : StaticType)
  /-- The value beside the first condition that holds, else the last one. -/
  | choice (whens : List (Node × Node)) (otherwise : Option Node)
  /-- The left operand, or the right one where the left is null. -/
  | coalesce (left right : Node)
  | isNull (operand : Node)
  | isNotNull (operand : Node)
  | function (name : String) (arguments : List Node)
  /-- Whether a text matches a pattern. -/
  | like (operand pattern : Node) (escape : Option Char)
  /-- Whether an item is among the elements of a collection. -/
  | among (item collection : Node)
  /-- Whether a query has any row. -/
  | nonempty (query : Query)
  | subquery (query : Query)

/-- A further source and the condition under which its items join. -/
structure Join where
  source : Node
  name : String
  on : Node

/-- A key to order by. -/
structure OrderKey where
  key : Node
  direction : Direction

/-- The reduction of the rows of a query to one value. -/
inductive Aggregate where
  | count
  | sum
  | min
  | max
  | average
  /-- Whether there is any row. -/
  | any
  /-- Whether a predicate holds for every row. -/
  | all (predicate : Node)
  /-- Whether an item is among the selected values. -/
  | contains (item : Node)
  | first
  | single

/-- A query. -/
structure Query where
  source : Node
  /-- The name by which nodes refer to an item of the source. -/
  name : String
  joins : List Join
  filter : Option Node
  having : Option Node
  order : List OrderKey
  /-- The projection; without one the items of the source are selected. -/
  select : Option Node
  distinct : Bool
  skip : Option Node
  take : Option Node
  aggregate : Option Aggregate

end

instance : Inhabited Node := ⟨.constant .null⟩

/-- A query that reads from a source and does nothing else. -/
def Query.ofSource (source : Node) (name : String) : Query :=
  ⟨source, name, [], none, none, [], none, false, none, none, none⟩

end ObjectQuery.Hql
