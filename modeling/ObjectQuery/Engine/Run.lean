import ObjectQuery.Engine.DataSet
import ObjectQuery.Engine.Reduction

/-!
# Running a query

A query runs over a data set. Its rows are scopes: each binds the names of
all sources of the query, and of the queries around it, to one item. The
sources are multiplied out with the join conditions as filters; then the
filters and the order apply, every remaining scope is projected to a value,
repeated values are dropped, and rows are skipped and taken. What is left is
the list of values, or is reduced by the aggregate.

A filter keeps a scope when its condition is definitely true; an unknown
one drops it. A subquery runs in the scope of the node that holds it. The
numbers of rows to skip and to take, and the item whose presence is tested,
belong to no row of the query and are evaluated in the scope around it.

Evaluation goes from left to right and stops at the first error.

## Main definitions

* `Node.eval` — the value of a node in a scope.
* `Query.run` — the result of a query in the scope around it.
* `Query.execute` — the result of a query on its own.
-/

namespace ObjectQuery

/-- The names bound at a node, the innermost first. -/
abbrev Scope : Type := List (String × Value)

/-- What a query runs on. -/
structure Environment where
  data : DataSet
  /-- The values supplied for parameters. -/
  parameters : List (String × Value)

/-- A row of a query: the selected value and the scope it was selected in. -/
structure Row where
  value : Value
  scope : Scope

/-! ## Steps of a query -/

/-- The item bound to a name. -/
def Scope.item (scope : Scope) (name : String) : Outcome Value :=
  match scope.lookup name with
  | some v => .ok v
  | none => .error (.unboundName name)

/-- The items of a source. A null source has none. -/
def sourceItems : Value → Outcome (List Value)
  | .list items => .ok items
  | .null => .ok []
  | v => mismatch .source v

/-- A number of rows. A negative one counts as zero. -/
def rowCount : Value → Outcome Nat
  | .integer n => .ok n.toInt.toNat
  | v => mismatch .paging v

/-- The scopes in which a condition is true. -/
def keepTrue (condition : Scope → Outcome Value) : List Scope → Outcome (List Scope)
  | [] => .ok []
  | scope :: rest => do
    let v ← condition scope
    let kept ← keepTrue condition rest
    return if v.isTrue then scope :: kept else kept

/-- The scopes that a join makes out of the scopes before it: each scope
with each of its items that meets the condition. -/
def joinScopes (name : String) (items : Scope → Outcome (List Value))
    (condition : Scope → Outcome Value) : List Scope → Outcome (List Scope)
  | [] => .ok []
  | scope :: rest => do
    let here ← items scope
    let kept ← keepTrue condition (here.map fun item => (name, item) :: scope)
    return kept ++ (← joinScopes name items condition rest)

/-- The scopes in the order of their keys; scopes with equal keys stay in
the order they were in. This stands for a stable sort only where the keys
sort consistently, that is, where the comparison is transitive on them. Of
other keys there is no order to sort into: what a sort makes of them depends
on the comparisons that it happens to make, and a sort of many scopes may
find them contradictory and give up. -/
def sortScopes (directions : List Direction) (keys : Scope → Outcome (List Value))
    (scopes : List Scope) : Outcome (List Scope) := do
  let keyed ← scopes.mapM fun scope => do return (← keys scope, scope)
  let sorted := keyed.mergeSort fun a b => Value.compareKeys directions a.1 b.1 != .gt
  return sorted.map (·.2)

/-- The rows that a projection makes out of scopes. -/
def selectRows (select : Scope → Outcome Value) (scopes : List Scope) : Outcome (List Row) :=
  scopes.mapM fun scope => do return ⟨← select scope, scope⟩

/-- Whether a condition is true in every row; the first row in which it is
not decides. -/
def allTrue (condition : Scope → Outcome Value) : List Row → Outcome Bool
  | [] => .ok true
  | row :: rest => do
    let v ← condition row.scope
    if v.isTrue then allTrue condition rest else return false

/-! ## Nodes and queries -/

namespace Hql

mutual

/-- The value of a node in a scope. -/
def Node.eval (env : Environment) : Node → Scope → Outcome Value
  | .constant (.queryable entity), _ => env.data.rows entity
  | .constant value, _ => .ok (.ofLiteral value)
  | .parameter name, _ =>
    match env.parameters.lookup name with
    | some v => .ok v
    | none => .error (.unboundParameter name)
  | .entity name, _ => env.data.rows name
  | .ident name, scope => scope.item name
  | .dot target property, scope => do
    match ← target.eval env scope with
    | .row record => return ((record.lookup property).map Value.ofJson).getD .null
    | .null => return .null
    | v => mismatch (.property property) v
  | .binary operator left right, scope => do
    let a ← left.eval env scope
    let b ← right.eval env scope
    Value.binary operator a b
  | .not operand, scope => do (← operand.eval env scope).not
  | .negate operand, scope => do (← operand.eval env scope).negate
  | .cast operand type, scope => do return (← operand.eval env scope).cast type
  | .choice whens otherwise, scope => do
    match ← evalWhens env whens scope with
    | some v => return v
    | none => evalOption env otherwise scope
  | .coalesce left right, scope => do
    let v ← left.eval env scope
    if v.isNull then right.eval env scope else return v
  | .isNull operand, scope => do return .boolean (← operand.eval env scope).isNull
  | .isNotNull operand, scope => do return .boolean !(← operand.eval env scope).isNull
  | .function name arguments, scope => do Value.call name (← evalAll env arguments scope)
  | .like operand pattern escape, scope => do
    let s ← operand.eval env scope
    let p ← pattern.eval env scope
    Value.like escape s p
  | .among item collection, scope => do
    let v ← item.eval env scope
    let items ← sourceItems (← collection.eval env scope)
    return if v.isNull then .null else .boolean (v.isAmong items)
  | .nonempty query, scope => do
    match ← query.run env scope with
    | .list items => return .boolean !items.isEmpty
    | v => return .boolean !v.isNull
  | .subquery query, scope => query.run env scope

/-- The values of several nodes. -/
def evalAll (env : Environment) : List Node → Scope → Outcome (List Value)
  | [], _ => .ok []
  | node :: rest, scope => do
    let v ← node.eval env scope
    return v :: (← evalAll env rest scope)

/-- The value of a node that may be absent; an absent one is null. -/
def evalOption (env : Environment) : Option Node → Scope → Outcome Value
  | none, _ => .ok .null
  | some node, scope => node.eval env scope

/-- The value beside the first condition that is true, if there is one. -/
def evalWhens (env : Environment) : List (Node × Node) → Scope → Outcome (Option Value)
  | [], _ => .ok none
  | (condition, value) :: rest, scope => do
    if (← condition.eval env scope).isTrue then return some (← value.eval env scope)
    else evalWhens env rest scope

/-- The scopes after all joins. -/
def runJoins (env : Environment) : List Join → List Scope → Outcome (List Scope)
  | [], scopes => .ok scopes
  | ⟨source, name, on⟩ :: rest, scopes => do
    let joined ← joinScopes name (fun scope => do sourceItems (← source.eval env scope))
      (on.eval env) scopes
    runJoins env rest joined

/-- The scopes that pass a filter, if there is one. -/
def runFilter (env : Environment) : Option Node → List Scope → Outcome (List Scope)
  | none, scopes => .ok scopes
  | some condition, scopes => keepTrue (condition.eval env) scopes

/-- The keys of a scope. -/
def evalKeys (env : Environment) : List OrderKey → Scope → Outcome (List Value)
  | [], _ => .ok []
  | ⟨key, _⟩ :: rest, scope => do
    let v ← key.eval env scope
    return v :: (← evalKeys env rest scope)

/-- A number of rows that may be absent. -/
def evalCount (env : Environment) : Option Node → Scope → Outcome (Option Nat)
  | none, _ => .ok none
  | some node, scope => do return some (← rowCount (← node.eval env scope))

/-- The rows reduced by the aggregate, or listed where there is none. -/
def runAggregate (env : Environment) : Option Aggregate → List Row → Scope → Outcome Value
  | none, rows, _ => .ok (.list (rows.map Row.value))
  | some .count, rows, _ => .ok (.ofCount rows.length)
  | some .any, rows, _ => .ok (.boolean !rows.isEmpty)
  | some (.all predicate), rows, _ => do
    return .boolean (← allTrue (predicate.eval env) rows)
  | some (.contains item), rows, outer => do
    let v ← item.eval env outer
    return .boolean (v.isAmong (rows.map Row.value))
  | some .first, rows, _ => Value.first (rows.map Row.value)
  | some .single, rows, _ => Value.single (rows.map Row.value)
  | some .sum, rows, _ => Value.sum (rows.map Row.value)
  | some .average, rows, _ => Value.average (rows.map Row.value)
  | some .min, rows, _ => .ok (Value.extreme .lt (rows.map Row.value))
  | some .max, rows, _ => .ok (Value.extreme .gt (rows.map Row.value))

/-- The result of a query in the scope around it. -/
def Query.run (env : Environment) : Query → Scope → Outcome Value
  | ⟨source, name, joins, filter, having, order, select, distinct, skip, take, aggregate⟩,
      outer => do
    let items ← sourceItems (← source.eval env outer)
    let scopes ← runJoins env joins (items.map fun item => (name, item) :: outer)
    let scopes ← runFilter env filter scopes
    let scopes ← runFilter env having scopes
    let scopes ← sortScopes (order.map OrderKey.direction) (evalKeys env order) scopes
    let rows ← selectRows
      (fun scope =>
        match select with
        | some node => node.eval env scope
        | none => scope.item name)
      scopes
    let rows := if distinct then Value.distinctBy Row.value [] rows else rows
    let skipped ← evalCount env skip outer
    let rows := rows.drop (skipped.getD 0)
    let taken ← evalCount env take outer
    let rows := rows.take (taken.getD rows.length)
    runAggregate env aggregate rows outer

end

/-- The result of a query on its own. -/
def Query.execute (query : Query) (env : Environment) : Outcome Value :=
  query.run env []

end Hql

end ObjectQuery
