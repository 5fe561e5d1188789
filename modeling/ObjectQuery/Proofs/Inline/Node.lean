import ObjectQuery.Proofs.Engine.Follows

/-!
# A literal in the place of a parameter

A query is run with values for its parameters. A value that is known before
can as well be written into the query: the query with a literal in the place
of a parameter has in every environment the results that the query itself
has where the parameter is bound to the value of the literal. Evaluation
does not notice the difference at any node, so the two do not even fail in
different ways.

The literal has to be a scalar. The queryable of an entity has no value of
its own, and the null constant means more than its value: beside it an
equality becomes a test for null.

## Main definitions

* `Environment.Supplies` — an environment binds a parameter besides all others.
* `Hql.Node.inline`, `Hql.Query.inline` — a literal in the place of a parameter.

## Main results

* `Hql.Node.inline_eval`, `Hql.Query.inline_run` — inlining is binding.
-/

namespace ObjectQuery

/-- Whether a literal is a single value other than null. -/
def Literal.isScalar : Literal → Bool
  | .boolean _ | .integer _ | .float _ | .string _ => true
  | .null | .queryable _ => false

/-- The second environment binds a parameter to a value. In all other respects
it is like the first one. -/
structure Environment.Supplies (name : String) (value : Value) (env bound : Environment) :
    Prop where
  data : bound.data = env.data
  binds : bound.parameters.lookup name = some value
  others : ∀ other, other ≠ name →
    bound.parameters.lookup other = env.parameters.lookup other

/-- A binding put before all others supplies the parameter. -/
theorem Environment.supplies_cons (env : Environment) (name : String) (value : Value) :
    env.Supplies name value ⟨env.data, (name, value) :: env.parameters⟩ := by
  refine ⟨rfl, List.lookup_cons_self, ?_⟩
  intro other hother
  rw [List.lookup_cons, beq_eq_false_iff_ne.mpr hother]

namespace Hql

/-! ## Inlining -/

mutual

/-- The node with a literal in the place of a parameter. -/
def Node.inline (name : String) (value : Literal) : Node → Node
  | .constant literal => .constant literal
  | .parameter other => if other = name then .constant value else .parameter other
  | .entity entity => .entity entity
  | .ident item => .ident item
  | .dot target property => .dot (target.inline name value) property
  | .binary operator left right =>
    .binary operator (left.inline name value) (right.inline name value)
  | .not operand => .not (operand.inline name value)
  | .negate operand => .negate (operand.inline name value)
  | .cast operand type => .cast (operand.inline name value) type
  | .choice whens otherwise =>
    .choice (inlineWhens name value whens) (inlineOption name value otherwise)
  | .coalesce left right => .coalesce (left.inline name value) (right.inline name value)
  | .isNull operand => .isNull (operand.inline name value)
  | .isNotNull operand => .isNotNull (operand.inline name value)
  | .function function arguments => .function function (inlineAll name value arguments)
  | .like operand pattern escape =>
    .like (operand.inline name value) (pattern.inline name value) escape
  | .among item collection => .among (item.inline name value) (collection.inline name value)
  | .nonempty query => .nonempty (query.inline name value)
  | .subquery query => .subquery (query.inline name value)

/-- Several nodes with a literal in the place of a parameter. -/
def inlineAll (name : String) (value : Literal) : List Node → List Node
  | [] => []
  | node :: rest => node.inline name value :: inlineAll name value rest

/-- A node that may be absent, with a literal in the place of a parameter. -/
def inlineOption (name : String) (value : Literal) : Option Node → Option Node
  | none => none
  | some node => some (node.inline name value)

/-- Conditions and the values beside them, with a literal in the place of a
parameter. -/
def inlineWhens (name : String) (value : Literal) : List (Node × Node) → List (Node × Node)
  | [] => []
  | (condition, result) :: rest =>
    (condition.inline name value, result.inline name value) :: inlineWhens name value rest

/-- Joins with a literal in the place of a parameter. -/
def inlineJoins (name : String) (value : Literal) : List Join → List Join
  | [] => []
  | ⟨source, item, on⟩ :: rest =>
    ⟨source.inline name value, item, on.inline name value⟩ :: inlineJoins name value rest

/-- Ordering keys with a literal in the place of a parameter. -/
def inlineOrder (name : String) (value : Literal) : List OrderKey → List OrderKey
  | [] => []
  | ⟨key, direction⟩ :: rest => ⟨key.inline name value, direction⟩ :: inlineOrder name value rest

/-- An aggregate with a literal in the place of a parameter. -/
def inlineAggregate (name : String) (value : Literal) : Option Aggregate → Option Aggregate
  | some (.all predicate) => some (.all (predicate.inline name value))
  | some (.contains item) => some (.contains (item.inline name value))
  | aggregate => aggregate

/-- The query with a literal in the place of a parameter. -/
def Query.inline (name : String) (value : Literal) : Query → Query
  | ⟨source, item, joins, filter, having, order, select, distinct, skip, take, aggregate⟩ =>
    ⟨source.inline name value, item, inlineJoins name value joins,
      inlineOption name value filter, inlineOption name value having,
      inlineOrder name value order, inlineOption name value select, distinct,
      inlineOption name value skip, inlineOption name value take,
      inlineAggregate name value aggregate⟩

end

/-- The join with a literal in the place of a parameter. -/
def Join.inline (name : String) (value : Literal) (j : Join) : Join :=
  ⟨j.source.inline name value, j.name, j.on.inline name value⟩

/-- The ordering key with a literal in the place of a parameter. -/
def OrderKey.inline (name : String) (value : Literal) (k : OrderKey) : OrderKey :=
  ⟨k.key.inline name value, k.direction⟩

/-- The aggregate with a literal in the place of a parameter. -/
def Aggregate.inline (name : String) (value : Literal) : Aggregate → Aggregate
  | .all predicate => .all (predicate.inline name value)
  | .contains item => .contains (item.inline name value)
  | aggregate => aggregate

section

variable {name : String} {value : Literal}

theorem inlineOption_eq (o : Option Node) :
    inlineOption name value o = o.map (Node.inline name value) := by
  cases o <;> rfl

theorem inlineJoins_eq (joins : List Join) :
    inlineJoins name value joins = joins.map (Join.inline name value) := by
  induction joins with
  | nil => rfl
  | cons j rest ih =>
      obtain ⟨source, item, on⟩ := j
      rw [inlineJoins, ih]
      rfl

theorem inlineOrder_eq (order : List OrderKey) :
    inlineOrder name value order = order.map (OrderKey.inline name value) := by
  induction order with
  | nil => rfl
  | cons k rest ih =>
      obtain ⟨key, direction⟩ := k
      rw [inlineOrder, ih]
      rfl

theorem inlineAggregate_eq (aggregate : Option Aggregate) :
    inlineAggregate name value aggregate = aggregate.map (Aggregate.inline name value) := by
  cases aggregate with
  | none => rfl
  | some aggregate => cases aggregate <;> rfl

end

/-! ## Inlining is binding -/

section

variable {name : String} {value : Literal} {env bound : Environment}

private theorem constant_eval_of_isScalar (hscalar : value.isScalar = true) (scope : Scope) :
    (Node.constant value).eval env scope = .ok (.ofLiteral value) := by
  cases value with
  | queryable entity => cases hscalar
  | _ => simp [Node.eval]

private theorem inlineOrder_directions (name : String) (value : Literal) (order : List OrderKey) :
    (inlineOrder name value order).map OrderKey.direction = order.map OrderKey.direction := by
  induction order with
  | nil => rw [inlineOrder]
  | cons k rest ih =>
      obtain ⟨key, direction⟩ := k
      rw [inlineOrder, List.map_cons, List.map_cons, ih]

variable (hscalar : value.isScalar = true) (h : env.Supplies name (.ofLiteral value) bound)

include hscalar h

-- the linter does not see uses by way of the other theorems
set_option linter.unusedSectionVars false

mutual

theorem Node.inline_eval : ∀ (n : Node) (scope : Scope),
    (n.inline name value).eval env scope = n.eval bound scope
  | .constant literal, scope => by
      rw [Node.inline]
      cases literal with
      | queryable entity => rw [Node.eval, Node.eval, h.data]
      | _ => simp [Node.eval]
  | .parameter other, scope => by
      rw [Node.inline]
      by_cases hname : other = name
      · rw [if_pos hname, constant_eval_of_isScalar hscalar, Node.eval, hname, h.binds]
      · rw [if_neg hname, Node.eval, Node.eval, h.others other hname]
  | .entity entity, scope => by
      rw [Node.inline, Node.eval, Node.eval, h.data]
  | .ident item, scope => by
      rw [Node.inline, Node.eval, Node.eval]
  | .dot target property, scope => by
      rw [Node.inline, Node.eval, Node.eval, Node.inline_eval target]
  | .binary operator left right, scope => by
      rw [Node.inline, Node.eval, Node.eval, Node.inline_eval left, Node.inline_eval right]
  | .not operand, scope => by
      rw [Node.inline, Node.eval, Node.eval, Node.inline_eval operand]
  | .negate operand, scope => by
      rw [Node.inline, Node.eval, Node.eval, Node.inline_eval operand]
  | .cast operand type, scope => by
      rw [Node.inline, Node.eval, Node.eval, Node.inline_eval operand]
  | .choice whens otherwise, scope => by
      rw [Node.inline, Node.eval, Node.eval, inlineWhens_eval whens, inlineOption_eval otherwise]
  | .coalesce left right, scope => by
      rw [Node.inline, Node.eval, Node.eval, Node.inline_eval left, Node.inline_eval right]
  | .isNull operand, scope => by
      rw [Node.inline, Node.eval, Node.eval, Node.inline_eval operand]
  | .isNotNull operand, scope => by
      rw [Node.inline, Node.eval, Node.eval, Node.inline_eval operand]
  | .function function arguments, scope => by
      rw [Node.inline, Node.eval, Node.eval, inlineAll_eval arguments]
  | .like operand pattern escape, scope => by
      rw [Node.inline, Node.eval, Node.eval, Node.inline_eval operand, Node.inline_eval pattern]
  | .among item collection, scope => by
      rw [Node.inline, Node.eval, Node.eval, Node.inline_eval item, Node.inline_eval collection]
  | .nonempty query, scope => by
      rw [Node.inline, Node.eval, Node.eval, Query.inline_run query]
  | .subquery query, scope => by
      rw [Node.inline, Node.eval, Node.eval, Query.inline_run query]

theorem inlineAll_eval : ∀ (ns : List Node) (scope : Scope),
    evalAll env (inlineAll name value ns) scope = evalAll bound ns scope
  | [], scope => by
      rw [inlineAll, evalAll, evalAll]
  | node :: rest, scope => by
      rw [inlineAll, evalAll, evalAll, Node.inline_eval node, inlineAll_eval rest]

theorem inlineOption_eval : ∀ (o : Option Node) (scope : Scope),
    evalOption env (inlineOption name value o) scope = evalOption bound o scope
  | none, scope => by
      rw [inlineOption, evalOption, evalOption]
  | some node, scope => by
      rw [inlineOption, evalOption, evalOption, Node.inline_eval node]

theorem inlineWhens_eval : ∀ (whens : List (Node × Node)) (scope : Scope),
    evalWhens env (inlineWhens name value whens) scope = evalWhens bound whens scope
  | [], scope => by
      rw [inlineWhens, evalWhens, evalWhens]
  | (condition, result) :: rest, scope => by
      rw [inlineWhens, evalWhens, evalWhens, Node.inline_eval condition, Node.inline_eval result,
        inlineWhens_eval rest]

theorem inlineJoins_run : ∀ (joins : List Join) (scopes : List Scope),
    runJoins env (inlineJoins name value joins) scopes = runJoins bound joins scopes
  | [], scopes => by
      rw [inlineJoins, runJoins, runJoins]
  | ⟨source, item, on⟩ :: rest, scopes => by
      have hon : (on.inline name value).eval env = on.eval bound := funext (Node.inline_eval on)
      have hrest : runJoins env (inlineJoins name value rest) = runJoins bound rest :=
        funext (inlineJoins_run rest)
      rw [inlineJoins, runJoins, runJoins, hon, hrest]
      simp only [Node.inline_eval source]

theorem inlineFilter_run : ∀ (filter : Option Node) (scopes : List Scope),
    runFilter env (inlineOption name value filter) scopes = runFilter bound filter scopes
  | none, scopes => by
      rw [inlineOption, runFilter, runFilter]
  | some condition, scopes => by
      have hcondition : (condition.inline name value).eval env = condition.eval bound :=
        funext (Node.inline_eval condition)
      rw [inlineOption, runFilter, runFilter, hcondition]

theorem inlineOrder_eval : ∀ (order : List OrderKey) (scope : Scope),
    evalKeys env (inlineOrder name value order) scope = evalKeys bound order scope
  | [], scope => by
      rw [inlineOrder, evalKeys, evalKeys]
  | ⟨key, direction⟩ :: rest, scope => by
      rw [inlineOrder, evalKeys, evalKeys, Node.inline_eval key, inlineOrder_eval rest]

theorem inlineCount_eval : ∀ (count : Option Node) (scope : Scope),
    evalCount env (inlineOption name value count) scope = evalCount bound count scope
  | none, scope => by
      rw [inlineOption, evalCount, evalCount]
  | some node, scope => by
      rw [inlineOption, evalCount, evalCount, Node.inline_eval node]

theorem inlineAggregate_run : ∀ (aggregate : Option Aggregate) (rows : List Row) (outer : Scope),
    runAggregate env (inlineAggregate name value aggregate) rows outer =
      runAggregate bound aggregate rows outer
  | some (.all predicate), rows, outer => by
      have hpredicate : (predicate.inline name value).eval env = predicate.eval bound :=
        funext (Node.inline_eval predicate)
      rw [inlineAggregate, runAggregate, runAggregate, hpredicate]
  | some (.contains item), rows, outer => by
      rw [inlineAggregate, runAggregate, runAggregate, Node.inline_eval item]
  | none, rows, outer => rfl
  | some .count, rows, outer => rfl
  | some .sum, rows, outer => rfl
  | some .min, rows, outer => rfl
  | some .max, rows, outer => rfl
  | some .average, rows, outer => rfl
  | some .any, rows, outer => rfl
  | some .first, rows, outer => rfl
  | some .single, rows, outer => rfl

theorem Query.inline_run : ∀ (q : Query) (outer : Scope),
    (q.inline name value).run env outer = q.run bound outer
  | ⟨source, item, joins, filter, having, order, select, distinct, skip, take, aggregate⟩,
      outer => by
      have hjoins : runJoins env (inlineJoins name value joins) = runJoins bound joins :=
        funext (inlineJoins_run joins)
      have hkeys : evalKeys env (inlineOrder name value order) = evalKeys bound order :=
        funext (inlineOrder_eval order)
      rw [Query.inline, Query.run_eq, Query.run_eq]
      unfold Query.selected Query.finish Query.distinctRows
      simp only [Node.inline_eval source, hjoins, hkeys, inlineOrder_directions,
        inlineFilter_run filter, inlineFilter_run having, inlineCount_eval skip,
        inlineCount_eval take, inlineAggregate_run aggregate]
      cases select with
      | none => rfl
      | some node => simp only [inlineOption, Node.inline_eval node]

end

end

/-! ## Nodes that are built -/

section

variable {name : String} {value : Literal}

/-- Inlining makes a constant of the parameter, and of nothing else. -/
theorem Node.inline_constant?_cases (name : String) (value : Literal) (n : Node) :
    (n = .parameter name ∧ n.inline name value = .constant value) ∨
      (n.inline name value).constant? = n.constant? := by
  cases n with
  | parameter other =>
      rw [inline]
      by_cases hname : other = name
      · exact .inl ⟨by rw [hname], if_pos hname⟩
      · rw [if_neg hname]
        exact .inr rfl
  | _ => exact .inr (by simp [inline, constant?])

/-- No scalar is null. -/
theorem Node.inline_isNullConstant (hscalar : value.isScalar = true) (n : Node) :
    (n.inline name value).isNullConstant = n.isNullConstant := by
  unfold isNullConstant
  rcases inline_constant?_cases name value n with ⟨hn, hconstant⟩ | hsame
  · rw [hconstant, hn]
    cases value with
    | null => cases hscalar
    | _ => rfl
  · rw [hsame]

theorem Node.inline_equality (hscalar : value.isScalar = true) (a b : Node) :
    (a.equality b).inline name value = (a.inline name value).equality (b.inline name value) := by
  rw [equality_eq, equality_eq, inline_isNullConstant hscalar, inline_isNullConstant hscalar]
  split
  · rw [inline]
  · split <;> rw [inline]

private theorem Node.inline_inequality (hscalar : value.isScalar = true) (a b : Node) :
    (a.inequality b).inline name value =
      (a.inline name value).inequality (b.inline name value) := by
  rw [inequality_eq, inequality_eq, inline_isNullConstant hscalar, inline_isNullConstant hscalar]
  split
  · rw [inline]
  · split <;> rw [inline]

theorem Node.inline_ifThenElse (test a b : Node) :
    (ifThenElse test a b).inline name value =
      ifThenElse (test.inline name value) (a.inline name value) (b.inline name value) := by
  rw [ifThenElse, inline, inlineWhens, inlineWhens, inlineOption, ifThenElse]

theorem Node.inline_least (a b : Node) :
    (function "least" [a, b]).inline name value =
      function "least" [a.inline name value, b.inline name value] := by
  rw [inline, inlineAll, inlineAll, inlineAll]

theorem Node.inline_unaryNode (operator : UnaryOperator) (n : Node) (type : StaticType) :
    (unaryNode operator n type).inline name value =
      unaryNode operator (n.inline name value) type := by
  cases operator with
  | not => rw [unaryNode, inline, unaryNode]
  | negate => rw [unaryNode, inline, unaryNode]
  | convert => cases type <;> simp only [unaryNode, castTo, inline]

theorem Node.inline_binaryNode (hscalar : value.isScalar = true) (operator : BinaryOperator)
    (a b : Node) :
    (binaryNode operator a b).inline name value =
      binaryNode operator (a.inline name value) (b.inline name value) := by
  cases operator with
  | equal => exact inline_equality hscalar a b
  | notEqual => exact inline_inequality hscalar a b
  | _ => simp only [binaryNode, inline]

theorem Node.inline_ofQuery (q : Query) :
    (ofQuery q).inline name value = ofQuery (q.inline name value) := by
  obtain ⟨source, item, joins, filter, having, order, select, distinct, skip, take,
    aggregate⟩ := q
  cases aggregate with
  | none => rfl
  | some aggregate =>
      cases aggregate with
      | any => cases skip <;> cases take <;> rfl
      | _ => rfl

end

end Hql

end ObjectQuery
