import ObjectQuery.Lowering.Basic
import ObjectQuery.Proofs.Engine.Query

/-!
# Nodes and queries that follow others

A node follows another one if it has the same value in every scope of every
run, or, laxly, if it has that value wherever the other one has any. Every
way of building a node out of nodes respects this, and so does every way of
building a query, down to the value of a whole run.

Values alone do not decide what is built: a comparison with the null constant
becomes a test for null, and a constant text is escaped at once. So a node
that follows another one is moreover the same constant, if either is a
constant.

## Main definitions

* `Node.Follows`, `Query.Follows` — one node or query keeps the values of
  another.

## Main results

* `Query.Follows.run` — a query that follows another one keeps its results.
* `ofQuery_eval` — the value of a subquery, in terms of the value of its
  source.
-/

namespace ObjectQuery

/-! ## Steps of a run -/

section

variable {lax : Bool}

private theorem keepTrue_keeps {condition condition' : Scope → Outcome Value}
    (h : ∀ scope, Keeps lax (condition scope) (condition' scope)) (scopes : List Scope) :
    Keeps lax (keepTrue condition scopes) (keepTrue condition' scopes) := by
  induction scopes with
  | nil => exact .refl _
  | cons scope rest ih =>
      unfold keepTrue
      exact (h scope).bind fun v => ih.bind_right _

private theorem joinScopes_keeps {name : String} {items items' : Scope → Outcome (List Value)}
    {condition condition' : Scope → Outcome Value}
    (hitems : ∀ scope, Keeps lax (items scope) (items' scope))
    (hcondition : ∀ scope, Keeps lax (condition scope) (condition' scope))
    (scopes : List Scope) :
    Keeps lax (joinScopes name items condition scopes)
      (joinScopes name items' condition' scopes) := by
  induction scopes with
  | nil => exact .refl _
  | cons scope rest ih =>
      unfold joinScopes
      refine (hitems scope).bind fun here => ?_
      exact (keepTrue_keeps hcondition _).bind fun kept => ih.bind_right _

private theorem sortScopes_keeps {keys keys' : Scope → Outcome (List Value)}
    (h : ∀ scope, Keeps lax (keys scope) (keys' scope)) (directions : List Direction)
    (scopes : List Scope) :
    Keeps lax (sortScopes directions keys scopes) (sortScopes directions keys' scopes) := by
  unfold sortScopes
  have hkeyed := Keeps.mapM (fun scope => (h scope).bind_right fun ks => pure (ks, scope)) scopes
  exact hkeyed.bind_right _

private theorem selectRows_keeps {select select' : Scope → Outcome Value}
    (h : ∀ scope, Keeps lax (select scope) (select' scope)) (scopes : List Scope) :
    Keeps lax (selectRows select scopes) (selectRows select' scopes) :=
  Keeps.mapM (fun scope => (h scope).bind_right _) scopes

private theorem allTrue_keeps {condition condition' : Scope → Outcome Value}
    (h : ∀ scope, Keeps lax (condition scope) (condition' scope)) (rows : List Row) :
    Keeps lax (allTrue condition rows) (allTrue condition' rows) := by
  induction rows with
  | nil => exact .refl _
  | cons row rest ih =>
      unfold allTrue
      refine (h row.scope).bind fun v => ?_
      cases v.isTrue with
      | true => exact ih
      | false => exact .refl _

end

namespace Hql

variable {lax : Bool}

/-! ## Nodes -/

/-- The constant that a node is, if it is one. -/
def Node.constant? : Node → Option Literal
  | .constant value => some value
  | _ => none

/-- The second node has the value of the first one and is the same constant,
if either is a constant. -/
structure Node.Follows (lax : Bool) (n n' : Node) : Prop where
  constant?_eq : n.constant? = n'.constant?
  eval : ∀ env scope, Keeps lax (n.eval env scope) (n'.eval env scope)

namespace Node.Follows

variable {n n' n'' a a' b b' c c' : Node}

theorem refl (n : Node) : n.Follows lax n := ⟨rfl, fun _ _ => .refl _⟩

theorem trans (h : n.Follows lax n') (h' : n'.Follows lax n'') : n.Follows lax n'' :=
  ⟨h.constant?_eq.trans h'.constant?_eq, fun env scope => (h.eval env scope).trans (h'.eval env scope)⟩

theorem dot (h : n.Follows lax n') (property : String) :
    (dot n property).Follows lax (dot n' property) := by
  refine ⟨rfl, fun env scope => ?_⟩
  rw [Node.eval, Node.eval]
  exact (h.eval env scope).bind_right _

private theorem not (h : n.Follows lax n') : (not n).Follows lax (not n') := by
  refine ⟨rfl, fun env scope => ?_⟩
  rw [Node.eval, Node.eval]
  exact (h.eval env scope).bind_right _

private theorem negate (h : n.Follows lax n') : (negate n).Follows lax (negate n') := by
  refine ⟨rfl, fun env scope => ?_⟩
  rw [Node.eval, Node.eval]
  exact (h.eval env scope).bind_right _

private theorem cast (h : n.Follows lax n') (type : StaticType) :
    (cast n type).Follows lax (cast n' type) := by
  refine ⟨rfl, fun env scope => ?_⟩
  rw [Node.eval, Node.eval]
  exact (h.eval env scope).bind_right _

private theorem castTo (h : n.Follows lax n') (type : StaticType) :
    (n.castTo type).Follows lax (n'.castTo type) := by
  cases type with
  | object => exact h
  | nullable inner => exact h
  | _ => exact h.cast _

private theorem isNull (h : n.Follows lax n') : (isNull n).Follows lax (isNull n') := by
  refine ⟨rfl, fun env scope => ?_⟩
  rw [Node.eval, Node.eval]
  exact (h.eval env scope).bind_right _

private theorem isNotNull (h : n.Follows lax n') : (isNotNull n).Follows lax (isNotNull n') := by
  refine ⟨rfl, fun env scope => ?_⟩
  rw [Node.eval, Node.eval]
  exact (h.eval env scope).bind_right _

theorem binary (operator : BinaryOperator) (ha : a.Follows lax a') (hb : b.Follows lax b') :
    (binary operator a b).Follows lax (binary operator a' b') := by
  refine ⟨rfl, fun env scope => ?_⟩
  rw [Node.eval, Node.eval]
  exact (ha.eval env scope).bind fun v => (hb.eval env scope).bind_right _

theorem coalesce (ha : a.Follows lax a') (hb : b.Follows lax b') :
    (coalesce a b).Follows lax (coalesce a' b') := by
  refine ⟨rfl, fun env scope => ?_⟩
  rw [Node.eval, Node.eval]
  refine (ha.eval env scope).bind fun v => ?_
  cases v.isNull with
  | true => exact hb.eval env scope
  | false => exact .refl _

end Node.Follows

/-- The value of a decision between two nodes. -/
theorem Node.ifThenElse_eval (env : Environment) (scope : Scope) (test a b : Node) :
    (Node.ifThenElse test a b).eval env scope =
      test.eval env scope >>= fun v => if v.isTrue then a.eval env scope else b.eval env scope := by
  rw [Node.ifThenElse, Node.eval, evalWhens, evalWhens, evalOption]
  simp only [bind_assoc]
  congr 1
  funext v
  cases v.isTrue with
  | true =>
      simp only [if_true, bind_assoc]
      exact bind_pure _
  | false => rfl

/-! ### Tests for null -/

theorem Node.null_eval (env : Environment) (scope : Scope) :
    (Node.constant .null).eval env scope = .ok .null := by
  rw [Node.eval]
  · rfl
  · simp

/-- Whether a node is the null constant. -/
def Node.isNullConstant (n : Node) : Bool :=
  n.constant?.any Literal.isNull

theorem Node.isNullConstant_iff {n : Node} : n.isNullConstant = true ↔ n = .constant .null := by
  constructor
  · intro h
    cases n with
    | constant value =>
        cases value with
        | null => rfl
        | _ => cases h
    | _ => cases h
  · intro h
    rw [h]
    rfl

theorem Node.equality_eq (a b : Node) :
    a.equality b = if a.isNullConstant then .isNull b
      else if b.isNullConstant then .isNull a else .binary .equal a b := by
  by_cases ha : a.isNullConstant = true
  · rw [if_pos ha, isNullConstant_iff.mp ha]
    rfl
  · rw [if_neg ha]
    by_cases hb : b.isNullConstant = true
    · rw [if_pos hb, isNullConstant_iff.mp hb]
      unfold equality
      split
      · next heq => exact absurd rfl ha
      · rfl
      · next heq => exact absurd rfl heq
    · rw [if_neg hb]
      unfold equality
      split
      · exact absurd rfl ha
      · exact absurd rfl hb
      · rfl

theorem Node.inequality_eq (a b : Node) :
    a.inequality b = if a.isNullConstant then .isNotNull b
      else if b.isNullConstant then .isNotNull a else .binary .notEqual a b := by
  by_cases ha : a.isNullConstant = true
  · rw [if_pos ha, isNullConstant_iff.mp ha]
    rfl
  · rw [if_neg ha]
    by_cases hb : b.isNullConstant = true
    · rw [if_pos hb, isNullConstant_iff.mp hb]
      unfold inequality
      split
      · next heq => exact absurd rfl ha
      · rfl
      · next heq => exact absurd rfl heq
    · rw [if_neg hb]
      unfold inequality
      split
      · exact absurd rfl ha
      · exact absurd rfl hb
      · rfl

namespace Node.Follows

variable {n n' a a' b b' c c' : Node}

private theorem isNullConstant_eq (h : n.Follows lax n') :
    n.isNullConstant = n'.isNullConstant := by
  unfold isNullConstant
  rw [h.constant?_eq]

theorem equality (ha : a.Follows lax a') (hb : b.Follows lax b') :
    (a.equality b).Follows lax (a'.equality b') := by
  rw [equality_eq, equality_eq, ← ha.isNullConstant_eq, ← hb.isNullConstant_eq]
  cases a.isNullConstant with
  | true => exact hb.isNull
  | false =>
      cases b.isNullConstant with
      | true => exact ha.isNull
      | false => exact ha.binary .equal hb

private theorem inequality (ha : a.Follows lax a') (hb : b.Follows lax b') :
    (a.inequality b).Follows lax (a'.inequality b') := by
  rw [inequality_eq, inequality_eq, ← ha.isNullConstant_eq, ← hb.isNullConstant_eq]
  cases a.isNullConstant with
  | true => exact hb.isNotNull
  | false =>
      cases b.isNullConstant with
      | true => exact ha.isNotNull
      | false => exact ha.binary .notEqual hb

theorem ifThenElse (hc : c.Follows lax c') (ha : a.Follows lax a') (hb : b.Follows lax b') :
    (ifThenElse c a b).Follows lax (ifThenElse c' a' b') := by
  refine ⟨rfl, fun env scope => ?_⟩
  rw [ifThenElse_eval, ifThenElse_eval]
  refine (hc.eval env scope).bind fun v => ?_
  cases v.isTrue with
  | true => exact ha.eval env scope
  | false => exact hb.eval env scope

theorem least (ha : a.Follows lax a') (hb : b.Follows lax b') :
    (function "least" [a, b]).Follows lax (function "least" [a', b']) := by
  refine ⟨rfl, fun env scope => ?_⟩
  rw [Node.eval, Node.eval, evalAll, evalAll, evalAll, evalAll, evalAll]
  refine Keeps.bind ?_ fun values => .refl _
  exact (ha.eval env scope).bind fun v => ((hb.eval env scope).bind_right _).bind_right _

theorem unaryNode (h : n.Follows lax n') (operator : UnaryOperator) (type : StaticType) :
    (unaryNode operator n type).Follows lax (unaryNode operator n' type) := by
  cases operator with
  | not => exact h.not
  | negate => exact h.negate
  | convert => exact h.castTo type

theorem binaryNode (operator : BinaryOperator) (ha : a.Follows lax a')
    (hb : b.Follows lax b') :
    (binaryNode operator a b).Follows lax (binaryNode operator a' b') := by
  cases operator with
  | equal => exact ha.equality hb
  | notEqual => exact ha.inequality hb
  | _ => exact ha.binary _ hb

end Node.Follows

/-! ## Queries -/

/-- The parts of a join follow those of another one. -/
structure Join.Follows (lax : Bool) (j j' : Join) : Prop where
  source : j.source.Follows lax j'.source
  name : j.name = j'.name
  on : j.on.Follows lax j'.on

/-- The parts of an ordering key follow those of another one. -/
structure OrderKey.Follows (lax : Bool) (k k' : OrderKey) : Prop where
  key : k.key.Follows lax k'.key
  direction : k.direction = k'.direction

/-- The node of an aggregate follows that of another one of the same kind. -/
inductive Aggregate.Follows (lax : Bool) : Aggregate → Aggregate → Prop
  | same (aggregate) : Follows lax aggregate aggregate
  | all {predicate predicate' : Node} : predicate.Follows lax predicate' →
    Follows lax (.all predicate) (.all predicate')
  | contains {item item' : Node} : item.Follows lax item' →
    Follows lax (.contains item) (.contains item')

/-- The nodes of a query follow those of another one. -/
structure Query.Follows (lax : Bool) (q q' : Query) : Prop where
  source : q.source.Follows lax q'.source
  name : q.name = q'.name
  joins : List.Forall₂ (Join.Follows lax) q.joins q'.joins
  filter : Option.Rel (Node.Follows lax) q.filter q'.filter
  having : Option.Rel (Node.Follows lax) q.having q'.having
  order : List.Forall₂ (OrderKey.Follows lax) q.order q'.order
  select : Option.Rel (Node.Follows lax) q.select q'.select
  distinct : q.distinct = q'.distinct
  skip : Option.Rel (Node.Follows lax) q.skip q'.skip
  take : Option.Rel (Node.Follows lax) q.take q'.take
  aggregate : Option.Rel (Aggregate.Follows lax) q.aggregate q'.aggregate

section

variable {env : Environment}

private theorem runJoins_keeps {joins joins' : List Join}
    (h : List.Forall₂ (Join.Follows lax) joins joins') (scopes : List Scope) :
    Keeps lax (runJoins env joins scopes) (runJoins env joins' scopes) := by
  induction h generalizing scopes with
  | nil => exact .refl _
  | @cons j j' _ _ hjoin _ ih =>
      obtain ⟨source, name, on⟩ := j
      obtain ⟨source', name', on'⟩ := j'
      obtain ⟨hsource, hname, hon⟩ := hjoin
      obtain rfl : name = name' := hname
      rw [runJoins, runJoins]
      refine Keeps.bind ?_ ih
      exact joinScopes_keeps (fun scope => (hsource.eval env scope).bind_right _)
        (hon.eval env) scopes

private theorem runFilter_keeps {filter filter' : Option Node}
    (h : Option.Rel (Node.Follows lax) filter filter') (scopes : List Scope) :
    Keeps lax (runFilter env filter scopes) (runFilter env filter' scopes) := by
  cases h with
  | none => exact .refl _
  | some h =>
      rw [runFilter, runFilter]
      exact keepTrue_keeps (h.eval env) scopes

private theorem evalKeys_keeps {order order' : List OrderKey}
    (h : List.Forall₂ (OrderKey.Follows lax) order order') (scope : Scope) :
    Keeps lax (evalKeys env order scope) (evalKeys env order' scope) := by
  induction h with
  | nil => exact .refl _
  | @cons k k' _ _ hkey _ ih =>
      obtain ⟨key, direction⟩ := k
      obtain ⟨key', direction'⟩ := k'
      rw [evalKeys, evalKeys]
      exact (hkey.key.eval env scope).bind fun v => ih.bind_right _

private theorem directions_eq {order order' : List OrderKey}
    (h : List.Forall₂ (OrderKey.Follows lax) order order') :
    order.map OrderKey.direction = order'.map OrderKey.direction := by
  induction h with
  | nil => rfl
  | cons hkey _ ih => rw [List.map_cons, List.map_cons, hkey.direction, ih]

private theorem evalCount_keeps {count count' : Option Node}
    (h : Option.Rel (Node.Follows lax) count count') (scope : Scope) :
    Keeps lax (evalCount env count scope) (evalCount env count' scope) := by
  cases h with
  | none => exact .refl _
  | some h =>
      rw [evalCount, evalCount]
      exact (h.eval env scope).bind_right _

private theorem runAggregate_keeps {aggregate aggregate' : Option Aggregate}
    (h : Option.Rel (Aggregate.Follows lax) aggregate aggregate') (rows : List Row)
    (outer : Scope) :
    Keeps lax (runAggregate env aggregate rows outer) (runAggregate env aggregate' rows outer) := by
  cases h with
  | none => exact .refl _
  | some hrel =>
      cases hrel with
      | same => exact .refl _
      | all h =>
          rw [runAggregate, runAggregate]
          exact (allTrue_keeps (h.eval env) rows).bind_right _
      | contains h =>
          rw [runAggregate, runAggregate]
          exact (h.eval env outer).bind_right _

end

namespace Query

variable {env : Environment}

/-- What a query makes of the items of its source. -/
def result (env : Environment) (q : Query) (outer : Scope) (items : List Value) :
    Outcome Value := do
  q.finish env outer (← q.selected env outer items)

namespace Follows

variable {q q' : Query}

private theorem selected (h : q.Follows lax q') (outer : Scope) (items : List Value) :
    Keeps lax (q.selected env outer items) (q'.selected env outer items) := by
  unfold Query.selected
  rw [← h.name, ← directions_eq h.order]
  refine (runJoins_keeps h.joins _).bind fun joined => ?_
  refine (runFilter_keeps h.filter _).bind fun filtered => ?_
  refine (runFilter_keeps h.having _).bind fun kept => ?_
  refine (sortScopes_keeps (evalKeys_keeps h.order) _ _).bind fun sorted => ?_
  have hselect := h.select
  revert hselect
  generalize q.select = select, q'.select = select'
  intro hselect
  refine selectRows_keeps (fun scope => ?_) sorted
  cases hselect with
  | none => exact .refl _
  | some hselect => exact hselect.eval env scope

private theorem finish (h : q.Follows lax q') (outer : Scope) (rows : List Row) :
    Keeps lax (q.finish env outer rows) (q'.finish env outer rows) := by
  unfold Query.finish Query.distinctRows
  rw [← h.distinct]
  refine (evalCount_keeps h.skip outer).bind fun skipped => ?_
  refine (evalCount_keeps h.take outer).bind fun taken => ?_
  exact runAggregate_keeps h.aggregate _ outer

private theorem result (h : q.Follows lax q') (outer : Scope) (items : List Value) :
    Keeps lax (q.result env outer items) (q'.result env outer items) :=
  (h.selected outer items).bind fun rows => h.finish outer rows

/-- A query that follows another one keeps its results. -/
theorem run (h : q.Follows lax q') (outer : Scope) :
    Keeps lax (q.run env outer) (q'.run env outer) := by
  rw [Query.run_eq, Query.run_eq]
  exact ((h.source.eval env outer).bind_right _).bind fun items => h.result outer items

end Follows

end Query

/-! ## Subqueries -/

/-- The query that a test for existence runs. -/
def Query.existing (q : Query) : Query :=
  { q with aggregate := none, select := none, distinct := false }

/-- What a test for existence makes of the result of its query. -/
def isInhabited : Value → Value
  | .list items => .boolean !items.isEmpty
  | v => .boolean !v.isNull

/-- Whether an aggregate asks for the existence of a row. -/
def Aggregate.isAny : Aggregate → Bool
  | .any => true
  | _ => false

/-- Whether a query as a subquery is a test for existence. -/
def Query.asksExistence (q : Query) : Bool :=
  q.aggregate.any Aggregate.isAny && q.skip.isNone && q.take.isNone

/-- What a subquery makes of the items of its source. -/
def Query.presented (env : Environment) (q : Query) (outer : Scope) (items : List Value) :
    Outcome Value :=
  if q.asksExistence then isInhabited <$> q.existing.result env outer items
  else q.result env outer items

theorem Node.ofQuery_eq (q : Query) :
    Node.ofQuery q = if q.asksExistence then .nonempty q.existing else .subquery q := by
  obtain ⟨source, name, joins, filter, having, order, select, distinct, skip, take,
    aggregate⟩ := q
  cases aggregate with
  | none => rfl
  | some aggregate =>
      cases aggregate with
      | any => cases skip <;> cases take <;> rfl
      | _ => rfl

theorem Node.nonempty_eval (env : Environment) (scope : Scope) (q : Query) :
    (Node.nonempty q).eval env scope = isInhabited <$> q.run env scope := by
  rw [Node.eval, ← bind_pure_comp]
  congr 1
  funext v
  cases v <;> rfl

/-- The value of a subquery is found from the items of its source. -/
theorem Node.ofQuery_eval (env : Environment) (scope : Scope) (q : Query) :
    (Node.ofQuery q).eval env scope =
      (q.source.eval env scope >>= sourceItems) >>= q.presented env scope := by
  unfold Query.presented
  rw [ofQuery_eq]
  cases q.asksExistence with
  | true =>
      show (Node.nonempty q.existing).eval env scope = _
      rw [nonempty_eval, Query.run_eq, map_bind]
      rfl
  | false =>
      show (Node.subquery q).eval env scope = _
      rw [Node.eval, Query.run_eq]
      rfl

theorem Node.ofQuery_constant? (q : Query) : (Node.ofQuery q).constant? = none := by
  rw [ofQuery_eq]
  cases q.asksExistence <;> rfl

namespace Query.Follows

variable {q q' : Query}

private theorem existing (h : q.Follows lax q') : q.existing.Follows lax q'.existing :=
  ⟨h.source, h.name, h.joins, h.filter, h.having, h.order, .none, rfl, h.skip, h.take, .none⟩

private theorem asksExistence_eq (h : q.Follows lax q') : q.asksExistence = q'.asksExistence := by
  have hisNone : ∀ {o o' : Option Node}, Option.Rel (Node.Follows lax) o o' →
      o.isNone = o'.isNone := by
    intro o o' hrel
    cases hrel <;> rfl
  have hany : ∀ {a a' : Option Aggregate}, Option.Rel (Aggregate.Follows lax) a a' →
      a.any Aggregate.isAny = a'.any Aggregate.isAny := by
    intro a a' hrel
    cases hrel with
    | none => rfl
    | some hrel => cases hrel <;> rfl
  unfold asksExistence
  rw [hany h.aggregate, hisNone h.skip, hisNone h.take]

private theorem presented {env : Environment} (h : q.Follows lax q') (outer : Scope)
    (items : List Value) :
    Keeps lax (q.presented env outer items) (q'.presented env outer items) := by
  unfold Query.presented
  rw [← h.asksExistence_eq]
  cases q.asksExistence with
  | true =>
      show Keeps lax (isInhabited <$> q.existing.result env outer items) (isInhabited <$> _)
      rw [← bind_pure_comp, ← bind_pure_comp]
      exact (h.existing.result outer items).bind_right _
  | false => exact h.result outer items

/-- The subqueries over queries that follow each other do so too. -/
theorem ofQuery (h : q.Follows lax q') : (Node.ofQuery q).Follows lax (Node.ofQuery q') := by
  refine ⟨?_, fun env scope => ?_⟩
  · rw [Node.ofQuery_constant?, Node.ofQuery_constant?]
  · rw [Node.ofQuery_eval, Node.ofQuery_eval]
    exact ((h.source.eval env scope).bind_right _).bind fun items => h.presented scope items

end Query.Follows

end Hql

end ObjectQuery
