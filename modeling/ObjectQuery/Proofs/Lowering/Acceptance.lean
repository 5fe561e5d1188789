import ObjectQuery.Proofs.Expansion.Acceptance
import ObjectQuery.Proofs.Expr.Nesting
import ObjectQuery.Proofs.Lowering.Succeeds

/-!
# Which models are lowered

Lowering goes through the whole of a model: its main source, its joins and
its clauses, the operands in all of them, and the models of subqueries. What
it asks for can be said of each node by itself, with no regard to what
stands around it but for the number of subqueries: the branches of a decision
fit, the method of a call is known and takes so many operands, and a
subquery nests within the limit. Of a model it asks for a main source and for
result operators in an order that one query can follow.

A custom handler may ask for more. The fixed ones do not, so a registry
without custom handlers accepts exactly the models where all of this holds.

## Main definitions

* `ResultOperator.MayPrecede`, `QueryModel.IsWellFormed` — what is asked of a
  model by itself.
* `Expr.MayStand` — what is asked of a node by itself.
* `QueryModel.IsLowerable` — the same of all nodes and subqueries of a model.

## Main results

* `Expr.lowers_iff_containsAt` — an expression is lowered exactly if all its
  nodes may stand where they are.
* `toQuery_succeeds_iff` — exactly the lowerable models are lowered.
-/

namespace ObjectQuery

/-! ## What is asked for -/

/-- Whether a result operator may stand anywhere before another one: nothing
follows an operator that leaves a single value, and no rows are skipped once
some were taken. -/
def ResultOperator.MayPrecede (earlier later : ResultOperator) : Prop :=
  earlier.isScalar = false ∧ ¬((∃ rows, earlier = .take rows) ∧ ∃ rows, later = .skip rows)

/-- The model has a main source, and its result operators are in an order that
a query can follow. -/
structure QueryModel.IsWellFormed (model : QueryModel) : Prop where
  source : model.source.isSome = true
  operators : model.operators.Pairwise ResultOperator.MayPrecede

/-- What lowering asks of a node that stands inside of `depth` subqueries. -/
def Expr.MayStand (registry : Registry) (limit depth : Nat) : Expr → Prop
  | .conditional _ whenTrue whenFalse => BranchesFit whenTrue whenFalse
  | .coalesce left right => BranchesFit left right
  | .call method target arguments _ =>
    ∃ handler, registry.lookup method = some handler ∧
      handler.generator.Accepts (target.toList ++ arguments).length
  | .subquery model => depth < limit ∧ model.IsWellFormed
  | _ => True

/-- The model is well formed, and every node in it may stand where it does. -/
structure QueryModel.IsLowerable (registry : Registry) (limit : Nat) (model : QueryModel) :
    Prop where
  wellFormed : model.IsWellFormed
  nodes : ∀ depth node, model.ContainsAt depth node → node.MayStand registry limit depth

section

variable {registry : Registry} {limit depth : Nat}

/-! ## One model -/

private theorem ResultOperator.mayPrecede_iff_kind {earlier later : ResultOperator} :
    earlier.MayPrecede later ↔ earlier.kind.MayPrecede later.kind := by
  unfold MayPrecede OperatorKind.MayPrecede
  cases earlier <;> cases later <;> simp [isScalar, kind]

private theorem QueryModel.isWellFormed_iff {model : QueryModel} :
    model.IsWellFormed ↔ model.source.isSome = true ∧
      (model.operators.map ResultOperator.kind).Pairwise OperatorKind.MayPrecede := by
  rw [List.pairwise_map]
  simp only [← ResultOperator.mayPrecede_iff_kind]
  exact ⟨fun h => ⟨h.source, h.operators⟩, fun h => ⟨h.1, h.2⟩⟩

/-- A model can be lowered exactly if it is well formed and its expressions can
be lowered. -/
theorem QueryModel.lowers_iff_expressions {model : QueryModel} :
    model.Lowers registry limit depth ↔
      model.IsWellFormed ∧ ∀ e ∈ model.expressions, e.Lowers registry limit depth := by
  rw [lowers_iff, isWellFormed_iff, expressions, List.forall_mem_append]
  tauto

/-! ## One node -/

/-- A fixed generator makes a node of some call with so many operands exactly
if it takes that many. -/
theorem Generator.emitsFor_iff_accepts {generator : Generator} {count : Nat}
    (hplain : generator.isPlain = true) :
    generator.EmitsFor count ↔ generator.Accepts count := by
  refine ⟨fun h => h.accepts hplain, fun haccepts => ?_⟩
  obtain ⟨site, rfl⟩ : ∃ site : CallSite, site.operands.length = count :=
    ⟨⟨default, none, [], none, List.replicate count (.constant .null)⟩, by
      simp [CallSite.operands]⟩
  obtain ⟨node, hnode, -⟩ := emit_meaning hplain haccepts
  exact ⟨site, node, rfl, hnode⟩

/-- What a node needs to be lowered is what it needs to stand, and that the
expressions of the subquery, if it is one, can be lowered. -/
theorem Expr.nodeLowers_iff (hplain : registry.IsPlain) {e : Expr} :
    e.NodeLowers registry limit depth ↔ e.MayStand registry limit depth ∧
      ∀ model, e = .subquery model → ∀ inner ∈ model.expressions,
        inner.Lowers registry limit (depth + 1) := by
  cases e with
  | call method target arguments type =>
      have hcount : ∀ handler, registry.lookup method = some handler →
          (handler.generator.EmitsFor (target.toList ++ arguments).length ↔
            handler.generator.Accepts (target.toList ++ arguments).length) :=
        fun handler hlookup => Generator.emitsFor_iff_accepts (hplain method handler hlookup)
      simp only [NodeLowers, MayStand, reduceCtorEq, false_imp_iff, implies_true, and_true]
      exact exists_congr fun handler => and_congr_right (hcount handler)
  | conditional test whenTrue whenFalse =>
      simp only [NodeLowers, MayStand, checkBranches, checkBranches_eq_ok_iff_branchesFit,
        reduceCtorEq, false_imp_iff, implies_true, and_true]
  | coalesce left right =>
      simp only [NodeLowers, MayStand, checkBranches, checkBranches_eq_ok_iff_branchesFit,
        reduceCtorEq, false_imp_iff, implies_true, and_true]
  | subquery model =>
      simp only [NodeLowers, MayStand, QueryModel.lowers_iff_expressions, and_assoc,
        subquery.injEq, forall_eq']
  | _ => simp [NodeLowers, MayStand, checkBranches]

/-! ## All nodes -/

/-- An expression can be lowered exactly if every node in it, in operands and
in subqueries, may stand as deep as it does. -/
theorem Expr.lowers_iff_containsAt (hplain : registry.IsPlain) {e : Expr} :
    e.Lowers registry limit depth ↔
      ∀ deep node, e.ContainsAt deep node → node.MayStand registry limit (depth + deep) := by
  induction e using nestedInduction generalizing depth with
  | step e ihOperands ihNested =>
      rw [lowers_iff hplain.judgesByCount, nodeLowers_iff hplain]
      constructor
      · intro h deep node hcontains
        obtain ⟨⟨hnode, hnested⟩, hoperands⟩ := h
        rcases containsAt_iff.mp hcontains with ⟨rfl, rfl⟩ | ⟨operand, hoperand, hcontains⟩ |
          ⟨model, inside, rfl, rfl, inner, hinner, hcontains⟩
        · exact hnode
        · exact (ihOperands operand hoperand).mp (hoperands operand hoperand) deep node hcontains
        · have hstands := (ihNested model rfl inner hinner).mp (hnested model rfl inner hinner)
            inside node hcontains
          rwa [Nat.add_right_comm] at hstands
      · intro h
        refine ⟨⟨h 0 e .self, ?_⟩, ?_⟩
        · rintro model rfl inner hinner
          refine (ihNested model rfl inner hinner).mpr fun deep node hcontains => ?_
          rw [Nat.add_right_comm]
          exact h (deep + 1) node (.subquery hinner hcontains)
        · intro operand hoperand
          refine (ihOperands operand hoperand).mpr fun deep node hcontains => ?_
          exact h deep node (.operand hoperand hcontains)

/-- With a registry of fixed handlers, a model is lowered exactly if it and all
its subqueries are well formed, no subquery nests too deep, the branches of
every decision fit, and every call is of a known method that takes so many
operands. -/
theorem toQuery_succeeds_iff (hplain : registry.IsPlain) (limit : Nat) (model : QueryModel) :
    (∃ query, (model.toQuery registry limit).outcome = .ok query) ↔
      model.IsLowerable registry limit := by
  have hlowers : (∃ query, (model.toQuery registry limit).outcome = .ok query) ↔
      model.Lowers registry limit 0 := exists_congr fun query => QueryModel.lower_eq_ok_iff
  rw [hlowers, QueryModel.lowers_iff_expressions]
  simp only [Expr.lowers_iff_containsAt hplain, Nat.zero_add]
  constructor
  · intro h
    refine ⟨h.1, fun depth node hcontains => ?_⟩
    obtain ⟨e, he, hcontains⟩ := hcontains
    exact h.2 e he depth node hcontains
  · intro h
    exact ⟨h.wellFormed, fun e he depth node hcontains => h.nodes depth node ⟨e, he, hcontains⟩⟩

/-- A subquery whose test holds another one is lowered where subqueries may
nest two deep, and refused where they may nest one deep. -/
theorem countWithSubqueryTest_isLowerable :
    countWithSubqueryTest.IsLowerable Registry.withDefaults 2 ∧
      ¬countWithSubqueryTest.IsLowerable Registry.withDefaults 1 := by
  refine ⟨(toQuery_succeeds_iff Registry.withDefaults_isPlain 2 _).mp ⟨_, rfl⟩, ?_⟩
  rw [← toQuery_succeeds_iff Registry.withDefaults_isPlain]
  intro h
  obtain ⟨query, hquery⟩ := h
  cases hquery

end

end ObjectQuery
