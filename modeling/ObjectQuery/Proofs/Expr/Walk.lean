import ObjectQuery.Expr.Rebuild
import ObjectQuery.Expr.Visits

/-!
# Induction on operands

Most of what is said about an expression is said about the tree of its
operands, down to constants, parameters, references and subqueries; the
model inside of a subquery is another matter. `Expr.operandInduction` is
induction on this tree, with the operands that may be absent and those of a
call given by membership.

A rebuilding walk goes through the same tree in any monad. Whatever is kept
when computations are put together is therefore said of it once, for the walks
of two rebuilders side by side: `Expr.rebuild_related`.

An expression is *sound* where every branching node of this tree has two
branches that fit beside each other. The nodes in question are among the
stops of a walk, so soundness is a statement about `Expr.visits`.

## Main definitions

* `Expr.IsSound` — no branching node of an expression is malformed.
* `Expr.Holds` — a subquery stands in an expression.
-/

namespace ObjectQuery

/-! ## Induction -/

/-- Induction on the operands of an expression. A subquery is a leaf. -/
@[elab_as_elim]
theorem Expr.operandInduction {motive : Expr → Prop}
    (constant : ∀ value, motive (.constant value))
    (parameter : ∀ name type, motive (.parameter name type))
    (source : ∀ name type, motive (.source name type))
    (subquery : ∀ model, motive (.subquery model))
    (unary : ∀ operator operand type, motive operand → motive (.unary operator operand type))
    (binary : ∀ operator left right, motive left → motive right →
      motive (.binary operator left right))
    (member : ∀ target name type, motive target → motive (.member target name type))
    (call : ∀ method target arguments type, (∀ e, target = some e → motive e) →
      (∀ e ∈ arguments, motive e) → motive (.call method target arguments type))
    (conditional : ∀ test whenTrue whenFalse, motive test →
      (∀ e, whenTrue = some e → motive e) → (∀ e, whenFalse = some e → motive e) →
      motive (.conditional test whenTrue whenFalse))
    (coalesce : ∀ left right, (∀ e, left = some e → motive e) →
      (∀ e, right = some e → motive e) → motive (.coalesce left right))
    (e : Expr) : motive e := by
  have ih : ∀ operand : Expr, sizeOf operand < sizeOf e → motive operand := fun operand _ =>
    operandInduction constant parameter source subquery unary binary member call conditional
      coalesce operand
  cases e with
  | constant value => exact constant value
  | parameter name type => exact parameter name type
  | source name type => exact source name type
  | subquery model => exact subquery model
  | unary operator operand type =>
      exact unary operator operand type (ih operand (by simp; omega))
  | binary operator left right =>
      have hsize := Expr.binary.sizeOf_spec operator left right
      exact binary operator left right (ih left (by omega)) (ih right (by omega))
  | member target name type => exact member target name type (ih target (by simp; omega))
  | call method target arguments type =>
      refine call method target arguments type ?_ ?_
      · rintro operand rfl
        exact ih operand (by simp; omega)
      · intro operand hoperand
        have := List.sizeOf_lt_of_mem hoperand
        exact ih operand (by simp; omega)
  | conditional test whenTrue whenFalse =>
      refine conditional test whenTrue whenFalse (ih test (by simp; omega)) ?_ ?_
      · rintro branch rfl
        exact ih branch (by simp; omega)
      · rintro branch rfl
        exact ih branch (by simp; omega)
  | coalesce left right =>
      refine coalesce left right ?_ ?_
      · rintro branch rfl
        exact ih branch (by simp; omega)
      · rintro branch rfl
        exact ih branch (by simp; omega)
termination_by sizeOf e

/-- The operands of an expression. A missing branch is passed over. -/
def Expr.operands : Expr → List Expr
  | .unary _ operand _ => [operand]
  | .binary _ left right => [left, right]
  | .member target _ _ => [target]
  | .call _ target arguments _ => target.toList ++ arguments
  | .conditional test whenTrue whenFalse => test :: (whenTrue.toList ++ whenFalse.toList)
  | .coalesce left right => left.toList ++ right.toList
  | _ => []

/-- Induction on operands where the kind of node does not matter. -/
@[elab_as_elim]
theorem Expr.inductionOnOperands {motive : Expr → Prop}
    (step : ∀ e, (∀ operand ∈ Expr.operands e, motive operand) → motive e) (e : Expr) :
    motive e := by
  induction e using Expr.operandInduction with
  | call method target arguments type ihTarget ihArguments =>
      refine step _ fun operand hoperand => ?_
      rcases List.mem_append.mp hoperand with hoperand | hoperand
      · exact ihTarget operand (Option.mem_toList.mp hoperand)
      · exact ihArguments operand hoperand
  | conditional test whenTrue whenFalse ihTest ihTrue ihFalse =>
      refine step _ fun operand hoperand => ?_
      rcases List.mem_cons.mp hoperand with rfl | hoperand
      · exact ihTest
      rcases List.mem_append.mp hoperand with hoperand | hoperand
      · exact ihTrue operand (Option.mem_toList.mp hoperand)
      · exact ihFalse operand (Option.mem_toList.mp hoperand)
  | coalesce left right ihLeft ihRight =>
      refine step _ fun operand hoperand => ?_
      rcases List.mem_append.mp hoperand with hoperand | hoperand
      · exact ihLeft operand (Option.mem_toList.mp hoperand)
      · exact ihRight operand (Option.mem_toList.mp hoperand)
  | _ => exact step _ (by simp_all [Expr.operands])

/-! ## Rebuilding walks side by side -/

section

variable {m m' : Type → Type} [Monad m] [Monad m']

/-- Walks of two rebuilders are related in every way that is kept when computations are
built, if the rebuilders are. -/
theorem Expr.rebuild_related (r : Rebuilder m) (r' : Rebuilder m')
    {R : ∀ {α : Type}, m α → m' α → Prop} (hpure : ∀ {α : Type} (a : α), R (pure a) (pure a))
    (hbind : ∀ {α β : Type} {x : m α} {x' : m' α} {f : α → m β} {f' : α → m' β},
      R x x' → (∀ a, R (f a) (f' a)) → R (x >>= f) (x' >>= f'))
    (hleaf : ∀ e, R (r.leaf e) (r'.leaf e)) (henter : ∀ e, R (r.enter e) (r'.enter e))
    (hmissing : ∀ side, R (r.missing side) (r'.missing side)) (e : Expr) :
    R (e.rebuild r) (e.rebuild r') := by
  have hoption : ∀ {o : Option Expr}, (∀ e, o = some e → R (e.rebuild r) (e.rebuild r')) →
      R (rebuildOption r o) (rebuildOption r' o) := by
    intro o h
    cases o with
    | none => exact hpure none
    | some e => exact hbind (h e rfl) fun _ => hpure _
  have hbranch : ∀ {side : BranchSide} {o : Option Expr},
      (∀ e, o = some e → R (e.rebuild r) (e.rebuild r')) →
        R (rebuildBranch r side o) (rebuildBranch r' side o) := by
    intro side o h
    cases o with
    | none => exact hmissing side
    | some e => exact h e rfl
  have hlist : ∀ {es : List Expr}, (∀ e ∈ es, R (e.rebuild r) (e.rebuild r')) →
      R (rebuildList r es) (rebuildList r' es) := by
    intro es h
    induction es with
    | nil => exact hpure []
    | cons e rest ih =>
        rw [List.forall_mem_cons] at h
        exact hbind h.1 fun _ => hbind (ih h.2) fun _ => hpure _
  induction e using Expr.operandInduction with
  | constant value => exact hleaf _
  | parameter name type => exact hleaf _
  | source name type => exact hleaf _
  | subquery model => exact hleaf _
  | unary operator operand type ih => exact hbind ih fun _ => hpure _
  | binary operator left right ihLeft ihRight =>
      exact hbind ihLeft fun _ => hbind ihRight fun _ => hpure _
  | member target name type ih => exact hbind ih fun _ => hpure _
  | call method target arguments type ihTarget ihArguments =>
      exact hbind (henter _) fun _ => hbind (hoption ihTarget) fun _ =>
        hbind (hlist ihArguments) fun _ => hpure _
  | conditional test whenTrue whenFalse ihTest ihTrue ihFalse =>
      exact hbind (henter _) fun _ => hbind ihTest fun _ => hbind (hbranch ihTrue) fun _ =>
        hbind (hbranch ihFalse) fun _ => hpure _
  | coalesce left right ihLeft ihRight =>
      exact hbind (henter _) fun _ => hbind (hbranch ihLeft) fun _ =>
        hbind (hbranch ihRight) fun _ => hpure _

end

/-! ## The stops of a walk -/

private theorem mem_optionVisits {node : Expr} {o : Option Expr} :
    node ∈ optionVisits o ↔ ∃ e, o = some e ∧ node ∈ e.visits := by
  cases o with
  | none =>
      show node ∈ [] ↔ _
      simp
  | some e =>
      show node ∈ e.visits ↔ _
      simp

private theorem mem_listVisits {node : Expr} {es : List Expr} :
    node ∈ listVisits es ↔ ∃ e ∈ es, node ∈ e.visits := by
  induction es with
  | nil =>
      show node ∈ [] ↔ _
      simp
  | cons e rest ih =>
      show node ∈ e.visits ++ listVisits rest ↔ _
      simp [ih]

/-! ## Branches that fit -/

theorem checkBranches_eq_ok_iff {leftSide rightSide : BranchSide} {left right : Option Expr} :
    checkBranches leftSide rightSide left right = .ok () ↔
      ∃ a b, left = some a ∧ right = some b ∧ a.fitsBeside b = true := by
  cases left with
  | none => simp [checkBranches]
  | some a =>
      cases right with
      | none => simp [checkBranches]
      | some b =>
          simp only [checkBranches, checkFit]
          cases hfit : a.fitsBeside b <;> simp [hfit]

theorem Expr.checkBranches_conditional_iff {test : Expr} {whenTrue whenFalse : Option Expr} :
    (conditional test whenTrue whenFalse).checkBranches = .ok () ↔
      ∃ a b, whenTrue = some a ∧ whenFalse = some b ∧ a.fitsBeside b = true :=
  checkBranches_eq_ok_iff

theorem Expr.checkBranches_coalesce_iff {left right : Option Expr} :
    (coalesce left right).checkBranches = .ok () ↔
      ∃ a b, left = some a ∧ right = some b ∧ a.fitsBeside b = true :=
  checkBranches_eq_ok_iff

/-! ## Sound expressions -/

namespace Expr

/-- No branching node of the expression is malformed. -/
def IsSound (e : Expr) : Prop :=
  ∀ node ∈ e.visits, node.checkBranches = .ok ()

/-- The subquery over the model stands in the expression. -/
def Holds (e : Expr) (model : QueryModel) : Prop :=
  .subquery model ∈ e.visits

section

variable {model : QueryModel}

@[simp] theorem isSound_constant (value : Literal) : (constant value).IsSound := by
  intro node hnode
  rw [List.mem_singleton.mp hnode]
  rfl

@[simp] theorem isSound_parameter (name : String) (type : StaticType) :
    (parameter name type).IsSound := by
  intro node hnode
  rw [List.mem_singleton.mp hnode]
  rfl

@[simp] theorem isSound_source (name : String) (type : StaticType) :
    (source name type).IsSound := by
  intro node hnode
  rw [List.mem_singleton.mp hnode]
  rfl

@[simp] theorem isSound_subquery (model : QueryModel) : (subquery model).IsSound := by
  intro node hnode
  rw [List.mem_singleton.mp hnode]
  rfl

@[simp] theorem isSound_unary {operator : UnaryOperator} {operand : Expr}
    {type : StaticType} : (unary operator operand type).IsSound ↔ operand.IsSound :=
  Iff.rfl

@[simp] theorem isSound_binary {operator : BinaryOperator} {left right : Expr} :
    (binary operator left right).IsSound ↔ left.IsSound ∧ right.IsSound :=
  List.forall_mem_append

@[simp] theorem isSound_member {target : Expr} {name : String} {type : StaticType} :
    (member target name type).IsSound ↔ target.IsSound :=
  Iff.rfl

theorem isSound_call {method : MethodSignature} {target : Option Expr}
    {arguments : List Expr} {type : StaticType} :
    (call method target arguments type).IsSound ↔
      (∀ e, target = some e → e.IsSound) ∧ ∀ e ∈ arguments, e.IsSound := by
  show (∀ node ∈ call method target arguments type ::
    (optionVisits target ++ listVisits arguments), _) ↔ _
  simp only [IsSound, List.mem_cons, List.mem_append, mem_optionVisits, mem_listVisits]
  constructor
  · intro h
    exact ⟨fun e he node hnode => h node (.inr (.inl ⟨e, he, hnode⟩)),
      fun e he node hnode => h node (.inr (.inr ⟨e, he, hnode⟩))⟩
  · rintro ⟨htarget, harguments⟩ node (rfl | ⟨e, he, hnode⟩ | ⟨e, he, hnode⟩)
    · rfl
    · exact htarget e he node hnode
    · exact harguments e he node hnode

theorem isSound_conditional {test : Expr} {whenTrue whenFalse : Option Expr} :
    (conditional test whenTrue whenFalse).IsSound ↔
      test.IsSound ∧ ∃ a b, whenTrue = some a ∧ whenFalse = some b ∧
        a.fitsBeside b = true ∧ a.IsSound ∧ b.IsSound := by
  show (∀ node ∈ conditional test whenTrue whenFalse ::
    (test.visits ++ optionVisits whenTrue ++ optionVisits whenFalse), _) ↔ _
  simp only [IsSound, List.mem_cons, List.mem_append, mem_optionVisits]
  constructor
  · intro h
    obtain ⟨a, b, rfl, rfl, hfit⟩ := checkBranches_conditional_iff.mp (h _ (.inl rfl))
    exact ⟨fun node hnode => h node (.inr (.inl (.inl hnode))), a, b, rfl, rfl, hfit,
      fun node hnode => h node (.inr (.inl (.inr ⟨a, rfl, hnode⟩))),
      fun node hnode => h node (.inr (.inr ⟨b, rfl, hnode⟩))⟩
  · rintro ⟨htest, a, b, rfl, rfl, hfit, ha, hb⟩ node
      (rfl | (hnode | ⟨e, he, hnode⟩) | ⟨e, he, hnode⟩)
    · exact checkBranches_conditional_iff.mpr ⟨a, b, rfl, rfl, hfit⟩
    · exact htest node hnode
    · obtain rfl := Option.some.inj he
      exact ha node hnode
    · obtain rfl := Option.some.inj he
      exact hb node hnode

theorem isSound_coalesce {left right : Option Expr} :
    (coalesce left right).IsSound ↔
      ∃ a b, left = some a ∧ right = some b ∧ a.fitsBeside b = true ∧ a.IsSound ∧
        b.IsSound := by
  show (∀ node ∈ coalesce left right :: (optionVisits left ++ optionVisits right), _) ↔ _
  simp only [IsSound, List.mem_cons, List.mem_append, mem_optionVisits]
  constructor
  · intro h
    obtain ⟨a, b, rfl, rfl, hfit⟩ := checkBranches_coalesce_iff.mp (h _ (.inl rfl))
    exact ⟨a, b, rfl, rfl, hfit, fun node hnode => h node (.inr (.inl ⟨a, rfl, hnode⟩)),
      fun node hnode => h node (.inr (.inr ⟨b, rfl, hnode⟩))⟩
  · rintro ⟨a, b, rfl, rfl, hfit, ha, hb⟩ node (rfl | ⟨e, he, hnode⟩ | ⟨e, he, hnode⟩)
    · exact checkBranches_coalesce_iff.mpr ⟨a, b, rfl, rfl, hfit⟩
    · obtain rfl := Option.some.inj he
      exact ha node hnode
    · obtain rfl := Option.some.inj he
      exact hb node hnode

/-- An expression is sound exactly if its own branches fit and its operands are
sound. -/
theorem isSound_iff_operands {e : Expr} :
    e.IsSound ↔ e.checkBranches = .ok () ∧ ∀ operand ∈ e.operands, operand.IsSound := by
  cases e with
  | call method target arguments type =>
      simp [isSound_call, operands, checkBranches, or_imp, forall_and]
  | conditional test whenTrue whenFalse =>
      rw [isSound_conditional, checkBranches_conditional_iff]
      constructor
      · intro h
        obtain ⟨htest, a, b, rfl, rfl, hfit, ha, hb⟩ := h
        exact ⟨⟨a, b, rfl, rfl, hfit⟩, by simp [operands, htest, ha, hb]⟩
      · intro h
        obtain ⟨⟨a, b, rfl, rfl, hfit⟩, hoperands⟩ := h
        exact ⟨hoperands test (by simp [operands]), a, b, rfl, rfl, hfit,
          hoperands a (by simp [operands]), hoperands b (by simp [operands])⟩
  | coalesce left right =>
      rw [isSound_coalesce, checkBranches_coalesce_iff]
      constructor
      · intro h
        obtain ⟨a, b, rfl, rfl, hfit, ha, hb⟩ := h
        exact ⟨⟨a, b, rfl, rfl, hfit⟩, by simp [operands, ha, hb]⟩
      · intro h
        obtain ⟨⟨a, b, rfl, rfl, hfit⟩, hoperands⟩ := h
        exact ⟨a, b, rfl, rfl, hfit, hoperands a (by simp [operands]),
          hoperands b (by simp [operands])⟩
  | _ => simp [operands, checkBranches]

/-! ## Subqueries held -/

@[simp] theorem holds_constant {value : Literal} : ¬(constant value).Holds model := by
  intro h
  cases List.mem_singleton.mp h

@[simp] theorem holds_parameter {name : String} {type : StaticType} :
    ¬(parameter name type).Holds model := by
  intro h
  cases List.mem_singleton.mp h

@[simp] theorem holds_source {name : String} {type : StaticType} :
    ¬(source name type).Holds model := by
  intro h
  cases List.mem_singleton.mp h

@[simp] theorem holds_subquery {other : QueryModel} :
    (subquery other).Holds model ↔ model = other := by
  show subquery model ∈ [subquery other] ↔ _
  simp

@[simp] theorem holds_unary {operator : UnaryOperator} {operand : Expr} {type : StaticType} :
    (unary operator operand type).Holds model ↔ operand.Holds model :=
  Iff.rfl

@[simp] theorem holds_binary {operator : BinaryOperator} {left right : Expr} :
    (binary operator left right).Holds model ↔ left.Holds model ∨ right.Holds model :=
  List.mem_append

@[simp] theorem holds_member {target : Expr} {name : String} {type : StaticType} :
    (member target name type).Holds model ↔ target.Holds model :=
  Iff.rfl

@[simp] theorem holds_call {method : MethodSignature} {target : Option Expr}
    {arguments : List Expr} {type : StaticType} :
    (call method target arguments type).Holds model ↔
      (∃ e, target = some e ∧ e.Holds model) ∨ ∃ e ∈ arguments, e.Holds model := by
  show subquery model ∈ call method target arguments type ::
    (optionVisits target ++ listVisits arguments) ↔ _
  simp [Holds, mem_optionVisits, mem_listVisits]

@[simp] theorem holds_conditional {test : Expr} {whenTrue whenFalse : Option Expr} :
    (conditional test whenTrue whenFalse).Holds model ↔
      test.Holds model ∨ (∃ e, whenTrue = some e ∧ e.Holds model) ∨
        ∃ e, whenFalse = some e ∧ e.Holds model := by
  show subquery model ∈ conditional test whenTrue whenFalse ::
    (test.visits ++ optionVisits whenTrue ++ optionVisits whenFalse) ↔ _
  simp [Holds, mem_optionVisits]

@[simp] theorem holds_coalesce {left right : Option Expr} :
    (coalesce left right).Holds model ↔
      (∃ e, left = some e ∧ e.Holds model) ∨ ∃ e, right = some e ∧ e.Holds model := by
  show subquery model ∈ coalesce left right ::
    (optionVisits left ++ optionVisits right) ↔ _
  simp [Holds, mem_optionVisits]

/-- What an expression holds stands in an operand, unless the expression is
the subquery itself. -/
theorem holds_iff_operands {e : Expr} :
    e.Holds model ↔ e = .subquery model ∨ ∃ operand ∈ e.operands, operand.Holds model := by
  cases e with
  | subquery other => simp [operands, eq_comm]
  | call method target arguments type =>
      simp [operands, or_and_right, exists_or, Option.mem_toList]
  | conditional test whenTrue whenFalse =>
      simp [operands, or_and_right, exists_or, Option.mem_toList]
  | coalesce left right => simp [operands, or_and_right, exists_or, Option.mem_toList]
  | _ => simp [operands]

end

end Expr

end ObjectQuery
