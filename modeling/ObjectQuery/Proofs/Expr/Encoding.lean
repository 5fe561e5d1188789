import ObjectQuery.Expr.Encoding
import ObjectQuery.Proofs.Expr.Nesting
import ObjectQuery.Proofs.Json.Abridged

/-!
# What is written is read back

An expression or a model is read back from the JSON that is written of it,
whatever is missing in it and however its subqueries nest, as long as its
floats are finite numbers. The reader does not insist on the text: it finds
the same tree in every abridgement of it, in which models lack members that
say nothing and objects have their members in another order.

The proof goes by the kind of node. Each lemma takes what is left of one
record, member by member, and leaves the operands to the induction; only a
model may lose members, and each of those is looked at by itself.

## Main definitions

* `Expr.ReadBack` — an expression is read back from every abridgement.
* `Expr.IsFinite`, `QueryModel.IsFinite` — all floats are finite numbers.

## Main results

* `QueryModel.ofJson?_of_abridged` — a model is read back if its expressions
  are.
* `Expr.IsFinite.readBack` — finite expressions are read back.
* `ofJson?_abridged_toJson` — expressions and models survive their JSON form.
-/

namespace ObjectQuery

open Json (Abridged)

/-! ## Names, types and constants -/

section

variable {j : Json}

private theorem caseName?_of_abridged {name : String} (h : Abridged (.string name) j) :
    caseName? j = some name := by
  cases h
  rfl

theorem UnaryOperator.ofJson?_of_abridged {operator : UnaryOperator}
    (h : Abridged operator.toJson j) : UnaryOperator.ofJson? j = some operator := by
  cases operator <;> rw [UnaryOperator.ofJson?, caseName?_of_abridged h] <;> rfl

theorem BinaryOperator.ofJson?_of_abridged {operator : BinaryOperator}
    (h : Abridged operator.toJson j) : BinaryOperator.ofJson? j = some operator := by
  rw [BinaryOperator.ofJson?, caseName?_of_abridged h]
  cases operator <;> rfl

theorem Direction.ofJson?_of_abridged {direction : Direction}
    (h : Abridged direction.toJson j) : Direction.ofJson? j = some direction := by
  cases direction <;> rw [Direction.ofJson?, caseName?_of_abridged h] <;> rfl

theorem StaticType.ofJson?_of_abridged {type : StaticType} (h : Abridged type.toJson j) :
    StaticType.ofJson? j = some type := by
  induction type generalizing j with
  | nullable inner ih =>
      obtain ⟨content, rfl, hcontent⟩ := h.variant (by decide)
      rw [StaticType.ofJson?]
      simp [Json.variant?, ih hcontent]
  | collection element ih =>
      obtain ⟨content, rfl, hcontent⟩ := h.variant (by decide)
      rw [StaticType.ofJson?]
      simp [Json.variant?, ih hcontent]
  | entity name =>
      obtain ⟨content, rfl, hcontent⟩ := h.variant (by decide)
      cases hcontent
      rw [StaticType.ofJson?]
      simp [Json.variant?, Json.string?]
  | _ =>
      cases h
      rw [StaticType.ofJson?]
      simp [Json.variant?, Json.isEmptyContent]

theorem Literal.ofJson?_of_abridged {value : Literal}
    (hfinite : ∀ x, value = .float x → x.isFinite = true) (h : Abridged value.toJson j) :
    Literal.ofJson? j = some value := by
  cases value with
  | null => cases h; rfl
  | integer n =>
      obtain ⟨content, rfl, hcontent⟩ := h.variant (by decide)
      cases hcontent
      have hword : Word64.exactly? n.toInt = some n := Word64.exactly?_eq_some_iff.mpr rfl
      simp [Literal.ofJson?, Json.variant?, word64?, hword]
  | float x =>
      obtain ⟨content, rfl, hcontent⟩ := h.variant (by decide)
      rw [if_pos (hfinite x rfl)] at hcontent
      cases hcontent
      rfl
  | _ =>
      obtain ⟨content, rfl, hcontent⟩ := h.variant (by decide)
      cases hcontent
      rfl

end

/-! ## Expressions -/

/-- The expression is read back from whatever abridges what is written of
it. -/
def Expr.ReadBack (e : Expr) : Prop :=
  ∀ j, Abridged e.toJson j → Expr.ofJson? j = some e

section

variable {j : Json}

private theorem optionOfJson?_of_abridged {o : Option Expr} (hread : ∀ e, o = some e → e.ReadBack)
    (h : Abridged (optionToJson o) j) : optionOfJson? j = some o := by
  cases o with
  | none =>
      cases h
      rw [optionOfJson?]
      rfl
  | some e =>
      have hexpr := hread e rfl j h
      have hnull : j.isNull = false := by
        rw [optionToJson] at h
        cases e <;> rw [Expr.toJson] at h <;> cases h <;> rfl
      rw [optionOfJson?, if_neg (by simp [hnull]), hexpr]
      rfl

private theorem listToJson_eq (es : List Expr) : listToJson es = es.map Expr.toJson := by
  induction es with
  | nil => rfl
  | cons e rest ih => rw [listToJson, ih, List.map_cons]

theorem MethodSignature.ofJson?_of_abridged {method : MethodSignature}
    (h : Abridged method.toJson j) : MethodSignature.ofJson? j = some method := by
  obtain ⟨values, hsmall, hrecord, hvalues⟩ :=
    h.record ["declaring_type", "name", "parameter_types"] rfl (by decide) (by decide)
  obtain _ | ⟨hdeclaring, _ | ⟨hname, _ | ⟨htypes, ⟨⟩⟩⟩⟩ := hvalues
  cases hdeclaring
  cases hname
  obtain ⟨items, rfl, hitems⟩ := htypes.list fun _ _ _ => StaticType.ofJson?_of_abridged
  have htypes : Json.list? StaticType.ofJson? (.array items) = some method.parameterTypes := hitems
  rw [MethodSignature.ofJson?, hrecord]
  simp [Json.string?, htypes]

namespace Expr

variable {name : String} {type : StaticType}

private theorem readBack_constant {value : Literal}
    (hfinite : ∀ x, value = .float x → x.isFinite = true) : (constant value).ReadBack := by
  intro j h
  rw [toJson] at h
  obtain ⟨content, rfl, hcontent⟩ := h.variant (by decide)
  rw [ofJson?]
  simp only [Json.variant?, Option.bind_eq_bind, Option.bind_some]
  simp [Literal.ofJson?_of_abridged hfinite hcontent]

private theorem readBack_parameter : (parameter name type).ReadBack := by
  intro j h
  rw [toJson] at h
  obtain ⟨content, values, hsmall, rfl, hrecord, hvalues⟩ :=
    h.recordCase ["name", "ty"] rfl (by decide) (by decide)
  obtain _ | ⟨hname, _ | ⟨htype, ⟨⟩⟩⟩ := hvalues
  cases hname
  rw [ofJson?]
  simp only [Json.variant?, Option.bind_eq_bind, Option.bind_some]
  simp [hrecord, StaticType.ofJson?_of_abridged htype, Json.string?]

private theorem readBack_source : (source name type).ReadBack := by
  intro j h
  rw [toJson] at h
  obtain ⟨content, values, hsmall, rfl, hrecord, hvalues⟩ :=
    h.recordCase ["source", "ty"] rfl (by decide) (by decide)
  obtain _ | ⟨hname, _ | ⟨htype, ⟨⟩⟩⟩ := hvalues
  cases hname
  rw [ofJson?]
  simp only [Json.variant?, Option.bind_eq_bind, Option.bind_some]
  simp [hrecord, StaticType.ofJson?_of_abridged htype, Json.string?]

private theorem readBack_unary {operator : UnaryOperator} {operand : Expr}
    (hoperand : operand.ReadBack) :
    (unary operator operand type).ReadBack := by
  intro j h
  rw [toJson] at h
  obtain ⟨content, values, hsmall, rfl, hrecord, hvalues⟩ :=
    h.recordCase ["operator", "operand", "ty"] rfl (by decide) (by decide)
  obtain _ | ⟨hoperator, _ | ⟨hread, _ | ⟨htype, ⟨⟩⟩⟩⟩ := hvalues
  rw [ofJson?]
  simp only [Json.variant?, Option.bind_eq_bind, Option.bind_some]
  simp [hrecord, UnaryOperator.ofJson?_of_abridged hoperator, hoperand _ hread,
    StaticType.ofJson?_of_abridged htype]

private theorem readBack_binary {operator : BinaryOperator} {left right : Expr}
    (hleft : left.ReadBack) (hright : right.ReadBack) :
    (binary operator left right).ReadBack := by
  intro j h
  rw [toJson] at h
  obtain ⟨content, values, hsmall, rfl, hrecord, hvalues⟩ :=
    h.recordCase ["operator", "left", "right"] rfl (by decide) (by decide)
  obtain _ | ⟨hoperator, _ | ⟨hreadLeft, _ | ⟨hreadRight, ⟨⟩⟩⟩⟩ := hvalues
  rw [ofJson?]
  simp only [Json.variant?, Option.bind_eq_bind, Option.bind_some]
  simp [hrecord, BinaryOperator.ofJson?_of_abridged hoperator,
    hleft _ hreadLeft, hright _ hreadRight]

private theorem readBack_member {target : Expr} (htarget : target.ReadBack) :
    (member target name type).ReadBack := by
  intro j h
  rw [toJson] at h
  obtain ⟨content, values, hsmall, rfl, hrecord, hvalues⟩ :=
    h.recordCase ["target", "member", "ty"] rfl (by decide) (by decide)
  obtain _ | ⟨hread, _ | ⟨hname, _ | ⟨htype, ⟨⟩⟩⟩⟩ := hvalues
  cases hname
  rw [ofJson?]
  simp only [Json.variant?, Option.bind_eq_bind, Option.bind_some]
  simp [hrecord, htarget _ hread, StaticType.ofJson?_of_abridged htype,
    Json.string?]

private theorem readBack_call {method : MethodSignature} {target : Option Expr}
    {arguments : List Expr}
    (htarget : ∀ e, target = some e → e.ReadBack) (harguments : ∀ e ∈ arguments, e.ReadBack) :
    (call method target arguments type).ReadBack := by
  intro j h
  rw [toJson] at h
  obtain ⟨content, values, hsmall, rfl, hrecord, hvalues⟩ :=
    h.recordCase ["method", "target", "args", "ty"] rfl (by decide) (by decide)
  obtain _ | ⟨hmethod, _ | ⟨hreadTarget, _ | ⟨hread, _ | ⟨htype, ⟨⟩⟩⟩⟩⟩ := hvalues
  rw [listToJson_eq] at hread
  obtain ⟨items, rfl, hitems⟩ := hread.list fun e he => harguments e he
  rw [ofJson?]
  simp only [Json.variant?, Option.bind_eq_bind, Option.bind_some]
  simp only [hrecord, List.pmap, MethodSignature.ofJson?_of_abridged hmethod,
    Json.orMissing_some, optionOfJson?_of_abridged htarget hreadTarget, Json.items?_array,
    StaticType.ofJson?_of_abridged htype, Option.bind_some]
  exact Option.bind_eq_some_iff.mpr ⟨arguments, hitems, rfl⟩

private theorem readBack_conditional {test : Expr} {whenTrue whenFalse : Option Expr}
    (htest : test.ReadBack) (htrue : ∀ e, whenTrue = some e → e.ReadBack)
    (hfalse : ∀ e, whenFalse = some e → e.ReadBack) :
    (conditional test whenTrue whenFalse).ReadBack := by
  intro j h
  rw [toJson] at h
  obtain ⟨content, values, hsmall, rfl, hrecord, hvalues⟩ :=
    h.recordCase ["test", "if_true", "if_false"] rfl (by decide) (by decide)
  obtain _ | ⟨hreadTest, _ | ⟨hreadTrue, _ | ⟨hreadFalse, ⟨⟩⟩⟩⟩ := hvalues
  rw [ofJson?]
  simp only [Json.variant?, Option.bind_eq_bind, Option.bind_some]
  simp [hrecord, htest _ hreadTest, Json.orMissing_some, optionOfJson?_of_abridged htrue hreadTrue,
    optionOfJson?_of_abridged hfalse hreadFalse]

private theorem readBack_coalesce {left right : Option Expr}
    (hleft : ∀ e, left = some e → e.ReadBack) (hright : ∀ e, right = some e → e.ReadBack) :
    (coalesce left right).ReadBack := by
  intro j h
  rw [toJson] at h
  obtain ⟨content, values, hsmall, rfl, hrecord, hvalues⟩ :=
    h.recordCase ["left", "right"] rfl (by decide) (by decide)
  obtain _ | ⟨hreadLeft, _ | ⟨hreadRight, ⟨⟩⟩⟩ := hvalues
  rw [ofJson?]
  simp only [Json.variant?, Option.bind_eq_bind, Option.bind_some]
  simp [hrecord, Json.orMissing_some, optionOfJson?_of_abridged hleft hreadLeft,
    optionOfJson?_of_abridged hright hreadRight]

end Expr

/-! ## Clauses -/

/-- What is written of a join. -/
def JoinClause.toJson (join : JoinClause) : Json :=
  .object [
    ("item_name", .string join.item), ("item_type", join.itemType.toJson),
    ("inner_sequence", join.sequence.toJson), ("outer_key", join.outerKey.toJson),
    ("inner_key", join.innerKey.toJson)]

/-- What is written of an ordering. -/
def OrderClause.toJson (ordering : OrderClause) : Json :=
  .object [("expression", ordering.key.toJson), ("direction", ordering.direction.toJson)]

/-- What is written of a result operator. -/
def ResultOperator.toJson : ResultOperator → Json
  | .count => .string "Count"
  | .longCount => .string "LongCount"
  | .any => .string "Any"
  | .all e => .object [("All", e.toJson)]
  | .first => .string "First"
  | .single => .string "Single"
  | .take e => .object [("Take", e.toJson)]
  | .skip e => .object [("Skip", e.toJson)]
  | .distinct => .string "Distinct"
  | .contains e => .object [("Contains", e.toJson)]
  | .sum => .string "Sum"
  | .min => .string "Min"
  | .max => .string "Max"
  | .average => .string "Average"

private theorem joinsToJson_eq (joins : List JoinClause) :
    joinsToJson joins = joins.map JoinClause.toJson := by
  induction joins with
  | nil => rfl
  | cons join rest ih =>
      obtain ⟨item, itemType, sequence, outerKey, innerKey⟩ := join
      rw [joinsToJson, ih]
      rfl

private theorem orderingsToJson_eq (orderings : List OrderClause) :
    orderingsToJson orderings = orderings.map OrderClause.toJson := by
  induction orderings with
  | nil => rfl
  | cons ordering rest ih =>
      obtain ⟨key, direction⟩ := ordering
      rw [orderingsToJson, ih]
      rfl

private theorem operatorsToJson_eq (operators : List ResultOperator) :
    operatorsToJson operators = operators.map ResultOperator.toJson := by
  induction operators with
  | nil => rfl
  | cons operator rest ih => cases operator <;> rw [operatorsToJson, ih] <;> rfl

theorem JoinClause.ofJson?_of_abridged {join : JoinClause}
    (hread : ∀ e ∈ [join.sequence, join.outerKey, join.innerKey], e.ReadBack)
    (h : Abridged join.toJson j) : JoinClause.ofJson? j = some join := by
  obtain ⟨item, itemType, sequence, outerKey, innerKey⟩ := join
  obtain ⟨values, hsmall, hrecord, hvalues⟩ :=
    h.record ["item_name", "item_type", "inner_sequence", "outer_key", "inner_key"] rfl
      (by decide) (by decide)
  obtain _ | ⟨hitem, _ | ⟨htype, _ | ⟨hsequence, _ | ⟨houter, _ | ⟨hinner, ⟨⟩⟩⟩⟩⟩⟩ := hvalues
  cases hitem
  have hsequence := hread sequence (by simp) _ hsequence
  have houter := hread outerKey (by simp) _ houter
  have hinner := hread innerKey (by simp) _ hinner
  rw [JoinClause.ofJson?]
  simp [hrecord, StaticType.ofJson?_of_abridged htype, Json.string?, hsequence, houter, hinner]

theorem OrderClause.ofJson?_of_abridged {ordering : OrderClause}
    (hread : ordering.key.ReadBack) (h : Abridged ordering.toJson j) :
    OrderClause.ofJson? j = some ordering := by
  obtain ⟨key, direction⟩ := ordering
  obtain ⟨values, hsmall, hrecord, hvalues⟩ :=
    h.record ["expression", "direction"] rfl (by decide) (by decide)
  obtain _ | ⟨hkey, _ | ⟨hdirection, ⟨⟩⟩⟩ := hvalues
  rw [OrderClause.ofJson?]
  simp [hrecord, hread _ hkey, Direction.ofJson?_of_abridged hdirection]

theorem ResultOperator.ofJson?_of_abridged {operator : ResultOperator}
    (hread : ∀ e, operator.operand? = some e → e.ReadBack) (h : Abridged operator.toJson j) :
    ResultOperator.ofJson? j = some operator := by
  rw [ResultOperator.ofJson?]
  cases operator with
  | all e | take e | skip e | contains e =>
      obtain ⟨content, rfl, hcontent⟩ := h.variant (by decide)
      simp [Json.variant?, hread e rfl content hcontent]
  | _ =>
      cases h
      simp [Json.variant?, Json.isEmptyContent]

private theorem clauseOfJson?_of_abridged {name : String} {o : Option Expr}
    (hread : ∀ e, o = some e → e.ReadBack) (hname : name ≠ "main_from")
    (h : Abridged (clauseToJson name o) j) : clauseOfJson? name j = some o := by
  rw [clauseOfJson?]
  cases o with
  | none =>
      cases h
      simp [Json.isNull]
  | some e =>
      obtain ⟨values, hsmall, hrecord, hvalues⟩ :=
        h.record [name] rfl (by simp) (by simpa using hname.symm)
      obtain ⟨content, rfl, -⟩ := h.variant hname
      obtain _ | ⟨hexpr, ⟨⟩⟩ := hvalues
      simp [hrecord, hread e rfl _ hexpr, Json.isNull]

/-! ## Models -/

section

variable {members : List (String × Json)} {name : String}

/-- A list that may have been left out, if it was empty, is read back. -/
theorem listField_of_abridged {α : Type} {encode : α → Json} {read : Json → Option α}
    {values : List α} {model named : Prop} (hdistinct : Json.Distinct members)
    (h : Json.Remains members name (.array (values.map encode)) ∨ model ∧ named ∧
      Json.saysNothing (.array (values.map encode)) = true ∧ name ∉ members.map Prod.fst)
    (hread : ∀ value ∈ values, ∀ j, Abridged (encode value) j → read j = some value) :
    Json.orMissing [] (fun part => do
      (← part.1.items?).mapM fun item => read item.1) (Json.field? members name) =
        some values := by
  rcases h with ⟨value', hmem, hvalue⟩ | ⟨-, -, hnothing, hgone⟩
  · obtain ⟨items, rfl, hitems⟩ := hvalue.list hread
    rw [Json.field?_of_mem hdistinct hmem]
    exact hitems
  · rw [Json.field?_of_not_mem hgone]
    cases values with
    | nil => rfl
    | cons value rest => cases hnothing

/-- A clause that may have been left out, if it was absent, is read back. -/
theorem clauseField_of_abridged {key : String} {o : Option Expr} {model named : Prop}
    (hdistinct : Json.Distinct members)
    (h : Json.Remains members name (clauseToJson key o) ∨ model ∧ named ∧
      (clauseToJson key o).saysNothing = true ∧ name ∉ members.map Prod.fst)
    (hread : ∀ e, o = some e → e.ReadBack) (hkey : key ≠ "main_from") :
    Json.orMissing none (fun part => clauseOfJson? key part.1) (Json.field? members name) =
      some o := by
  rcases h with ⟨value', hmem, hvalue⟩ | ⟨-, -, hnothing, hgone⟩
  · rw [Json.field?_of_mem hdistinct hmem]
    exact clauseOfJson?_of_abridged hread hkey hvalue
  · rw [Json.field?_of_not_mem hgone]
    cases o with
    | none => rfl
    | some e => cases hnothing

end

/-- What holds of all source expressions, source by source. -/
theorem QueryModel.forall_sourceExpressions {model : QueryModel} {P : Expr → Prop} :
    (∀ e ∈ model.sourceExpressions, P e) ↔
      (∀ e, model.source = some e → P e) ∧
        ∀ join ∈ model.joins, ∀ e ∈ [join.sequence, join.outerKey, join.innerKey], P e := by
  simp only [sourceExpressions, List.forall_mem_append, Option.mem_toList, List.forall_mem_flatMap]

theorem QueryModel.ofJson?_of_abridged {model : QueryModel}
    (hread : ∀ e ∈ model.expressions, e.ReadBack) (h : Abridged model.toJson j) :
    QueryModel.ofJson? j = some model := by
  obtain ⟨hsources, hclauses⟩ := List.forall_mem_append.mp hread
  obtain ⟨hreadSource, hreadJoins⟩ := forall_sourceExpressions.mp hsources
  obtain ⟨hreadSelector, hreadOrderings, hreadOperators, hreadFilter, hreadHaving⟩ :=
    forall_clauseExpressions.mp hclauses
  obtain ⟨item, itemType, source, joins, filter, having, orderings, selector, operators⟩ := model
  rw [toJson, joinsToJson_eq, orderingsToJson_eq, operatorsToJson_eq] at h
  obtain ⟨members, rfl, hdistinct, hmembers⟩ := h.members_of_model (by simp [Json.Distinct])
  have hfrom : Json.Remains members "main_from" _ :=
    (hmembers "main_from" _ List.mem_cons_self).resolve_right fun h => absurd h.2.1 (by decide)
  obtain ⟨mainFrom, hmem, hmainFrom⟩ := hfrom
  obtain ⟨values, hsmall, hrecord, hvalues⟩ :=
    hmainFrom.record ["item_name", "item_type", "from_expression"] rfl (by decide) (by decide)
  obtain _ | ⟨hitem, _ | ⟨htype, _ | ⟨hsource, ⟨⟩⟩⟩⟩ := hvalues
  cases hitem
  have hsource := optionOfJson?_of_abridged hreadSource hsource
  have hjoins := listField_of_abridged hdistinct
    (hmembers "joins" (.array (joins.map JoinClause.toJson)) (by simp))
    fun join hjoin _ => JoinClause.ofJson?_of_abridged (hreadJoins join hjoin)
  have hfilter := clauseField_of_abridged hdistinct
    (hmembers "where_clause" (clauseToJson "predicate" filter) (by simp)) hreadFilter (by decide)
  have hhaving := clauseField_of_abridged hdistinct
    (hmembers "having" (clauseToJson "predicate" having) (by simp)) hreadHaving (by decide)
  have horderings := listField_of_abridged hdistinct
    (hmembers "orderings" (.array (orderings.map OrderClause.toJson)) (by simp))
    fun ordering hordering _ => OrderClause.ofJson?_of_abridged (hreadOrderings ordering hordering)
  have hselector := clauseField_of_abridged hdistinct
    (hmembers "select" (clauseToJson "selector" selector) (by simp)) hreadSelector (by decide)
  have hoperators := listField_of_abridged hdistinct
    (hmembers "result_operators" (.array (operators.map ResultOperator.toJson)) (by simp))
    fun operator hoperator _ =>
      ResultOperator.ofJson?_of_abridged (hreadOperators operator hoperator)
  rw [QueryModel.ofJson?, Json.record?_object hdistinct]
  simp only [List.cons_append, List.nil_append, List.map, Json.field?_of_mem hdistinct hmem,
    hrecord, List.pmap, Json.orMissing_some, hsource, Option.bind_eq_bind, Option.bind_some,
    StaticType.ofJson?_of_abridged htype, Json.string?]
  refine Option.bind_eq_some_iff.mpr ⟨joins, hjoins, ?_⟩
  refine Option.bind_eq_some_iff.mpr ⟨filter, hfilter, ?_⟩
  refine Option.bind_eq_some_iff.mpr ⟨having, hhaving, ?_⟩
  refine Option.bind_eq_some_iff.mpr ⟨orderings, horderings, ?_⟩
  refine Option.bind_eq_some_iff.mpr ⟨selector, hselector, ?_⟩
  exact Option.bind_eq_some_iff.mpr ⟨operators, hoperators, rfl⟩

private theorem Expr.readBack_subquery {model : QueryModel}
    (hread : ∀ e ∈ model.expressions, e.ReadBack) : (subquery model).ReadBack := by
  intro j h
  rw [toJson] at h
  obtain ⟨content, values, hsmall, rfl, hrecord, hvalues⟩ :=
    h.recordCase ["model"] rfl (by decide) (by decide)
  obtain _ | ⟨hmodel, ⟨⟩⟩ := hvalues
  rw [ofJson?]
  simp only [Json.variant?, Option.bind_eq_bind, Option.bind_some]
  simp [hrecord, QueryModel.ofJson?_of_abridged hread hmodel]

end

/-! ## Finite trees -/

/-- Every float constant in the expression, at whatever depth, is a finite
number. -/
def Expr.IsFinite (e : Expr) : Prop :=
  ∀ depth x, e.ContainsAt depth (.constant (.float x)) → x.isFinite = true

/-- Every float constant in the model, at whatever depth, is a finite
number. -/
def QueryModel.IsFinite (model : QueryModel) : Prop :=
  ∀ depth x, model.ContainsAt depth (.constant (.float x)) → x.isFinite = true

theorem Expr.IsFinite.readBack {e : Expr} (hfinite : e.IsFinite) : e.ReadBack := by
  induction e using nestedInduction with
  | step e ihOperands ihNested =>
      have hoperands : ∀ operand ∈ e.operands, operand.ReadBack := fun operand hoperand =>
        ihOperands operand hoperand fun depth x h => hfinite depth x (.operand hoperand h)
      cases e with
      | constant value => exact readBack_constant fun x hx => hfinite 0 x (hx ▸ .self)
      | parameter name type => exact readBack_parameter
      | source name type => exact readBack_source
      | unary operator operand type => exact readBack_unary (hoperands operand (by simp [operands]))
      | binary operator left right =>
          exact readBack_binary (hoperands left (by simp [operands]))
            (hoperands right (by simp [operands]))
      | member target name type => exact readBack_member (hoperands target (by simp [operands]))
      | call method target arguments type =>
          exact readBack_call (fun e he => hoperands e (by simp [operands, he]))
            fun e he => hoperands e (by simp [operands, he])
      | conditional test whenTrue whenFalse =>
          exact readBack_conditional (hoperands test (by simp [operands]))
            (fun e he => hoperands e (by simp [operands, he]))
            fun e he => hoperands e (by simp [operands, he])
      | coalesce left right =>
          exact readBack_coalesce (fun e he => hoperands e (by simp [operands, he]))
            fun e he => hoperands e (by simp [operands, he])
      | subquery model =>
          exact readBack_subquery fun e he => ihNested model rfl e he fun depth x h =>
            hfinite (depth + 1) x (.subquery he h)

/-- What is written of an expression or a model without infinite floats is
read back as the same tree, also after members of models that say nothing
were left out of it and members of objects put in another order. -/
theorem ofJson?_abridged_toJson :
    (∀ e : Expr, e.IsFinite →
      Expr.ofJson? e.toJson = some e ∧ ∀ j, Abridged e.toJson j → Expr.ofJson? j = some e) ∧
    ∀ model : QueryModel, model.IsFinite →
      QueryModel.ofJson? model.toJson = some model ∧
        ∀ j, Abridged model.toJson j → QueryModel.ofJson? j = some model := by
  constructor
  · intro e hfinite
    have hread : e.ReadBack := hfinite.readBack
    exact ⟨hread _ (.refl _), hread⟩
  · intro model hfinite
    have hread : ∀ e ∈ model.expressions, e.ReadBack := fun e he =>
      Expr.IsFinite.readBack fun depth x h => hfinite depth x ⟨e, he, h⟩
    exact ⟨QueryModel.ofJson?_of_abridged hread (.refl _),
      fun _ => QueryModel.ofJson?_of_abridged hread⟩

/-- A model without a main source that selects a conditional with a branch
missing. -/
def unfinished : QueryModel :=
  ⟨"e", .entity "Invoice", none, [], none, none, [],
    some (.conditional (.constant (.boolean true)) (some (.constant (.float 1.5))) none), []⟩

/-- It is written without the lists that are empty and the clauses that are
absent, and with the projection first. -/
def unfinishedJson : Json :=
  .object [
    ("select", .object [("selector", .object [("Conditional", .object [
      ("test", .object [("Constant", .object [("Boolean", .bool true)])]),
      ("if_true", .object [("Constant", .object [("Float", .float 1.5)])]),
      ("if_false", .null)])])]),
    ("main_from", .object [
      ("item_name", .string "e"), ("item_type", .object [("Entity", .string "Invoice")]),
      ("from_expression", .null)])]

private theorem unfinished_isFinite : unfinished.IsFinite := by
  rintro depth x ⟨e, he, h⟩
  obtain rfl := List.mem_singleton.mp he
  cases h with
  | operand hoperand h =>
      rcases List.mem_cons.mp hoperand with rfl | hoperand
      · cases h with
        | operand hnone => cases hnone
      · obtain rfl := List.mem_singleton.mp hoperand
        cases h with
        | self => decide
        | operand hnone => cases hnone

private theorem unfinishedJson_abridged : Abridged unfinished.toJson unfinishedJson := by
  refine .object (.keep (.refl _) ?_) (.swap _ _ _)
  refine .leaveOut rfl (by decide) rfl (.leaveOut rfl (by decide) rfl ?_)
  refine .leaveOut rfl (by decide) rfl (.leaveOut rfl (by decide) rfl ?_)
  exact .keep (.refl _) (.leaveOut rfl (by decide) rfl .nil)

theorem unfinished_ofJson? :
    unfinished.IsFinite ∧ Abridged unfinished.toJson unfinishedJson ∧
      QueryModel.ofJson? unfinishedJson = some unfinished ∧
      Expr.ofJson? (.object [("SubQuery", .object [("model", unfinishedJson)])]) =
        some (.subquery unfinished) := by
  have hsubquery : (Expr.subquery unfinished).IsFinite := by
    intro depth x h
    cases h with
    | operand hnone => cases hnone
    | subquery he h => exact unfinished_isFinite _ x ⟨_, he, h⟩
  have hmodel : Abridged (.object [("model", unfinished.toJson)])
      (.object [("model", unfinishedJson)]) :=
    .object (.keep unfinishedJson_abridged .nil) (.refl _)
  refine ⟨unfinished_isFinite, unfinishedJson_abridged, ?_, ?_⟩
  · exact (ofJson?_abridged_toJson.2 unfinished unfinished_isFinite).2 _ unfinishedJson_abridged
  · exact (ofJson?_abridged_toJson.1 _ hsubquery).2 _ (.object (.keep hmodel .nil) (.refl _))

end ObjectQuery
