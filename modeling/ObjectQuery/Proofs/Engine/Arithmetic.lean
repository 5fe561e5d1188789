import ObjectQuery.Proofs.Engine.Ordering
import ObjectQuery.Proofs.Value.Arithmetic

/-!
# Arithmetic on integers

A tree of arithmetic has constants, parameters, names and properties at its
leaves. Where these are integers or null, the tree has an exact value among the
whole numbers, unless a null or a division by zero takes it away. Its parts have
exact values too, and every operation looks at all of its operands. So the
tree is evaluated to its exact value exactly if the exact values of all its
parts fit into words. Otherwise the evaluation ends in an overflow, and in
nothing else.

## Main definitions

* `Node.IsArithmetic` — a tree of arithmetic on integers and nulls.
* `Node.exactValue?` — its exact value.
* `Node.PartsFit` — the exact values of all parts fit into words.

## Main results

* `Node.IsArithmetic.settles` — the run lemma, by the recursion over the tree.
* `Node.eval_arithmetic` — the three outcomes, and when each of them occurs.
-/

namespace ObjectQuery.Hql.Node

open Word64 (Fits)
open Value (IsKey Computes)

/-! ## Trees -/

/-- Whether a node is a constant, a parameter, a name or a property. -/
def isLeaf : Node → Bool
  | .constant _ | .parameter _ | .ident _ | .dot _ _ => true
  | _ => false

/-- The operands of an operation of arithmetic. -/
def operands : Node → List Node
  | .binary _ left right => [left, right]
  | .negate operand => [operand]
  | .function _ arguments => arguments
  | _ => []

/-- A tree of arithmetic whose leaves are integers and nulls. -/
inductive IsArithmetic (env : Environment) (scope : Scope) : Node → Prop
  | leaf {n : Node} {v : Value} (hleaf : n.isLeaf = true) (heval : n.eval env scope = .ok v)
      (hv : IsKey .integer v) : IsArithmetic env scope n
  | binary {operator : BinaryOperator} {left right : Node}
      (hoperator : operator.isArithmetic = true) (hleft : IsArithmetic env scope left)
      (hright : IsArithmetic env scope right) :
      IsArithmetic env scope (.binary operator left right)
  | negate {operand : Node} (h : IsArithmetic env scope operand) :
      IsArithmetic env scope (.negate operand)
  | abs {operand : Node} (h : IsArithmetic env scope operand) :
      IsArithmetic env scope (.function "abs" [operand])

/-- The exact value of a tree of arithmetic, where it has one. -/
def exactValue? (env : Environment) (scope : Scope) : Node → Option Int
  | .binary operator left right => do
    operator.result? (← left.exactValue? env scope) (← right.exactValue? env scope)
  | .negate operand => (operand.exactValue? env scope).map (-·)
  | .function "abs" [operand] => (operand.exactValue? env scope).map fun n => (n.natAbs : Int)
  | leaf => (leaf.eval env scope).toOption >>= Value.whole?

/-- A part of a tree of arithmetic, the tree itself among them. -/
inductive IsPart (part : Node) : Node → Prop
  | self : IsPart part part
  | operand {n operand : Node} (hoperand : operand ∈ n.operands) (h : IsPart part operand) :
      IsPart part n

/-- The exact value of every part that has one fits into a word. -/
def PartsFit (env : Environment) (scope : Scope) (n : Node) : Prop :=
  ∀ part m, IsPart part n → part.exactValue? env scope = some m → Fits m

variable {env : Environment} {scope : Scope} {n part operand left right : Node}
  {operator : BinaryOperator}

private theorem isPart_iff :
    IsPart part n ↔ part = n ∨ ∃ operand ∈ n.operands, IsPart part operand := by
  constructor
  · intro h
    cases h with
    | self => exact .inl rfl
    | operand hoperand h => exact .inr ⟨_, hoperand, h⟩
  · rintro (rfl | ⟨operand, hoperand, h⟩)
    · exact .self
    · exact .operand hoperand h

theorem IsPart.trans {whole : Node} (h : IsPart part n) (hn : IsPart n whole) :
    IsPart part whole := by
  induction hn with
  | self => exact h
  | operand hoperand _ ih => exact .operand hoperand ih

private theorem partsFit_iff :
    n.PartsFit env scope ↔ (∀ m, n.exactValue? env scope = some m → Fits m) ∧
      ∀ operand ∈ n.operands, operand.PartsFit env scope := by
  constructor
  · exact fun h => ⟨fun m => h n m .self,
      fun operand hoperand part m hpart => h part m (.operand hoperand hpart)⟩
  · rintro ⟨hself, hoperands⟩ part m hpart
    cases hpart with
    | self => exact hself m
    | operand hoperand hpart => exact hoperands _ hoperand part m hpart

private theorem operands_of_isLeaf (h : n.isLeaf = true) : n.operands = [] := by
  cases n <;> first | rfl | cases h

private theorem IsArithmetic.of_isPart (h : n.IsArithmetic env scope) (hpart : IsPart part n) :
    part.IsArithmetic env scope := by
  induction hpart with
  | self => exact h
  | operand hoperand _ ih =>
      apply ih
      cases h with
      | leaf hleaf => simp [operands_of_isLeaf hleaf] at hoperand
      | binary _ hleft hright =>
          rcases List.mem_pair.mp hoperand with rfl | rfl
          · exact hleft
          · exact hright
      | negate h | abs h => exact List.mem_singleton.mp hoperand ▸ h

/-! ## Evaluation -/

private theorem exactValue?_of_isLeaf (h : n.isLeaf = true) :
    n.exactValue? env scope = (n.eval env scope).toOption >>= Value.whole? := by
  cases n <;> first | rfl | cases h

private theorem binary_eval (hoperator : operator.isArithmetic = true) :
    (binary operator left right).eval env scope = left.eval env scope >>= fun a =>
      right.eval env scope >>= fun b => Value.arithmetic operator a b := by
  rw [eval]
  cases operator <;> first | rfl | cases hoperator

private theorem abs_eval :
    (function "abs" [operand]).eval env scope = operand.eval env scope >>= Value.abs := by
  rw [eval, evalAll, evalAll]
  cases operand.eval env scope <;> rfl

/-- A node is evaluated to its exact value if the exact values of all parts fit, and overflows
otherwise. -/
def Settles (env : Environment) (scope : Scope) (n : Node) : Prop :=
  (n.PartsFit env scope ∧ ∃ v, n.eval env scope = .ok v ∧
    Computes (n.exactValue? env scope) (.ok v)) ∨
  ¬n.PartsFit env scope ∧ ∃ operation, n.eval env scope = .error (.overflow operation)

/-- The step lemma: where all operands have their exact values, it is left to the operation. -/
theorem Settles.of_operands (hoperands : ∀ operand ∈ n.operands, operand.PartsFit env scope)
    (h : Computes (n.exactValue? env scope) (n.eval env scope)) : Settles env scope n := by
  rcases h.settles with ⟨hfits, hvalue⟩ | ⟨⟨m, hm, hfits⟩, hoverflow⟩
  · exact .inl ⟨partsFit_iff.mpr ⟨hfits, hoperands⟩, hvalue⟩
  · exact .inr ⟨fun hparts => hfits ((partsFit_iff.mp hparts).1 m hm), hoverflow⟩

/-- Where an operand overflows, so does the whole. -/
theorem Settles.of_overflow (hoperand : operand ∈ n.operands) (hparts : ¬operand.PartsFit env scope)
    (h : ∃ operation, n.eval env scope = .error (.overflow operation)) : Settles env scope n :=
  .inr ⟨fun hn => hparts ((partsFit_iff.mp hn).2 operand hoperand), h⟩

private theorem Settles.unary {f : Value → Outcome Value} (h : Settles env scope operand)
    (hoperands : n.operands = [operand])
    (heval : n.eval env scope = operand.eval env scope >>= f)
    (hf : ∀ v, Computes (operand.exactValue? env scope) (.ok v) →
      Computes (n.exactValue? env scope) (f v)) : Settles env scope n := by
  rcases h with ⟨hparts, v, hv, hexact⟩ | ⟨hparts, operation, hoverflow⟩
  · refine .of_operands (by simpa [hoperands] using hparts) ?_
    rw [heval, hv]
    exact hf v hexact
  · refine .of_overflow (by simp [hoperands]) hparts ⟨operation, ?_⟩
    rw [heval, hoverflow]
    rfl

private theorem Settles.binary (hoperator : operator.isArithmetic = true)
    (hleft : Settles env scope left) (hright : Settles env scope right) :
    Settles env scope (.binary operator left right) := by
  rcases hleft with ⟨hleftParts, a, ha, hleftExact⟩ | ⟨hparts, operation, hoverflow⟩
  · rcases hright with ⟨hrightParts, b, hb, hrightExact⟩ | ⟨hparts, operation, hoverflow⟩
    · refine .of_operands (by simp [operands, hleftParts, hrightParts]) ?_
      rw [binary_eval hoperator, ha, hb, exactValue?]
      exact Value.arithmetic_computes hoperator hleftExact hrightExact
    · refine .of_overflow (List.mem_pair.mpr (.inr rfl)) hparts ⟨operation, ?_⟩
      rw [binary_eval hoperator, ha, hoverflow]
      rfl
  · refine .of_overflow (List.mem_pair.mpr (.inl rfl)) hparts ⟨operation, ?_⟩
    rw [binary_eval hoperator, hoverflow]
    rfl

/-- The run lemma, by the recursion over the tree. -/
theorem IsArithmetic.settles (h : n.IsArithmetic env scope) : Settles env scope n := by
  induction h with
  | @leaf n v hleaf heval hv =>
      refine .of_operands (by simp [operands_of_isLeaf hleaf]) ?_
      rw [exactValue?_of_isLeaf hleaf, heval]
      cases hv with
      | null => exact .null
      | integer w => exact .integer w
  | binary hoperator _ _ ihLeft ihRight => exact .binary hoperator ihLeft ihRight
  | negate _ ih =>
      refine ih.unary rfl (by rw [eval]) fun v hv => ?_
      rw [exactValue?]
      exact Value.negate_computes hv
  | abs _ ih =>
      refine ih.unary rfl abs_eval fun v hv => ?_
      rw [exactValue?]
      exact Value.abs_computes hv

/-! ## Null -/

/-- Whether a part has no exact value of its own accord: a null leaf, or a quotient whose divisor is
zero. -/
def Vanishes (env : Environment) (scope : Scope) (part : Node) : Prop :=
  (part.isLeaf = true ∧ part.eval env scope = .ok .null) ∨
    ∃ left right, part = .binary .divide left right ∧ right.exactValue? env scope = some 0

private theorem exists_vanishes_iff :
    (∃ part, IsPart part n ∧ part.Vanishes env scope) ↔
      n.Vanishes env scope ∨
        ∃ operand ∈ n.operands, ∃ part, IsPart part operand ∧ part.Vanishes env scope := by
  constructor
  · rintro ⟨part, hpart, hvanishes⟩
    rcases isPart_iff.mp hpart with rfl | ⟨operand, hoperand, hpart⟩
    · exact .inl hvanishes
    · exact .inr ⟨operand, hoperand, part, hpart, hvanishes⟩
  · rintro (hvanishes | ⟨operand, hoperand, part, hpart, hvanishes⟩)
    · exact ⟨n, .self, hvanishes⟩
    · exact ⟨part, .operand hoperand hpart, hvanishes⟩

private theorem result?_eq_none_iff (hoperator : operator.isArithmetic = true) {x y : Int} :
    operator.result? x y = none ↔ operator = .divide ∧ y = 0 := by
  cases operator with
  | add | subtract | multiply | divide => simp [BinaryOperator.result?]
  | _ => cases hoperator

/-- A tree has no exact value exactly if one of its parts takes it away. -/
theorem IsArithmetic.exactValue?_eq_none_iff (h : n.IsArithmetic env scope) :
    n.exactValue? env scope = none ↔ ∃ part, IsPart part n ∧ part.Vanishes env scope := by
  induction h with
  | @leaf n v hleaf heval hv =>
      have hbinary : ¬∃ left right, n = .binary .divide left right ∧
          right.exactValue? env scope = some 0 := by
        rintro ⟨left, right, rfl, -⟩
        cases hleaf
      rw [exists_vanishes_iff, operands_of_isLeaf hleaf, exactValue?_of_isLeaf hleaf, Vanishes,
        heval]
      cases hv with
      | null => simp [hleaf, Value.whole?]
      | integer w => simp [hbinary, Value.whole?]
  | @binary operator left right hoperator _ _ ihLeft ihRight =>
      have hself : (Node.binary operator left right).Vanishes env scope ↔
          operator = .divide ∧ right.exactValue? env scope = some 0 := by
        simp [Vanishes, isLeaf]
      have hoperands : (∃ operand ∈ (Node.binary operator left right).operands, ∃ part,
          IsPart part operand ∧ part.Vanishes env scope) ↔
            left.exactValue? env scope = none ∨ right.exactValue? env scope = none := by
        simp [operands, ihLeft, ihRight]
      rw [exists_vanishes_iff, hself, hoperands, exactValue?]
      cases left.exactValue? env scope with
      | none => simp
      | some x =>
          cases right.exactValue? env scope with
          | none => simp
          | some y => simp [result?_eq_none_iff hoperator]
  | negate _ ih =>
      rw [exists_vanishes_iff, exactValue?, Option.map_eq_none_iff, ih]
      simp [Vanishes, operands, isLeaf]
  | abs _ ih =>
      rw [exists_vanishes_iff, exactValue?, Option.map_eq_none_iff, ih]
      simp [Vanishes, operands, isLeaf]

/-! ## Outcomes -/

private theorem IsArithmetic.eval_eq_ok_iff (h : n.IsArithmetic env scope) {v : Value} :
    n.eval env scope = .ok v ↔
      n.PartsFit env scope ∧ Computes (n.exactValue? env scope) (.ok v) := by
  rcases h.settles with ⟨hparts, u, hu, hexact⟩ | ⟨hparts, operation, hoverflow⟩
  · rw [hu, Except.ok.injEq]
    constructor
    · rintro rfl
      exact ⟨hparts, hexact⟩
    · rintro ⟨-, hv⟩
      exact hexact.eq hv
  · rw [hoverflow]
    exact iff_of_false nofun fun hv => hparts hv.1

/-- Where all parts fit, a divisor whose exact value is zero is evaluated to zero. -/
theorem IsArithmetic.vanishes_iff (h : n.IsArithmetic env scope) (hparts : n.PartsFit env scope)
    (hpart : IsPart part n) :
    part.Vanishes env scope ↔ part.isLeaf = true ∧ part.eval env scope = .ok .null ∨
      ∃ left right, part = .binary .divide left right ∧
        right.eval env scope = .ok (.integer 0) := by
  unfold Vanishes
  refine or_congr_right (exists_congr fun left => exists_congr fun right =>
    and_congr_right fun heq => ?_)
  have hright : IsPart right n :=
    (IsPart.operand (by simp [heq, operands]) .self : IsPart right part).trans hpart
  have hfits : right.PartsFit env scope := fun further m hfurther =>
    hparts further m (hfurther.trans hright)
  rw [(h.of_isPart hright).eval_eq_ok_iff, Value.computes_integer_iff, Int64.toInt_zero]
  exact (and_iff_right hfits).symm

/-- Arithmetic on integers and nulls is exact or refused. The evaluation of a tree returns an
integer exactly if the exact values of all parts fit into words and the integer is the exact
value of the tree. It returns null exactly if they fit and some leaf is null or some divisor is
evaluated to zero. It overflows exactly if the exact value of some part does not fit. There is no
other outcome. -/
theorem eval_arithmetic (h : n.IsArithmetic env scope) :
    (∀ w : Int64, n.eval env scope = .ok (.integer w) ↔
      n.PartsFit env scope ∧ n.exactValue? env scope = some w.toInt) ∧
    (n.eval env scope = .ok .null ↔ n.PartsFit env scope ∧ ∃ part, IsPart part n ∧
      (part.isLeaf = true ∧ part.eval env scope = .ok .null ∨
        ∃ left right, part = .binary .divide left right ∧
          right.eval env scope = .ok (.integer 0))) ∧
    ((∃ operation, n.eval env scope = .error (.overflow operation)) ↔
      ∃ part m, IsPart part n ∧ part.exactValue? env scope = some m ∧ ¬Fits m) ∧
    ((∃ w, n.eval env scope = .ok (.integer w)) ∨ n.eval env scope = .ok .null ∨
      ∃ operation, n.eval env scope = .error (.overflow operation)) := by
  refine ⟨fun w => ?_, ?_, ?_, ?_⟩
  · rw [h.eval_eq_ok_iff, Value.computes_integer_iff]
  · rw [h.eval_eq_ok_iff, Value.computes_null_iff, h.exactValue?_eq_none_iff]
    exact and_congr_right fun hparts => exists_congr fun part =>
      and_congr_right fun hpart => h.vanishes_iff hparts hpart
  · have hparts : ¬n.PartsFit env scope ↔
        ∃ part m, IsPart part n ∧ part.exactValue? env scope = some m ∧ ¬Fits m := by
      simp [PartsFit]
    rw [← hparts]
    rcases h.settles with ⟨hfits, v, hv, -⟩ | ⟨hfits, hoverflow⟩
    · rw [hv]
      exact iff_of_false nofun (not_not_intro hfits)
    · exact iff_of_true hoverflow hfits
  · rcases h.settles with ⟨-, v, hv, hexact⟩ | ⟨-, hoverflow⟩
    · rw [hv]
      rcases hexact.eq_integer_or_null with ⟨w, rfl⟩ | rfl
      · exact .inl ⟨w, rfl⟩
      · exact .inr (.inl rfl)
    · exact .inr (.inr hoverflow)

/-- One less than the absolute value of a change. -/
def oneBelowChange : Node :=
  .binary .subtract (.function "abs" [.parameter "change"]) (.constant (.integer 1))

/-- An environment with the given change. -/
def changedBy (change : Int64) : Environment :=
  ⟨⟨[]⟩, [("change", .integer change)]⟩

private theorem oneBelowChange_isArithmetic (change : Int64) :
    oneBelowChange.IsArithmetic (changedBy change) [] :=
  .binary rfl (.abs (.leaf rfl rfl (.integer change))) (.leaf rfl rfl (.integer 1))

/-- Of the least word, the exact value of the tree is the greatest one, but the absolute value in
it is beyond the words. Of the next word, all parts fit. -/
theorem oneBelowChange_eval :
    (oneBelowChange.exactValue? (changedBy Int64.minValue) [] = some Int64.maxValue.toInt ∧
      ∃ operation, oneBelowChange.eval (changedBy Int64.minValue) [] =
        .error (.overflow operation)) ∧
    oneBelowChange.eval (changedBy (Int64.minValue + 1)) [] = .ok (.integer (Int64.maxValue - 1)) ∧
      oneBelowChange.PartsFit (changedBy (Int64.minValue + 1)) [] := by
  obtain ⟨-, -, hoverflow, -⟩ := eval_arithmetic (oneBelowChange_isArithmetic Int64.minValue)
  obtain ⟨hvalue, -⟩ := eval_arithmetic (oneBelowChange_isArithmetic (Int64.minValue + 1))
  have hsum : oneBelowChange.eval (changedBy (Int64.minValue + 1)) [] =
    .ok (.integer (Int64.maxValue - 1)) := rfl
  refine ⟨⟨by decide, hoverflow.mpr ?_⟩, hsum, ((hvalue _).mp hsum).1⟩
  exact ⟨.function "abs" [.parameter "change"], 9223372036854775808,
    .operand List.mem_cons_self .self, by decide, by decide⟩

end ObjectQuery.Hql.Node
