import ObjectQuery.Proofs.Inline.Node
import ObjectQuery.Proofs.Lowering.Follows
import ObjectQuery.Proofs.Method.StringTest

/-!
# Inlining and calls

A call sees whether an operand is a constant, so a literal in the place of a
parameter is not the same to it as the parameter bound to the value of the
literal. It makes no difference to the value of the call. Only two questions
are asked of a constant: whether it is null, which no scalar is, and whether
it is a text, which is then escaped at once. Escaping it when the query runs
gives the same pattern.

## Main definitions

* `Seen.Agrees` — a literal is seen in the place of a value.

## Main results

* `Generator.meaning_agrees` — a generator does not tell a literal from its value.
* `Hql.Node.Follows.inline_seen?` — what is seen of a node with a parameter inlined.
* `Expr.call_lowered` — what is known of every node that a call can become.
-/

namespace ObjectQuery

open Hql (Node)

/-! ## Literals and their values -/

/-- The second operand has the value of the first one. It is the same constant,
or a scalar in the place of an operand that is no constant. -/
structure Seen.Agrees (s s' : Seen) : Prop where
  value_eq : s'.value = s.value
  constant?_eq : s'.constant? = s.constant? ∨
    s.constant? = none ∧ ∃ literal : Literal, literal.isScalar = true ∧
      s'.constant? = some literal ∧ s.value = .ofLiteral literal

namespace Seen.Agrees

variable {a a' b b' : Seen}

private theorem isNullConstant_eq (h : a.Agrees a') : a'.isNullConstant = a.isNullConstant := by
  unfold isNullConstant
  rcases h.constant?_eq with hsame | ⟨hnone, literal, hscalar, hliteral, -⟩
  · rw [hsame]
  · rw [hnone, hliteral]
    cases literal with
    | null => cases hscalar
    | _ => rfl

/-- A text that is escaped at once gives the same pattern as one that is escaped
when the query runs. -/
theorem pattern?_eq (h : a.Agrees a') : a'.pattern? = a.pattern? := by
  unfold pattern?
  rcases h.constant?_eq with hsame | ⟨hnone, literal, hscalar, hliteral, hvalue⟩
  · rw [hsame, h.value_eq]
  · rw [hnone, hliteral, h.value_eq, hvalue]
    cases literal with
    | string t => exact (foldlM_escaped?_string t).symm
    | _ => rfl

private theorem matches?_eq (ha : a.Agrees a') (hb : b.Agrees b') (around : Value → List Value) :
    a'.matches? b' around = a.matches? b around := by
  unfold matches?
  rw [hb.pattern?_eq, ha.value_eq]

private theorem equality?_eq (ha : a.Agrees a') (hb : b.Agrees b') :
    a'.equality? b' = a.equality? b := by
  unfold equality?
  rw [ha.isNullConstant_eq, hb.isNullConstant_eq, ha.value_eq, hb.value_eq]

private theorem among?_eq (ha : a.Agrees a') (hb : b.Agrees b') : a'.among? b' = a.among? b := by
  unfold among?
  rw [ha.value_eq, hb.value_eq]

end Seen.Agrees

/-- No generator tells a literal from its value. -/
theorem Generator.meaning_agrees (generator : Generator) {operands operands' : List Seen}
    (h : List.Forall₂ Seen.Agrees operands operands') :
    generator.meaning operands' = generator.meaning operands := by
  have hvalues : operands'.map Seen.value = operands.map Seen.value := by
    induction h with
    | nil => rfl
    | cons hhead _ ih => rw [List.map_cons, List.map_cons, hhead.value_eq, ih]
  cases h with
  | nil => cases generator <;> rfl
  | cons ha hrest =>
      cases hrest with
      | nil => cases generator <;> simp only [meaning, hvalues, ha.value_eq]
      | cons hb hrest =>
          cases hrest with
          | nil =>
              cases generator <;> simp only [meaning, hvalues, ha.value_eq, hb.value_eq,
                ha.equality?_eq hb, ha.matches?_eq hb, ha.among?_eq hb]
          | cons => cases generator <;> simp only [meaning, hvalues]

/-! ## What is seen of a node -/

section

variable {name : String} {value : Literal} {env bound : Environment}

/-- A node that follows another one with a parameter inlined: what is seen of it is
a literal in the place of a value, or the same. -/
theorem Hql.Node.Follows.inline_seen? {n n' : Node}
    (h : (n.inline name value).Follows false n') (hscalar : value.isScalar = true)
    (hsupplies : env.Supplies name (.ofLiteral value) bound) (scope : Scope) :
    Option.Rel Seen.Agrees (n.seen? bound scope) (n'.seen? env scope) := by
  have hvalue : (n.eval bound scope).toOption = (n'.eval env scope).toOption := by
    have hkeeps : Preserved false ((n.inline name value).eval env scope).toOption
        (n'.eval env scope).toOption := h.eval env scope
    rw [Node.inline_eval hscalar hsupplies] at hkeeps
    exact Preserved.exact_iff.mp hkeeps
  unfold Node.seen?
  rw [← hvalue]
  cases heval : (n.eval bound scope).toOption with
  | none => exact .none
  | some v =>
      refine .some ⟨rfl, ?_⟩
      show n'.constant? = n.constant? ∨ _
      rw [← h.constant?_eq]
      rcases Node.inline_constant?_cases name value n with ⟨hn, hconstant⟩ | hsame
      · have hbound : n.eval bound scope = .ok (.ofLiteral value) := by
          rw [hn, Node.eval, hsupplies.binds]
        rw [hbound] at heval
        obtain rfl := Option.some.inj heval
        refine .inr ⟨?_, value, hscalar, ?_, rfl⟩
        · rw [hn]
          rfl
        · rw [hconstant]
          rfl
      · exact .inl hsame

end

/-! ## What a call becomes -/

/-- Whatever holds of all decisions and of all that the handler emits holds of the
node of a call, no matter over which operands the call is distributed. -/
theorem Expr.call_lowered {registry : Registry} {limit depth : Nat} {P : Node → Prop}
    (hdecision : ∀ test a b, P (.ifThenElse test a b)) {method : MethodSignature}
    {target : Option Expr} {arguments : List Expr} {type : StaticType} {handler : Handler}
    {n : Node} (hlookup : registry.lookup method = some handler)
    (hemits : ∀ site n, handler.generator.emit site = .ok n → P n)
    (h : (call method target arguments type).LowersTo registry limit depth n) : P n := by
  refine call_meets (I := fun _ => True) ?_ ?_ hlookup (fun _ _ => trivial)
    (fun site _ n hn => hemits site n hn) h
  · intro test a b nt ma mb _ _ _ _
    exact hdecision nt ma mb
  · intro a b na ma mb _ _ _ _
    exact hdecision (.isNotNull na) ma mb

/-- No fixed generator makes a parameter. -/
theorem Generator.emit_ne_parameter {generator : Generator} (hplain : generator.isPlain = true)
    {site : CallSite} {n : Node} (h : generator.emit site = .ok n) (name : String) :
    n ≠ .parameter name := by
  cases generator with
  | custom emit => cases hplain
  | function function =>
      obtain rfl := Except.ok.inj h
      simp
  | collectionAny | collectionCount =>
      obtain ⟨a, -, hn⟩ := bind_eq_ok.mp h
      obtain rfl := Except.ok.inj hn
      simp
  | equality =>
      obtain ⟨⟨a, b⟩, -, hn⟩ := bind_eq_ok.mp h
      obtain rfl := Except.ok.inj hn
      show a.equality b ≠ _
      rw [Hql.Node.equality_eq]
      split
      · simp
      · split <;> simp
  | _ =>
      obtain ⟨⟨a, b⟩, -, hn⟩ := bind_eq_ok.mp h
      obtain rfl := Except.ok.inj hn
      simp

end ObjectQuery
