import ObjectQuery.Proofs.Compilation.Meaning
import ObjectQuery.Proofs.Inline.Expansion
import ObjectQuery.Proofs.Inline.Models

/-!
# Inlining and binding agree

A client can give a value to a parameter when the query runs, or write the
value into the model. Both come to the same, as long as the parameter is
declared with the type of the value: the model with the literal in the place
of the parameter is compiled exactly if the model itself is, and its query
has the results of the other query with the parameter bound.

The two queries are different ones. What a literal changes in a query is
escaped texts, which are written down at once or found when the query runs.

## Main results

* `compile_inline` — what is compiled with the parameter inlined.
* `compile_execute_inline_iff` — inlining and binding agree.
-/

namespace ObjectQuery

open Hql (Node Query)

section

variable {registry : Registry} {limit : Nat} {name : String} {value : Literal}
  {model : QueryModel}

/-- A model that can be compiled can be compiled with the parameter inlined. The
query follows that of the model with the parameter inlined. -/
theorem compile_inline (hplain : registry.IsPlain) (hscalar : value.isScalar = true)
    (hdeclares : model.Declares name value.type) {compiled : Compiled}
    (h : (model.compile registry limit).outcome = .ok compiled) :
    ∃ inlined, ((model.inline name value).compile registry limit).outcome = .ok inlined ∧
      inlined.model = compiled.model.inline name value ∧
      (compiled.query.inline name value).Follows false inlined.query := by
  obtain ⟨hexpand, hlower⟩ := compile_outcome_iff.mp h
  obtain ⟨hexpand', hdeclares'⟩ := expandWithin_inline hscalar hdeclares hexpand
  obtain ⟨query', hquery', hfollows⟩ := QueryModel.LowersTo.inlined hscalar hplain
    (QueryModel.lower_eq_ok_iff.mp hlower) hdeclares'
  exact ⟨⟨compiled.model.inline name value, query'⟩,
    compile_outcome_iff.mpr ⟨hexpand', QueryModel.lower_eq_ok_iff.mpr hquery'⟩, rfl, hfollows⟩

/-- A model that can be compiled with the parameter inlined can be compiled. -/
theorem compile_of_inline (hplain : registry.IsPlain) (hscalar : value.isScalar = true)
    (hdeclares : model.Declares name value.type) {inlined : Compiled}
    (h : ((model.inline name value).compile registry limit).outcome = .ok inlined) :
    ∃ compiled, (model.compile registry limit).outcome = .ok compiled := by
  obtain ⟨hexpand, hlower⟩ := compile_outcome_iff.mp h
  obtain ⟨expanded, hexpanded, hsame⟩ := (inline_expandWithin_iff hscalar hdeclares).mp hexpand
  obtain ⟨-, hdeclares'⟩ := expandWithin_inline hscalar hdeclares hexpanded
  have hlowers : (expanded.inline name value).Lowers registry limit 0 := by
    rw [← hsame]
    exact ⟨_, QueryModel.lower_eq_ok_iff.mp hlower⟩
  obtain ⟨query, hquery⟩ :=
    (QueryModel.inline_lowers_iff hscalar hplain.judgesByCount hdeclares').mp hlowers
  exact ⟨⟨expanded, query⟩,
    compile_outcome_iff.mpr ⟨hexpanded, QueryModel.lower_eq_ok_iff.mpr hquery⟩⟩

end

/-- Inlining and binding agree. Where a parameter is declared with the type of a
boolean, a number or a text wherever it occurs, the model is compiled exactly if
it is with the literal in the place of the parameter. The query of the first one,
run with the parameter bound to the value, returns what the query of the second
one returns, whatever the data and the other parameters are. -/
theorem compile_execute_inline_iff {name : String} {value : Literal}
    (hscalar : value.isScalar = true) {model : QueryModel}
    (hdeclares : model.Declares name value.type) (limit : Nat) :
    ((∃ compiled, (model.compile .withDefaults limit).outcome = .ok compiled) ↔
        ∃ inlined, ((model.inline name value).compile .withDefaults limit).outcome =
          .ok inlined) ∧
      ∀ compiled inlined, (model.compile .withDefaults limit).outcome = .ok compiled →
        ((model.inline name value).compile .withDefaults limit).outcome = .ok inlined →
          ∀ env bound, env.Supplies name (.ofLiteral value) bound → ∀ result,
            compiled.query.execute bound = .ok result ↔
              inlined.query.execute env = .ok result := by
  have hplain := Registry.withDefaults_isPlain
  constructor
  · constructor
    · intro h
      obtain ⟨compiled, hcompiled⟩ := h
      obtain ⟨inlined, hinlined, -⟩ := compile_inline hplain hscalar hdeclares hcompiled
      exact ⟨inlined, hinlined⟩
    · intro h
      obtain ⟨inlined, hinlined⟩ := h
      exact compile_of_inline hplain hscalar hdeclares hinlined
  · intro compiled inlined hcompiled hinlined env bound hsupplies result
    obtain ⟨other, hother, -, hfollows⟩ := compile_inline hplain hscalar hdeclares hcompiled
    obtain rfl : other = inlined := Except.ok.inj (hother.symm.trans hinlined)
    have hbound : (compiled.query.inline name value).execute env =
        compiled.query.execute bound := Query.inline_run hscalar hsupplies compiled.query []
    have hkeeps : Keeps false ((compiled.query.inline name value).execute env)
        (other.query.execute env) := hfollows.run []
    rw [hbound] at hkeeps
    exact Keeps.exact_iff.mp hkeeps result

/-- Whether the name of a line starts with a text that is given when the query
runs. -/
def startsAsGiven : Expr :=
  .call (stringTest "StartsWith") (some (.member (.source "l" (.entity "Line")) "Name" .string))
    [.parameter "start" .string] .boolean

/-- The number of lines of an order whose name starts with that text. -/
def countAsGiven : QueryModel :=
  { countLines (orderLines "Lines") with filter := some startsAsGiven }

/-- These numbers for all orders. -/
def countsAsGiven : QueryModel :=
  perOrder (.subquery countAsGiven)

/-- A text with a character that means something in a pattern: it is escaped when
the first query runs and stands escaped in the second one. -/
theorem countsAsGiven_execute_inline :
    (Literal.string "a_b").isScalar = true ∧ countsAsGiven.Declares "start" .string ∧
      ∃ compiled inlined, (countsAsGiven.compile .withDefaults 8).outcome = .ok compiled ∧
        ((countsAsGiven.inline "start" (.string "a_b")).compile .withDefaults 8).outcome =
          .ok inlined ∧
        ∀ env result,
          compiled.query.execute ⟨env.data, ("start", .string "a_b") :: env.parameters⟩ =
              .ok result ↔
            inlined.query.execute env = .ok result := by
  have hscalar : (Literal.string "a_b").isScalar = true := rfl
  have htest : startsAsGiven.Declares "start" .string := by
    apply Expr.declares_of_operands (by simp [startsAsGiven]) (by simp [startsAsGiven])
    intro e he
    rcases List.mem_cons.mp he with rfl | he
    · exact Expr.declares_member (Expr.declares_source _ _)
    · rw [List.mem_singleton.mp he]
      exact Expr.declares_parameter
  have hcount : countAsGiven.Declares "start" .string := by
    intro e he
    rcases List.mem_cons.mp he with rfl | he
    · exact Expr.declares_member (Expr.declares_source _ _)
    · rw [List.mem_singleton.mp he]
      exact htest
  have hdeclares : countsAsGiven.Declares "start" .string := by
    intro e he
    rcases List.mem_cons.mp he with rfl | he
    · exact Expr.declares_constant _
    · rw [List.mem_singleton.mp he]
      exact Expr.declares_subquery.mpr hcount
  obtain ⟨hcompiles, hexecute⟩ := compile_execute_inline_iff hscalar hdeclares 8
  have hsome : ∃ compiled, (countsAsGiven.compile .withDefaults 8).outcome = .ok compiled :=
    ⟨_, rfl⟩
  obtain ⟨inlined, hinlined⟩ := hcompiles.mp hsome
  obtain ⟨compiled, hcompiled⟩ := hsome
  refine ⟨hscalar, hdeclares, compiled, inlined, hcompiled, hinlined, fun env result => ?_⟩
  exact hexecute compiled inlined hcompiled hinlined env _ (env.supplies_cons "start" _) result

end ObjectQuery
