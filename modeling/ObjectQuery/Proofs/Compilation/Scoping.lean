import ObjectQuery.Proofs.Compilation.Meaning
import ObjectQuery.Proofs.Expansion.Scoping
import ObjectQuery.Proofs.Lowering.Scoping

/-!
# Scope safety of compilation

In a well-scoped model every reference names an item that is bound where the
reference is evaluated. The expansion keeps it so, lowering carries it over to
the query, and a well-scoped query finds every name that it looks up. So the
query of a well-scoped model may fail on the data it runs on, but never because
a name is not bound.

## Main results

* `compile_wellScoped` — the query of a well-scoped model looks up no name in
  vain.
-/

namespace ObjectQuery

/-- A model that is well scoped on its own stays so when it is compiled, and its
query, on any data and with any parameters, does not come upon a name that is
not bound. -/
theorem compile_wellScoped {limit : Nat} {model : QueryModel} {compiled : Compiled}
    (hmodel : model.WellScoped [])
    (hcompile : (model.compile .withDefaults limit).outcome = .ok compiled) :
    compiled.model.WellScoped [] ∧
      ∀ env name, compiled.query.execute env ≠ .error (.unboundName name) := by
  obtain ⟨hexpand, hquery⟩ := compile_outcome_iff.mp hcompile
  have hexpanded := expandWithin_wellScoped hexpand hmodel
  refine ⟨hexpanded, fun env name => ?_⟩
  have hlowered := (QueryModel.lower_eq_ok_iff.mp hquery).wellScoped
    Registry.withDefaults_isPlain hexpanded
  have hresolves : Resolves (fun _ => True) (compiled.query.execute env) :=
    Hql.Query.run_resolves compiled.query hlowered (List.nil_subset _)
  exact hresolves.ne_unboundName name

/-- A selection for every order is not well scoped where it refers to an item that no
source binds. -/
example : ¬(perOrder (.source "p" (.entity "Product"))).WellScoped [] := by decide

/-- The counts of `countWithSubqueryTest`, of the first orders only that have a
customer. -/
def countForCustomers : QueryModel :=
  { countWithSubqueryTest with
    joins := [⟨"c", .entity "Customer", .constant (.queryable "Customer"),
      orderProperty "Customer" .integer, .member (.source "c" (.entity "Customer")) "Id" .integer⟩]
    operators := [.take (.parameter "count" .integer)] }

/-- The test in the source of the count refers to the order, also after it was
moved out of the source. -/
theorem countForCustomers_compile :
    countForCustomers.WellScoped [] ∧
      ∃ compiled, (countForCustomers.compile .withDefaults 8).outcome = .ok compiled ∧
        compiled.model.WellScoped [] ∧
        ∀ env name, compiled.query.execute env ≠ .error (.unboundName name) := by
  have hmodel : countForCustomers.WellScoped [] := by decide
  have hcompile : (countForCustomers.compile .withDefaults 8).outcome = .ok _ := rfl
  exact ⟨hmodel, _, hcompile, compile_wellScoped hmodel hcompile⟩

end ObjectQuery
