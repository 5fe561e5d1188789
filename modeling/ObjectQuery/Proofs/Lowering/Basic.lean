import ObjectQuery.Lowering.Basic
import ObjectQuery.Proofs.Success

/-!
# Successful lowering

Lowering a model is lowering its parts, and the query is put together from
what the parts become. `QueryModel.LowersTo` says so part by part, so that
what is known about one clause can be used without the others.

## Main results

* `QueryModel.lower_eq_ok_iff` — lowering a model succeeds exactly if its
  parts can be lowered.
-/

namespace ObjectQuery

open Hql (Node Query)

/-- The four places of a query for its result operators. -/
def Hql.Query.tail (query : Query) : Tail :=
  ⟨query.distinct, query.skip, query.take, query.aggregate⟩

/-- The parts of a model lower to the parts of a query. -/
structure QueryModel.LowersTo (registry : Registry) (limit depth : Nat) (model : QueryModel)
    (query : Query) : Prop where
  source : ∃ e, model.source = some e ∧
    (e.lower registry limit depth).outcome = .ok query.source
  name : model.item = query.name
  joins : (lowerJoins registry limit depth model.joins).outcome = .ok query.joins
  filter : (lowerOption registry limit depth model.filter).outcome = .ok query.filter
  having : (lowerOption registry limit depth model.having).outcome = .ok query.having
  order : (lowerOrderings registry limit depth model.orderings).outcome = .ok query.order
  select : (lowerOption registry limit depth model.selector).outcome = .ok query.select
  tail : (lowerOperators registry limit depth .empty model.operators).outcome = .ok query.tail

/-- Lowering a model succeeds exactly if its parts can be lowered. -/
theorem QueryModel.lower_eq_ok_iff {registry : Registry} {limit depth : Nat}
    {model : QueryModel} {query : Query} :
    (model.lower registry limit depth).outcome = .ok query ↔
      model.LowersTo registry limit depth query := by
  obtain ⟨item, itemType, source, joins, filter, having, orderings, selector, operators⟩ :=
    model
  cases source with
  | none =>
      constructor
      · intro h
        simp [QueryModel.lower] at h
      · rintro ⟨⟨e, hsource, -⟩, -⟩
        cases hsource
  | some e =>
      simp only [QueryModel.lower, Traced.outcome_bind_eq_ok, Traced.outcome_emit,
        Traced.outcome_pure]
      constructor
      · rintro ⟨sourceNode, hsource, joinNodes, hjoins, filterNode, hfilter, havingNode,
          hhaving, order, horder, select, hselect, tail, htail, -, -, hquery⟩
        obtain rfl := Except.ok.inj hquery
        exact ⟨⟨e, rfl, hsource⟩, rfl, hjoins, hfilter, hhaving, horder, hselect, htail⟩
      · rintro ⟨⟨e', hsome, hsource⟩, rfl, hjoins, hfilter, hhaving, horder, hselect, htail⟩
        obtain rfl := Option.some.inj hsome
        -- a query has no definitional eta rule, since it may hold queries
        cases query
        exact ⟨_, hsource, _, hjoins, _, hfilter, _, hhaving, _, horder, _, hselect, _, htail,
          (), trivial, rfl⟩

end ObjectQuery
