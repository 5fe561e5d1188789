import ObjectQuery.Proofs.Compilation.Meaning
import ObjectQuery.Proofs.Expansion.Limit
import ObjectQuery.Proofs.Lowering.Comparison
import ObjectQuery.Proofs.Method.Registry

/-!
# Other limits and other registries

Two things are given to a compilation besides the model: how deep subqueries
may nest, and what is registered for the methods.

The limit only ever refuses. A larger one leaves every result as it is, and
every error but that of nesting too deep. Both stages count the subqueries
around what they look at, and neither count ever exceeds the limit, so a word
that holds the limit holds the counts.

The registry is asked only for the methods that the model calls. The calls
that are distributed over branches, and those in the copies that the expansion
makes, are calls of these methods too. So two registries that have the same
handlers for them compile the model alike, in every step.

## Main results

* `compile_of_le` — the limit only refuses.
* `compile_congr` — what is registered for other methods does not matter.
-/

namespace ObjectQuery

open Traced (Comparison)
open Traced.Comparison (Agree)

/-! ## Limits -/

/-- Subqueries nest deeper than allowed. -/
def LoweringError.IsTooDeep : LoweringError → Prop
  | .tooDeep _ => True
  | _ => False

/-- Subqueries nest deeper than allowed, in either stage. -/
def CompileError.IsTooDeep : CompileError → Prop
  | .expansion error => error.IsTooDeep
  | .lowering error => error.IsTooDeep

/-- The first compilation may only give up where subqueries nest too deep, and it
enters no subquery that is deeper than the limit. -/
def CompileEvent.comparison (limit : Nat) : Comparison CompileEvent CompileError where
  GivesUp := CompileError.IsTooDeep
  Expects event := ∀ depth, event = .lowering (.entered depth) → depth ≤ limit

/-- The same for lowering alone. -/
def LoweringEvent.comparison (limit : Nat) : Comparison LoweringEvent LoweringError where
  GivesUp := LoweringError.IsTooDeep
  Expects event := ∀ depth, event = .entered depth → depth ≤ limit

section

variable {limit limit' : Nat}

private theorem LoweringEvent.comparable (h : limit ≤ limit') :
    Lowering.Comparable (LoweringEvent.comparison limit) limit limit' :=
  ⟨.inr ⟨h, trivial⟩, fun _ hevent => hevent⟩

private theorem normalize_agrees (h : limit ≤ limit') (model : QueryModel) :
    (CompileEvent.comparison limit).Agree (model.normalize limit) (model.normalize limit') := by
  have hexpand : Expansion.comparison.Agree (model.expand limit) (model.expand limit') :=
    expandWithin_agrees h model
  have hstep : (CompileEvent.comparison limit).Agree
      ((model.expand limit).relabel CompileEvent.expansion CompileError.expansion)
      ((model.expand limit').relabel CompileEvent.expansion CompileError.expansion) :=
    hexpand.relabel (fun _ hdeep => hdeep) fun _ _ depth heq => by cases heq
  refine (Agree.emit fun depth heq => by cases heq).bind fun _ _ =>
    hstep.bind fun model' hok => ?_
  -- the announcement of the result tells whether there was an expansion, so that the
  -- results are equal is not enough
  have hsame : model.expand limit' = model.expand limit :=
    hexpand.eq_of_ok (mapError_eq_ok_iff.mp hok)
  rw [hsame]
  exact (Agree.emit fun depth heq => by cases heq).bind fun _ _ => .pure model'

private theorem compile_agrees (h : limit ≤ limit') (registry : Registry) (model : QueryModel) :
    (CompileEvent.comparison limit).Agree (model.compile registry limit)
      (model.compile registry limit') := by
  refine (normalize_agrees h model).bind fun expanded _ => ?_
  have hlower : (LoweringEvent.comparison limit).Agree (expanded.toQuery registry limit)
      (expanded.toQuery registry limit') :=
    QueryModel.lower_agrees (LoweringEvent.comparable h) 0 fun _ _ => rfl
  have hstep : (CompileEvent.comparison limit).Agree
      ((expanded.toQuery registry limit).relabel CompileEvent.lowering CompileError.lowering)
      ((expanded.toQuery registry limit').relabel CompileEvent.lowering CompileError.lowering) :=
    hlower.relabel (fun _ hdeep => hdeep) fun event hevent depth heq =>
      hevent depth (CompileEvent.lowering.inj heq)
  refine hstep.bind fun query _ => ?_
  exact (Agree.emit fun depth heq => by cases heq).bind fun _ _ => .pure _

end

/-- Under a larger limit a model is compiled to the same, and refused with the same
error, unless subqueries nested too deep for the smaller limit. Neither stage counts
further than the limit: a counter of the expansion does not overflow, and no subquery
is entered by the lowering that is deeper than the limit. -/
theorem compile_of_le {limit limit' : UInt32} (h : limit ≤ limit') (registry : Registry)
    (model : QueryModel) :
    (∀ compiled, (model.compile registry limit.toNat).outcome = .ok compiled →
      (model.compile registry limit'.toNat).outcome = .ok compiled) ∧
    (∀ e, (model.compile registry limit.toNat).outcome = .error e → ¬e.IsTooDeep →
      (model.compile registry limit'.toNat).outcome = .error e) ∧
    (∀ overflow, model.expandCounting overflow limit 0 = model.expand limit.toNat) ∧
    ∀ depth, .lowering (.entered depth) ∈ (model.compile registry limit.toNat).events →
      depth ≤ limit.toNat := by
  have hagrees := compile_agrees (UInt32.le_iff_toNat_le.mp h) registry model
  refine ⟨fun compiled hok => ?_, fun e he hkept => ?_,
    fun overflow => expandCounting_zero overflow limit model,
    fun depth hmem => hagrees.expects _ hmem depth rfl⟩
  · rw [hagrees.eq_of_ok hok, hok]
  · rw [hagrees.eq_of_error he hkept, he]

/-- The test in the source of `countWithSubqueryTest` comes to stand beside the counts,
so a limit of one is enough for both stages, and everything larger is the same. -/
theorem countWithSubqueryTest_compile_of_le :
    (1 : UInt32) ≤ 8 ∧
      (∃ compiled, (countWithSubqueryTest.compile .withDefaults 1).outcome = .ok compiled ∧
        (countWithSubqueryTest.compile .withDefaults 8).outcome = .ok compiled) ∧
      ∃ e, (countWithSubqueryTest.compile .withDefaults 0).outcome = .error e ∧ e.IsTooDeep := by
  have hle : (1 : UInt32) ≤ 8 := by decide
  have hone : (countWithSubqueryTest.compile .withDefaults 1).outcome = .ok _ := rfl
  exact ⟨hle, ⟨_, hone, (compile_of_le hle .withDefaults countWithSubqueryTest).1 _ hone⟩,
    .expansion (.tooDeep 0), rfl, trivial⟩

/-! ## Registries -/

private theorem Lowering.comparable_strict (limit : Nat) : Comparable .strict limit limit :=
  ⟨.inl rfl, fun _ _ => trivial⟩

/-- A model is compiled alike, step by step, with any two registries that have the same
handlers, or none, for the methods that the model calls. A registration for another
method makes no difference, whether it adds a handler or replaces one. -/
theorem compile_congr (model : QueryModel) (limit : Nat) :
    (∀ registry registry' : Registry,
      (∀ method, model.Calls method → registry'.lookup method = registry.lookup method) →
        model.compile registry' limit = model.compile registry limit) ∧
    ∀ (registry : Registry) (method : MethodSignature) (handler : Handler),
      ¬model.Calls method →
        model.compile (registry.register method handler) limit =
          model.compile registry limit := by
  have hpair : ∀ registry registry' : Registry,
      (∀ method, model.Calls method → registry'.lookup method = registry.lookup method) →
        model.compile registry' limit = model.compile registry limit := by
    intro registry registry' hlookup
    refine Comparison.agree_strict_iff.mp ?_
    refine (Agree.refl fun _ _ => trivial).bind fun expanded hexpanded => ?_
    -- what the normal form calls is called in the model
    have hcalls : ∀ method, expanded.Calls method → model.Calls method := by
      obtain ⟨-, -, result, hresult, -, -, hsame⟩ := by
        simpa only [QueryModel.normalize, Traced.outcome_bind_eq_ok] using hexpanded
      obtain rfl : result = expanded := Except.ok.inj hsame
      exact fun method => expandWithin_calls (mapError_eq_ok_iff.mp hresult)
    have hlower : expanded.toQuery registry' limit = expanded.toQuery registry limit :=
      Comparison.agree_strict_iff.mp <| QueryModel.lower_agrees (Lowering.comparable_strict limit) 0
        fun method hmethod => hlookup method (hcalls method hmethod)
    rw [hlower]
    exact .refl fun _ _ => trivial
  refine ⟨hpair, fun registry method handler hcalls => ?_⟩
  refine hpair registry (registry.register method handler) fun other hother => ?_
  rw [Registry.lookup_register, if_neg]
  rintro rfl
  exact hcalls hother

/-- The method that removes the blanks around a text. -/
def trimMethod : MethodSignature := ⟨"String", "Trim", []⟩

/-- The trimmed names of all orders. -/
def trimmedNames : QueryModel :=
  perOrder (.call trimMethod (some (orderProperty "Name" .string)) [] .string)

/-- A handler for the number of rows. -/
def rowsHandler : Handler := ⟨"RowCount", .function "rows", [countMethod], .never⟩

/-- The name of the handler that a call was given to, if an event tells of one. -/
def CompileEvent.handlerName? : CompileEvent → Option String
  | .lowering (.handled _ handler) => some handler
  | _ => none

/-- Another way to count does not matter to what only trims, and registered for
trimming it does. -/
theorem trimmedNames_compile_congr :
    ¬trimmedNames.Calls countMethod ∧
      trimmedNames.compile (Registry.withDefaults.register countMethod rowsHandler) 8 =
        trimmedNames.compile Registry.withDefaults 8 ∧
      trimmedNames.compile Registry.builtin 8 = trimmedNames.compile Registry.withDefaults 8 ∧
      trimmedNames.compile (Registry.withDefaults.register trimMethod rowsHandler) 8 ≠
        trimmedNames.compile Registry.withDefaults 8 := by
  have hcalls : ¬trimmedNames.Calls countMethod := by
    rintro ⟨e, he, hcalls⟩
    rcases List.mem_pair.mp he with rfl | rfl
    · obtain ⟨_, hnone, -⟩ := hcalls.of_operands (by simp) (by simp)
      cases hnone
    · obtain ⟨operand, hoperand, hcalls⟩ :=
        hcalls.of_operands (by simp [trimMethod, countMethod]) (by simp)
      obtain rfl := List.mem_singleton.mp hoperand
      obtain ⟨target, htarget, hcalls⟩ :=
        hcalls.of_operands (by simp [orderProperty]) (by simp [orderProperty])
      obtain rfl := List.mem_singleton.mp htarget
      obtain ⟨_, hnone, -⟩ := hcalls.of_operands (by simp) (by simp)
      cases hnone
  obtain ⟨hpair, hregister⟩ := compile_congr trimmedNames 8
  refine ⟨hcalls, hregister .withDefaults countMethod rowsHandler hcalls,
    hpair .withDefaults .builtin fun method _ => (Registry.lookup_childOf _ method).symm,
    fun heq => ?_⟩
  have hevents := congrArg (fun run => run.events.map CompileEvent.handlerName?) heq
  revert hevents
  decide

end ObjectQuery
