import ObjectQuery.Proofs.Lowering.Models

/-!
# Paging

The usual operator list drops repeated rows, then skips some, then takes
some, and ends in at most one operator that leaves a single value. The places
of a query stand in this very order. So lowering accepts every such list, and
the query does what the list says, operator by operator: however many rows
several skips and takes ask for, they leave what one skip of the sum and one
take of the least leaves.

The sum is the one thing that can go wrong. It is computed when the query
runs, in one word, so the numbers of rows to skip must add up to no more than
a word holds.

## Main definitions

* `Paging` — an operator list in paging order.
* `pagingStages` — the stages of such a list.

## Main results

* `runStages_paging` — the stages of such a list, in order, skip a sum and
  take a least number.
* `counts_foldl_paging` — so do the places that lowering fills.
-/

namespace ObjectQuery

open Hql (Node Query Aggregate)

variable {registry : Registry} {limit depth : Nat} {env : Environment} {outer : Scope}

/-! ## Lists in paging order -/

/-- Result operators in paging order. -/
structure Paging where
  /-- How often repeated rows are dropped. -/
  repeats : Nat
  skips : List Expr
  takes : List Expr
  /-- The operator that leaves a single value, if there is one. -/
  reduction : Option ResultOperator
  isScalar : ∀ operator ∈ reduction, operator.isScalar = true

/-- The result operators as a list. -/
def Paging.operators (paging : Paging) : List ResultOperator :=
  List.replicate paging.repeats .distinct ++
    (paging.skips.map .skip ++ (paging.takes.map .take ++ paging.reduction.toList))

/-- The stages of result operators in paging order. -/
def pagingStages (repeats : Nat) (skips takes : List Node) (aggregate : Option Aggregate) :
    List Stage :=
  List.replicate repeats .distinct ++
    (skips.map .skip ++ (takes.map .take ++ (aggregate.map .reduce).toList))

/-- An operator that leaves a single value has an aggregate for its stage, if
its operand can be lowered. -/
theorem ResultOperator.exists_stage_of_isScalar {operator : ResultOperator}
    (hscalar : operator.isScalar = true)
    (hoperand : ∀ e ∈ operator.operand?, e.Lowers registry limit depth) :
    ∃ aggregate,
      (operator.stage registry limit depth).outcome = .ok (.reduce aggregate) := by
  cases operator with
  | take count | skip count | distinct => cases hscalar
  | all predicate =>
      obtain ⟨node, hnode⟩ := hoperand predicate rfl
      exact ⟨.all node, Traced.outcome_map_eq_ok.mpr ⟨node, hnode, rfl⟩⟩
  | contains item =>
      obtain ⟨node, hnode⟩ := hoperand item rfl
      exact ⟨.contains node, Traced.outcome_map_eq_ok.mpr ⟨node, hnode, rfl⟩⟩
  | _ => exact ⟨_, rfl⟩

/-- Operands that can be lowered become the operands of stages. -/
theorem exists_stages_of_operands (wrap : Expr → ResultOperator) (stage : Node → Stage)
    (hwrap : ∀ e, (wrap e).stage registry limit depth = stage <$> e.lower registry limit depth)
    {operands : List Expr} (h : ∀ e ∈ operands, e.Lowers registry limit depth) :
    ∃ nodes : List Node, List.Forall₂ (fun operator stage =>
      (ResultOperator.stage registry limit depth operator).outcome = .ok stage)
        (operands.map wrap) (nodes.map stage) := by
  obtain ⟨nodes, hnodes⟩ := exists_forall₂ h
  refine ⟨nodes, ?_⟩
  rw [List.forall₂_map_left_iff, List.forall₂_map_right_iff]
  apply hnodes.imp
  intro e node hnode
  rw [hwrap]
  exact Traced.outcome_map_eq_ok.mpr ⟨node, hnode, rfl⟩

/-- The stages of result operators in paging order are in paging order. -/
theorem Paging.exists_stages {paging : Paging}
    (h : ∀ e ∈ paging.operators.filterMap ResultOperator.operand?,
      e.Lowers registry limit depth) :
    ∃ skips takes aggregate,
      (paging.operators.mapM (ResultOperator.stage registry limit depth)).outcome =
        .ok (pagingStages paging.repeats skips takes aggregate) := by
  obtain ⟨repeats, skips, takes, reduction, hscalar⟩ := paging
  simp only [Paging.operators, List.mem_filterMap, List.mem_append, List.mem_map,
    Option.mem_toList] at h
  have hskips : ∀ e ∈ skips, e.Lowers registry limit depth := fun e he =>
    h e ⟨.skip e, .inr (.inl ⟨e, he, rfl⟩), rfl⟩
  have htakes : ∀ e ∈ takes, e.Lowers registry limit depth := fun e he =>
    h e ⟨.take e, .inr (.inr (.inl ⟨e, he, rfl⟩)), rfl⟩
  obtain ⟨skipNodes, hskipNodes⟩ :=
    exists_stages_of_operands .skip .skip (fun _ => rfl) hskips
  obtain ⟨takeNodes, htakeNodes⟩ :=
    exists_stages_of_operands .take .take (fun _ => rfl) htakes
  have hrepeats : List.Forall₂ (fun operator stage =>
      (ResultOperator.stage registry limit depth operator).outcome = .ok stage)
      (List.replicate repeats .distinct) (List.replicate repeats .distinct) := by
    clear h
    induction repeats with
    | zero => exact .nil
    | succ n ih => exact .cons rfl ih
  have hreduction : ∃ aggregate : Option Aggregate, List.Forall₂ (fun operator stage =>
      (ResultOperator.stage registry limit depth operator).outcome = .ok stage)
      reduction.toList (aggregate.map Stage.reduce).toList := by
    cases reduction with
    | none => exact ⟨none, .nil⟩
    | some operator =>
        have hoperand : ∀ e ∈ operator.operand?, e.Lowers registry limit depth := fun e he =>
          h e ⟨operator, .inr (.inr (.inr rfl)), he⟩
        obtain ⟨aggregate, haggregate⟩ :=
          ResultOperator.exists_stage_of_isScalar (hscalar operator rfl) hoperand
        exact ⟨some aggregate, .cons haggregate .nil⟩
  obtain ⟨aggregate, haggregate⟩ := hreduction
  refine ⟨skipNodes, takeNodes, aggregate, mapM_stage_outcome_iff.mpr ?_⟩
  exact List.rel_append hrepeats
    (List.rel_append hskipNodes (List.rel_append htakeNodes haggregate))

/-! ## What a list in paging order does -/

/-- The number of rows that a count says. -/
def Hql.Node.rowsCounted (env : Environment) (outer : Scope) (count : Node) : Nat :=
  (Stage.skip count).skippedRows env outer

/-- The number of rows to take after one more take. -/
def leastTaken (taken : Option Nat) (more : Nat) : Option Nat :=
  some ((taken.map (min more)).getD more)

/-- The number that a stage counts, if it counts, is an integer. A negative one counts no
rows. -/
def Stage.CountsIntegers (env : Environment) (outer : Scope) (stage : Stage) : Prop :=
  ∀ count, stage.count? = some count → ∃ n : Int64, count.eval env outer = .ok (.integer n)

private theorem Stage.CountsRows.countsIntegers {stage : Stage} (h : stage.CountsRows env outer) :
    stage.CountsIntegers env outer := by
  intro count hcount
  obtain ⟨n, hn, -⟩ := h count hcount
  exact ⟨n, hn⟩

private theorem Stage.CountsIntegers.eval_eq {stage : Stage} {count : Node}
    (h : stage.CountsIntegers env outer) (hcount : stage.count? = some count) :
    ∃ n : Int64, count.eval env outer = .ok (.integer n) ∧
      n.toInt.toNat = count.rowsCounted env outer := by
  obtain ⟨n, hn⟩ := h count hcount
  exact ⟨n, hn, by simp [Node.rowsCounted, Stage.skippedRows, hn]⟩

private theorem Stage.CountsRows.eval_eq {stage : Stage} {count : Node}
    (h : stage.CountsRows env outer) (hcount : stage.count? = some count) :
    ∃ n : Int64, count.eval env outer = .ok (.integer n) ∧ 0 ≤ n.toInt ∧
      n.toInt.toNat = count.rowsCounted env outer := by
  obtain ⟨n, hn, hpos⟩ := h count hcount
  exact ⟨n, hn, hpos, by simp [Node.rowsCounted, Stage.skippedRows, hn]⟩

private theorem runStages_repeats (repeats : Nat) (rest : List Stage) (rows : List Row) :
    runStages env outer (List.replicate repeats .distinct ++ rest) rows =
      runStages env outer rest
        (if 0 < repeats then Value.distinctBy Row.value [] rows else rows) := by
  induction repeats generalizing rows with
  | zero => rfl
  | succ n ih =>
      rw [List.replicate_succ, List.cons_append, runStages, ih, Value.distinctBy_idem, ite_self,
        if_pos (Nat.succ_pos n)]

/-- Several skips skip the sum. -/
theorem runStages_skips {counts : List Node}
    (hcounts : ∀ count ∈ counts, (Stage.skip count).CountsIntegers env outer)
    (skipped : Nat) (rest : List Stage) (rows : List Row) :
    runStages env outer (counts.map .skip ++ rest) (page skipped none rows) =
      runStages env outer rest
        (page (skipped + (counts.map (·.rowsCounted env outer)).sum) none rows) := by
  induction counts generalizing skipped with
  | nil => rfl
  | cons count counts ih =>
      obtain ⟨n, hn, hrows⟩ := (hcounts count (by simp)).eval_eq rfl
      have hrest := ih (fun other hother => hcounts other (by simp [hother]))
        (skipped + count.rowsCounted env outer)
      rw [Nat.add_assoc] at hrest
      simp only [List.map_cons, List.cons_append, List.sum_cons, runStages, hn, ok_bind,
        rowCount, hrows, drop_page_none]
      exact hrest

/-- Several takes take the least number. -/
theorem runStages_takes {counts : List Node}
    (hcounts : ∀ count ∈ counts, (Stage.take count).CountsIntegers env outer)
    (skipped : Nat) (taken : Option Nat) (rest : List Stage) (rows : List Row) :
    runStages env outer (counts.map .take ++ rest) (page skipped taken rows) =
      runStages env outer rest
        (page skipped ((counts.map (·.rowsCounted env outer)).foldl leastTaken taken) rows) := by
  induction counts generalizing taken with
  | nil => rfl
  | cons count counts ih =>
      obtain ⟨n, hn, hrows⟩ := (hcounts count (by simp)).eval_eq rfl
      have hrest := ih (fun other hother => hcounts other (by simp [hother]))
        (leastTaken taken (count.rowsCounted env outer))
      simp only [List.map_cons, List.cons_append, List.foldl_cons, runStages, hn, ok_bind,
        rowCount, hrows, take_page]
      exact hrest

private theorem runStages_reduction (aggregate : Option Aggregate) (rows : List Row) :
    runStages env outer (aggregate.map .reduce).toList rows =
      Hql.runAggregate env aggregate rows outer := by
  cases aggregate with
  | none => rfl
  | some aggregate => rfl

/-! ## What the places do -/

namespace Tail

/-- A property of tails that admits each of several stages and outlasts it
admits them all. -/
theorem admitsAll_of_invariant {P : Tail → Prop} {tail : Tail} {stages : List Stage}
    (hstep : ∀ stage ∈ stages, ∀ tail, P tail → tail.Admits stage ∧ P (tail.after stage))
    (h : P tail) : tail.AdmitsAll stages ∧ P (stages.foldl after tail) := by
  induction stages generalizing tail with
  | nil => exact ⟨trivial, h⟩
  | cons stage rest ih =>
      have hstage := hstep stage (by simp) tail h
      have hrest := ih (fun other hother => hstep other (by simp [hother])) hstage.2
      exact ⟨⟨hstage.1, hrest.1⟩, hrest.2⟩

theorem admitsAll_append {tail : Tail} {first second : List Stage} :
    tail.AdmitsAll (first ++ second) ↔
      tail.AdmitsAll first ∧ (first.foldl after tail).AdmitsAll second := by
  induction first generalizing tail with
  | nil => simp [AdmitsAll]
  | cons stage rest ih => simp [AdmitsAll, ih, and_assoc]

/-- No single value is left yet, and repeated rows are dropped or not. -/
structure IsTaking (distinct : Bool) (tail : Tail) : Prop where
  distinct : tail.distinct = distinct
  aggregate : tail.aggregate = none

/-- Besides, no rows are taken yet. -/
structure IsSkipping (distinct : Bool) (tail : Tail) : Prop extends tail.IsTaking distinct where
  take : tail.take = none

theorem foldl_after_repeats (repeats : Nat) :
    empty.AdmitsAll (List.replicate repeats .distinct) ∧
      (List.replicate repeats .distinct).foldl after empty =
        { empty with distinct := decide (0 < repeats) } := by
  constructor
  · refine (admitsAll_of_invariant (P := fun tail => tail.aggregate = none) ?_ rfl).1
    intro stage hstage tail htail
    obtain rfl := List.eq_of_mem_replicate hstage
    exact ⟨⟨htail, fun _ h => nomatch h⟩, htail⟩
  · induction repeats with
    | zero => rfl
    | succ n ih => rw [List.replicate_succ', List.foldl_append, ih]; simp [after, distinctly]

private theorem foldl_after_skips {tail : Tail} {distinct : Bool} (h : tail.IsSkipping distinct)
    (counts : List Node) :
    tail.AdmitsAll (counts.map .skip) ∧
      ((counts.map .skip).foldl after tail).IsSkipping distinct := by
  apply admitsAll_of_invariant _ h
  intro stage hstage tail htail
  obtain ⟨count, -, rfl⟩ := List.mem_map.mp hstage
  have hafter : (tail.after (.skip count)).IsSkipping distinct :=
    ⟨⟨htail.distinct, htail.aggregate⟩, htail.take⟩
  exact ⟨⟨htail.aggregate, fun _ _ => htail.take⟩, hafter⟩

private theorem foldl_after_takes {tail : Tail} {distinct : Bool} (h : tail.IsTaking distinct)
    (counts : List Node) :
    tail.AdmitsAll (counts.map .take) ∧
      ((counts.map .take).foldl after tail).IsTaking distinct := by
  apply admitsAll_of_invariant _ h
  intro stage hstage tail htail
  obtain ⟨count, -, rfl⟩ := List.mem_map.mp hstage
  exact ⟨⟨htail.aggregate, fun _ h => nomatch h⟩, ⟨htail.distinct, htail.aggregate⟩⟩

/-- The run lemma for skips: the counts add up. -/
theorem Counts.skippingAll {tail : Tail} {skipped : Nat} {taken : Option Nat}
    (h : tail.Counts env outer skipped taken) {counts : List Node}
    (hcounts : ∀ count ∈ counts, (Stage.skip count).CountsRows env outer) :
    ((counts.map .skip).foldl after tail).Counts env outer
      (skipped + (counts.map (·.rowsCounted env outer)).sum) taken := by
  induction counts generalizing tail skipped with
  | nil => exact h
  | cons count counts ih =>
      obtain ⟨n, hn, hpos, hrows⟩ := (hcounts count (by simp)).eval_eq rfl
      have hstep := h.skipping hn hpos
      have hrest := ih hstep fun other hother => hcounts other (by simp [hother])
      rw [hrows, Nat.add_assoc] at hrest
      exact hrest

/-- The run lemma for takes: the least count is kept. -/
theorem Counts.takingAll {tail : Tail} {skipped : Nat} {taken : Option Nat}
    (h : tail.Counts env outer skipped taken) {counts : List Node}
    (hcounts : ∀ count ∈ counts, (Stage.take count).CountsIntegers env outer) :
    ((counts.map .take).foldl after tail).Counts env outer skipped
      ((counts.map (·.rowsCounted env outer)).foldl leastTaken taken) := by
  induction counts generalizing tail taken with
  | nil => exact h
  | cons count counts ih =>
      obtain ⟨n, hn, hrows⟩ := (hcounts count (by simp)).eval_eq rfl
      have hstep := h.taking hn
      have hrest := ih hstep fun other hother => hcounts other (by simp [hother])
      rw [hrows] at hrest
      exact hrest

/-- The places filled in, where the number of rows to skip fits into a word. -/
theorem Counts.finish_eq_of_le {tail : Tail} {skipped : Nat} {taken : Option Nat}
    (h : tail.Counts env outer skipped taken)
    (hfits : (skipped : Int) ≤ Int64.maxValue.toInt) (rows : List Row) :
    tail.finish env outer rows =
      Hql.runAggregate env tail.aggregate
        (page skipped taken
          (if tail.distinct then Value.distinctBy Row.value [] rows else rows))
        outer := by
  obtain ⟨w, hw⟩ := Option.isSome_iff_exists.mp (Word64.exactly?_natCast_isSome_iff.mpr hfits)
  have hskipped := h.skipped_eq
  rw [hw] at hskipped
  obtain ⟨known, hknown, hdrop⟩ := Option.map_eq_some_iff.mp hskipped
  rw [toOption_eq_some] at hknown
  simp only [finish, hknown, h.taken_eq, ok_bind, hdrop]
  rfl

end Tail

/-! ## Both together -/

section

variable {repeats : Nat} {skips takes : List Node} {aggregate : Option Aggregate}

/-- The stages skip what the skips among them count. -/
theorem skippedRows_pagingStages (env : Environment) (outer : Scope) :
    ((pagingStages repeats skips takes aggregate).map (Stage.skippedRows env outer)).sum =
      (skips.map (·.rowsCounted env outer)).sum := by
  have htakes : ((takes.map Stage.take).map (Stage.skippedRows env outer)).sum = 0 := by
    simp [Stage.skippedRows, Function.comp_def]
  have hreduction :
      ((aggregate.map Stage.reduce).toList.map (Stage.skippedRows env outer)).sum = 0 := by
    cases aggregate <;> rfl
  have hskips : (skips.map Stage.skip).map (Stage.skippedRows env outer) =
      skips.map (·.rowsCounted env outer) := by
    rw [List.map_map]
    rfl
  have hrepeats : ((List.replicate repeats Stage.distinct).map
      (Stage.skippedRows env outer)).sum = 0 := by
    simp [Stage.skippedRows]
  simp only [pagingStages, List.map_append, List.sum_append, hrepeats, htakes, hreduction, hskips,
    Nat.zero_add, Nat.add_zero]

/-- The stages of a list in paging order, applied in order: repeated rows
are dropped, the sum of the skips is skipped, the least of the takes is
taken. -/
theorem runStages_paging
    (hcounts : ∀ stage ∈ pagingStages repeats skips takes aggregate,
      stage.CountsIntegers env outer) (rows : List Row) :
    runStages env outer (pagingStages repeats skips takes aggregate) rows =
      Hql.runAggregate env aggregate
        (page (skips.map (·.rowsCounted env outer)).sum
          ((takes.map (·.rowsCounted env outer)).foldl leastTaken none)
          (if 0 < repeats then Value.distinctBy Row.value [] rows else rows))
        outer := by
  have hskips : ∀ count ∈ skips, (Stage.skip count).CountsIntegers env outer :=
    fun count hcount => hcounts _ (by simp [pagingStages, hcount])
  have htakes : ∀ count ∈ takes, (Stage.take count).CountsIntegers env outer :=
    fun count hcount => hcounts _ (by simp [pagingStages, hcount])
  rw [pagingStages, runStages_repeats]
  generalize (if 0 < repeats then Value.distinctBy Row.value [] rows else rows) = rows
  have hskip := runStages_skips hskips 0
    (takes.map .take ++ (aggregate.map .reduce).toList) rows
  rw [page_none, List.drop_zero, Nat.zero_add] at hskip
  rw [hskip, runStages_takes htakes, runStages_reduction]

/-- The places that a list in paging order fills count the sum of the skips
and the least of the takes. -/
theorem counts_foldl_paging
    (hskips : ∀ count ∈ skips, (Stage.skip count).CountsRows env outer)
    (htakes : ∀ count ∈ takes, (Stage.take count).CountsIntegers env outer) :
    ((pagingStages repeats skips takes aggregate).foldl Tail.after .empty).Counts env outer
      (skips.map (·.rowsCounted env outer)).sum
      ((takes.map (·.rowsCounted env outer)).foldl leastTaken none) := by
  have hempty : ({ Tail.empty with distinct := decide (0 < repeats) } : Tail).Counts env outer
      0 none := ⟨rfl, trivial⟩
  have hpaged := (hempty.skippingAll hskips).takingAll htakes
  rw [Nat.zero_add] at hpaged
  rw [pagingStages, List.foldl_append, (Tail.foldl_after_repeats repeats).2, List.foldl_append,
    List.foldl_append]
  cases aggregate with
  | none => exact hpaged
  | some aggregate => exact ⟨hpaged.skip, hpaged.take⟩

/-- A list in paging order is accepted, and fills the places of its repeated
rows and its aggregate. -/
theorem foldl_after_paging (repeats : Nat) (skips takes : List Node)
    (aggregate : Option Aggregate) :
    Tail.empty.AdmitsAll (pagingStages repeats skips takes aggregate) ∧
      ((pagingStages repeats skips takes aggregate).foldl Tail.after .empty).distinct =
        decide (0 < repeats) ∧
      ((pagingStages repeats skips takes aggregate).foldl Tail.after .empty).aggregate =
        aggregate := by
  obtain ⟨hrepeats, htail⟩ := Tail.foldl_after_repeats repeats
  have hempty : ({ Tail.empty with distinct := decide (0 < repeats) } : Tail).IsSkipping
      (decide (0 < repeats)) := ⟨⟨rfl, rfl⟩, rfl⟩
  obtain ⟨hskips, hskipping⟩ := Tail.foldl_after_skips hempty skips
  obtain ⟨htakes, htaking⟩ := Tail.foldl_after_takes hskipping.toIsTaking takes
  simp only [pagingStages, Tail.admitsAll_append, List.foldl_append, htail]
  cases aggregate with
  | none => exact ⟨⟨hrepeats, hskips, htakes, trivial⟩, htaking.distinct, htaking.aggregate⟩
  | some aggregate =>
      have hmay : Tail.Admits _ (.reduce aggregate) := ⟨htaking.aggregate, fun _ h => nomatch h⟩
      exact ⟨⟨hrepeats, hskips, htakes, hmay, trivial⟩, htaking.distinct, rfl⟩

/-- The places that a list in paging order fills do what the list does. -/
theorem finish_foldl_paging
    (hcounts : ∀ stage ∈ pagingStages repeats skips takes aggregate,
      stage.CountsRows env outer)
    (hfits : (((pagingStages repeats skips takes aggregate).map
      (Stage.skippedRows env outer)).sum : Int) ≤ Int64.maxValue.toInt) (rows : List Row) :
    ((pagingStages repeats skips takes aggregate).foldl Tail.after .empty).finish env outer rows =
      runStages env outer (pagingStages repeats skips takes aggregate) rows := by
  obtain ⟨-, hdistinct, haggregate⟩ := foldl_after_paging repeats skips takes aggregate
  have hskips : ∀ count ∈ skips, (Stage.skip count).CountsRows env outer :=
    fun count hcount => hcounts _ (by simp [pagingStages, hcount])
  have hintegers : ∀ stage ∈ pagingStages repeats skips takes aggregate,
      stage.CountsIntegers env outer := fun stage hstage => (hcounts stage hstage).countsIntegers
  have htakes : ∀ count ∈ takes, (Stage.take count).CountsIntegers env outer :=
    fun count hcount => hintegers _ (by simp [pagingStages, hcount])
  rw [skippedRows_pagingStages] at hfits
  rw [(counts_foldl_paging hskips htakes).finish_eq_of_le hfits, runStages_paging hintegers,
    hdistinct, haggregate]
  simp only [decide_eq_true_eq]

end

/-- A model whose result operators stand in paging order can be lowered if it can be lowered
without them and the operands can be. Its query then does with the rows what the places do that
the operators fill. -/
theorem Paging.exists_query {model : QueryModel} {bare : Query} {paging : Paging}
    (hoperators : model.operators = paging.operators)
    (hbare : ({ model with operators := [] }.lower registry limit depth).outcome = .ok bare)
    (hoperands : ∀ e ∈ model.operators.filterMap ResultOperator.operand?,
      e.Lowers registry limit depth) :
    ∃ query skips takes aggregate, (model.lower registry limit depth).outcome = .ok query ∧
      (model.operators.mapM (ResultOperator.stage registry limit depth)).outcome =
        .ok (pagingStages paging.repeats skips takes aggregate) ∧
      ∀ env outer, query.run env outer = bare.rows env outer >>=
        ((pagingStages paging.repeats skips takes aggregate).foldl Tail.after .empty).finish env
          outer := by
  rw [hoperators] at hoperands ⊢
  obtain ⟨skips, takes, aggregate, hstages⟩ := Paging.exists_stages hoperands
  obtain ⟨hadmits, -⟩ := foldl_after_paging paging.repeats skips takes aggregate
  generalize htail :
    (pagingStages paging.repeats skips takes aggregate).foldl Tail.after .empty = tail
  have hlower := QueryModel.lower_eq_ok_iff.mp hbare
  refine ⟨{ bare with
    distinct := tail.distinct
    skip := tail.skip
    take := tail.take
    aggregate := tail.aggregate }, skips, takes, aggregate, ?_, hstages, ?_⟩
  · apply QueryModel.lower_eq_ok_iff.mpr
    refine ⟨hlower.source, hlower.name, hlower.joins, hlower.filter, hlower.having, hlower.order,
      hlower.select, ?_⟩
    rw [hoperators]
    exact lowerOperators_eq_ok.mpr ⟨_, hstages, hadmits, htail⟩
  · intro env outer
    rw [htail, Query.run_eq, ← bind_assoc]
    rfl

/-- A model whose result operators stand in paging order can be lowered if it
can be lowered without them and the operands can be, and its query returns
what the operators, applied one after the other, make of the rows. -/
theorem lower_run_of_paging {model : QueryModel} {bare : Query} {paging : Paging}
    (hoperators : model.operators = paging.operators)
    (hbare : ({ model with operators := [] }.lower registry limit depth).outcome = .ok bare)
    (hoperands : ∀ e ∈ model.operators.filterMap ResultOperator.operand?,
      e.Lowers registry limit depth) :
    ∃ query stages, (model.lower registry limit depth).outcome = .ok query ∧
      (model.operators.mapM (ResultOperator.stage registry limit depth)).outcome = .ok stages ∧
      ∀ env outer, (∀ stage ∈ stages, stage.CountsRows env outer) →
        ((stages.map (Stage.skippedRows env outer)).sum : Int) ≤ Int64.maxValue.toInt →
        query.run env outer = bare.rows env outer >>= runStages env outer stages := by
  obtain ⟨query, skips, takes, aggregate, hlower, hstages, hrun⟩ :=
    Paging.exists_query hoperators hbare hoperands
  refine ⟨query, _, hlower, hstages, ?_⟩
  intro env outer hcounts hfits
  rw [hrun]
  exact bind_congr (finish_foldl_paging hcounts hfits)

/-- Records with the amounts 1, 1, 2, 3, 4 and 5. -/
def sixAmounts : Environment :=
  ⟨⟨[("Invoice", [1, 1, 2, 3, 4, 5].map fun n => [("Amount", .integer n)])]⟩, []⟩

/-- The sum of a page of the amounts, the page cut out in several steps. -/
def sumOfPage : QueryModel :=
  { QueryModel.ofSource "e" (.entity "Invoice") (.constant (.queryable "Invoice")) with
    selector := some (.member (.source "e" (.entity "Invoice")) "Amount" .integer)
    operators := [.distinct, .skip (.constant (.integer 1)), .skip (.constant (.integer 1)),
      .take (.constant (.integer 3)), .take (.constant (.integer 2)), .sum] }

/-- The operators of `sumOfPage`. -/
def sumOfPagePaging : Paging :=
  ⟨1, [.constant (.integer 1), .constant (.integer 1)],
    [.constant (.integer 3), .constant (.integer 2)], some .sum, fun _ h => by cases h; rfl⟩

/-- Of the five different amounts the first two are skipped, and the next
two added up. -/
theorem sumOfPage_execute :
    ∃ query, (sumOfPage.toQuery .builtin 8).outcome = .ok query ∧
      query.execute sixAmounts = .ok (.integer 7) := by
  have hoperands : ∀ e ∈ sumOfPage.operators.filterMap ResultOperator.operand?,
      e.Lowers .builtin 8 0 := by
    intro e he
    simp only [sumOfPage, List.filterMap_cons, ResultOperator.operand?, List.filterMap_nil,
      List.mem_cons, List.not_mem_nil, or_false] at he
    rcases he with rfl | rfl | rfl | rfl <;> exact ⟨_, rfl⟩
  obtain ⟨query, stages, hlower, hstages, hrun⟩ :=
    @lower_run_of_paging .builtin 8 0 sumOfPage _ sumOfPagePaging rfl rfl hoperands
  obtain rfl : [.distinct, .skip (.constant (.integer 1)), .skip (.constant (.integer 1)),
    .take (.constant (.integer 3)), .take (.constant (.integer 2)), .reduce .sum] = stages :=
      Except.ok.inj hstages
  refine ⟨query, hlower, ?_⟩
  refine (hrun sixAmounts [] ?_ (by decide)).trans ?_
  · intro stage hstage count hcount
    simp only [List.mem_cons, List.not_mem_nil, or_false] at hstage
    rcases hstage with rfl | rfl | rfl | rfl | rfl | rfl <;> cases hcount
    all_goals exact ⟨_, rfl, by decide⟩
  · rw [Hql.Query.rows]
    unfold Hql.Query.selected
    simp only [Hql.sortScopes_nil]
    rfl

end ObjectQuery
