import Mathlib.Algebra.Order.BigOperators.Group.List
import ObjectQuery.Proofs.Lowering.Paging
import ObjectQuery.Proofs.Value.Sum

/-!
# Skipping negative numbers of rows

A number of rows to skip or to take may be negative, and counts as zero then. For
several takes nothing depends on when that is looked at, since the least of
several numbers is negative exactly if one of them is. Several skips are added up
first, and only their total counts as zero where it is negative. So a negative
number takes back some of what another one skips, which it does not where the
operators apply one after the other.

The total is computed in one word, from left to right. Once a leading sum leaves
the words, the query fails.

## Main definitions

* `foldedSkip` — the number of rows to skip that several skips are lowered to.

## Main results

* `evalCount_foldedSkip` — the folded skips count their total, or overflow.
* `drop_sum_eq_drop_gain_iff` — when skipping the total leaves the rows that
  skipping each number leaves.
* `lower_run_of_skips` — what a query in paging order does if numbers are negative.
-/

namespace ObjectQuery

open Hql (Node Query Aggregate)

variable {registry : Registry} {limit depth : Nat} {env : Environment} {outer : Scope}

/-! ## Numbers and their total -/

/-- The number that a count says. -/
def Hql.Node.numberCounted (env : Environment) (outer : Scope) (count : Node) : Int :=
  match count.eval env outer with
  | .ok (.integer n) => n.toInt
  | _ => 0

private theorem Hql.Node.rowsCounted_eq (count : Node) :
    count.rowsCounted env outer = (count.numberCounted env outer).toNat := by
  show (match count.eval env outer with
    | .ok (.integer n) => n.toInt.toNat
    | _ => 0) = _
  unfold numberCounted
  split <;> rfl

private theorem gain_nonneg (ns : List Int) : 0 ≤ gain ns := by
  have hbounds := sum_mem_of_prefix (List.nil_prefix (l := ns))
  exact hbounds.2

private theorem loss_nonpos (ns : List Int) : loss ns ≤ 0 := by
  have hbounds := sum_mem_of_prefix (List.nil_prefix (l := ns))
  exact hbounds.1

/-- Numbers that count as zero where they are negative add up to the sum of the positive
ones. -/
theorem sum_toNat (ns : List Int) : (ns.map Int.toNat).sum = (gain ns).toNat := by
  induction ns with
  | nil => rfl
  | cons n ns ih =>
      have hrest := gain_nonneg ns
      rw [List.map_cons, List.sum_cons, ih, gain_cons]
      omega

private theorem gain_add_loss (ns : List Int) : gain ns + loss ns = ns.sum := by
  induction ns with
  | nil => rfl
  | cons n ns ih =>
      rw [gain_cons, loss_cons, List.sum_cons]
      omega

private theorem gain_pos {ns : List Int} (h : ∃ n ∈ ns, 0 < n) : 0 < gain ns := by
  obtain ⟨n, hn, hpos⟩ := h
  refine List.sum_pos _ (fun m hm => ?_) (List.ne_nil_of_mem (List.mem_filter.mpr ⟨hn, ?_⟩))
  · exact of_decide_eq_true (List.mem_filter.mp hm).2
  · exact decide_eq_true hpos

private theorem loss_neg {ns : List Int} (h : ∃ n ∈ ns, n < 0) : loss ns < 0 := by
  induction ns with
  | nil => simp at h
  | cons n ns ih =>
      have hrest := loss_nonpos ns
      rw [loss_cons]
      obtain ⟨m, hm, hneg⟩ := h
      rcases List.mem_cons.mp hm with rfl | hm
      · omega
      · have hloss := ih ⟨m, hm, hneg⟩
        omega

/-- Skipping the total of several numbers leaves the rows that are left by skipping each of
them, a negative one counted as zero, exactly if no two of them have opposite signs or no row
is left. -/
theorem drop_sum_eq_drop_gain_iff {α : Type} (ns : List Int) (rows : List α) :
    rows.drop ns.sum.toNat = rows.drop (gain ns).toNat ↔
      (∀ n ∈ ns, 0 ≤ n) ∨ (∀ n ∈ ns, n ≤ 0) ∨ rows.length ≤ ns.sum.toNat := by
  have hsum := gain_add_loss ns
  have hnonpos := loss_nonpos ns
  constructor
  · intro h
    by_contra hnot
    simp only [not_or, not_forall, Int.not_le, Nat.not_le, exists_prop] at hnot
    obtain ⟨hnegative, hpositive, hlength⟩ := hnot
    have hgain := gain_pos hpositive
    have hloss := loss_neg hnegative
    have hleft := congrArg List.length h
    rw [List.length_drop, List.length_drop] at hleft
    omega
  · rintro (hpositive | hnegative | hlength)
    · rw [← hsum, loss_eq_zero hpositive, Int.add_zero]
    · have hgain := gain_eq_zero hnegative
      rw [hgain, Int.toNat_of_nonpos (by omega)]
      rfl
    · rw [List.drop_eq_nil_of_le hlength, List.drop_eq_nil_of_le (by omega)]

/-! ## The folded skips -/

/-- The number of rows to skip that several skips are lowered to. -/
def foldedSkip : List Node → Option Node
  | [] => none
  | count :: counts => some (counts.foldl (.binary .add) count)

/-- The value of nodes added to a node. -/
theorem foldl_add_eval {counts : List Node} {ws : List Int64}
    (h : List.Forall₂ (fun count w => count.eval env outer = .ok (.integer w)) counts ws)
    (previous : Node) :
    (counts.foldl (.binary .add) previous).eval env outer =
      previous.eval env outer >>= (ws.map Value.integer).foldlM (Value.arithmetic .add) := by
  induction h generalizing previous with
  | nil => exact (bind_pure _).symm
  | cons hcount _ ih =>
      rw [List.foldl_cons, ih, Node.eval, hcount, List.map_cons]
      simp only [bind_assoc, ok_bind, List.foldlM_cons]
      rfl

private theorem numberCounted_eq {counts : List Node} {ws : List Int64}
    (h : List.Forall₂ (fun count w => count.eval env outer = .ok (.integer w)) counts ws) :
    counts.map (Node.numberCounted env outer) = ws.map Int64.toInt := by
  induction h with
  | nil => rfl
  | cons hcount _ ih =>
      rw [List.map_cons, List.map_cons, ih, Node.numberCounted, hcount]

/-- The folded skips count the total of their numbers if all leading sums are words, and
overflow otherwise. -/
theorem evalCount_foldedSkip {counts : List Node}
    (hcounts : ∀ count ∈ counts, (Stage.skip count).CountsIntegers env outer) :
    (SumsFit 0 (counts.map (Node.numberCounted env outer)) ∧
      ∃ skipped, Hql.evalCount env (foldedSkip counts) outer = .ok skipped ∧
        skipped.getD 0 = (counts.map (Node.numberCounted env outer)).sum.toNat) ∨
    ∃ operation, Value.OverflowsAt 0 (counts.map (Node.numberCounted env outer)) operation ∧
      Hql.evalCount env (foldedSkip counts) outer = .error (.overflow operation) := by
  obtain ⟨ws, hws⟩ := exists_forall₂ fun count hcount => hcounts count hcount count rfl
  rw [numberCounted_eq hws]
  have hzero : Word64.Fits 0 := by decide
  cases hws with
  | nil => exact .inl ⟨sumsFit_nil.mpr hzero, none, rfl, rfl⟩
  | @cons count w counts ws hw hws =>
      rw [foldedSkip, List.map_cons, Hql.evalCount, foldl_add_eval hws, hw, ok_bind]
      rcases Value.foldlM_add w ws with ⟨hsums, total, htotal, hrun⟩ | ⟨operation, hover, hrun⟩
      · refine .inl ⟨sumsFit_cons.mpr ⟨hzero, by rwa [Int.zero_add]⟩, some total.toInt.toNat,
          ?_, ?_⟩
        · rw [hrun]
          rfl
        · rw [List.sum_cons, ← htotal]
          rfl
      · refine .inr ⟨operation, .cons hzero (by rwa [Int.zero_add]), ?_⟩
        rw [hrun]
        rfl

/-! ## The places that lowering fills -/

namespace Tail

private theorem foldl_skips (tail : Tail) (previous : Node) (counts : List Node) :
    (counts.map .skip).foldl after { tail with skip := some previous } =
      { tail with skip := some (counts.foldl (.binary .add) previous) } := by
  induction counts generalizing previous with
  | nil => rfl
  | cons count counts ih => exact ih (.binary .add previous count)

/-- Several skips fill one place. -/
theorem foldl_skips_eq (tail : Tail) (counts : List Node) :
    (counts.map .skip).foldl after { tail with skip := none } =
      { tail with skip := foldedSkip counts } := by
  cases counts with
  | nil => rfl
  | cons count counts => exact foldl_skips tail count counts

/-- Stages that do not skip leave the place of the skips alone. -/
theorem foldl_withSkip {stages : List Stage} (h : ∀ stage ∈ stages, ∀ count, stage ≠ .skip count)
    (tail : Tail) (skip : Option Node) :
    stages.foldl after { tail with skip := skip } =
      { stages.foldl after tail with skip := skip } := by
  induction stages generalizing tail with
  | nil => rfl
  | cons stage rest ih =>
      obtain ⟨hstage, hrest⟩ := List.forall_mem_cons.mp h
      cases stage with
      | skip count => exact absurd rfl (hstage count)
      | distinct => exact ih hrest (tail.after .distinct)
      | take count => exact ih hrest (tail.after (.take count))
      | reduce aggregate => exact ih hrest (tail.after (.reduce aggregate))

end Tail

section

variable {repeats : Nat} {skips takes : List Node} {aggregate : Option Aggregate}

/-- A list in paging order fills the place of the skips with the folded ones, and the others as
it does without skips. -/
theorem foldl_paging_eq (repeats : Nat) (skips takes : List Node) (aggregate : Option Aggregate) :
    (pagingStages repeats skips takes aggregate).foldl Tail.after .empty =
      { (pagingStages repeats [] takes aggregate).foldl Tail.after .empty with
        skip := foldedSkip skips } := by
  have hrest : ∀ stage ∈ takes.map Stage.take ++ (aggregate.map Stage.reduce).toList,
      ∀ count, stage ≠ .skip count := by
    rintro _ hstage count rfl
    simp at hstage
  have hparts : ∀ skips, (pagingStages repeats skips takes aggregate).foldl Tail.after .empty =
      (takes.map Stage.take ++ (aggregate.map Stage.reduce).toList).foldl Tail.after
        ((skips.map Stage.skip).foldl Tail.after
          { Tail.empty with distinct := decide (0 < repeats) }) := by
    intro skips
    rw [pagingStages, List.foldl_append, (Tail.foldl_after_repeats repeats).2, List.foldl_append]
  rw [hparts skips, hparts [], ← Tail.foldl_withSkip hrest]
  exact congrArg (List.foldl Tail.after · _)
    (Tail.foldl_skips_eq { Tail.empty with distinct := decide (0 < repeats) } skips)

private theorem countsIntegers_of_paging
    (hcounts : ∀ stage ∈ pagingStages repeats skips takes aggregate,
      stage.CountsIntegers env outer) :
    ∀ stage ∈ pagingStages 0 [] takes aggregate, stage.CountsIntegers env outer := by
  intro stage hstage
  apply hcounts
  simp only [pagingStages, List.replicate_zero, List.map_nil, List.nil_append] at hstage ⊢
  exact List.mem_append_right _ (List.mem_append_right _ hstage)

/-- The places that a list in paging order fills do what the list does without its skips, on the
rows that the folded skips leave. -/
theorem finish_foldl_paging_eq
    (hcounts : ∀ stage ∈ pagingStages repeats skips takes aggregate,
      stage.CountsIntegers env outer) (rows : List Row) :
    ((pagingStages repeats skips takes aggregate).foldl Tail.after .empty).finish env outer rows =
      Hql.evalCount env (foldedSkip skips) outer >>= fun skipped =>
        runStages env outer (pagingStages 0 [] takes aggregate)
          ((if 0 < repeats then Value.distinctBy Row.value [] rows else rows).drop
            (skipped.getD 0)) := by
  have htakes : ∀ count ∈ takes, (Stage.take count).CountsIntegers env outer :=
    fun count hcount => hcounts _ (by simp [pagingStages, hcount])
  have hrest := countsIntegers_of_paging hcounts
  obtain ⟨-, hdistinct, haggregate⟩ := foldl_after_paging repeats [] takes aggregate
  have hunskipped : ((pagingStages repeats [] takes aggregate).foldl Tail.after .empty).Counts env
      outer 0 ((takes.map (·.rowsCounted env outer)).foldl leastTaken none) :=
    counts_foldl_paging (List.forall_mem_nil _) htakes
  have htaken := hunskipped.taken_eq
  rw [foldl_paging_eq]
  simp only [Tail.finish, htaken, hdistinct, haggregate, ok_bind, runStages_paging hrest,
    decide_eq_true_eq]
  rfl

/-- A list in paging order, applied in order, skips the sum of the positive numbers. -/
theorem runStages_paging_eq
    (hcounts : ∀ stage ∈ pagingStages repeats skips takes aggregate,
      stage.CountsIntegers env outer) (rows : List Row) :
    runStages env outer (pagingStages repeats skips takes aggregate) rows =
      runStages env outer (pagingStages 0 [] takes aggregate)
        ((if 0 < repeats then Value.distinctBy Row.value [] rows else rows).drop
          (gain (skips.map (Node.numberCounted env outer))).toNat) := by
  have hsum : (skips.map (·.rowsCounted env outer)).sum =
      (gain (skips.map (Node.numberCounted env outer))).toNat := by
    rw [← sum_toNat, List.map_map]
    exact congrArg List.sum (List.map_congr_left fun count _ => count.rowsCounted_eq)
  rw [runStages_paging hcounts, runStages_paging (countsIntegers_of_paging hcounts), hsum]
  rfl

end

/-- A model in paging order can be lowered if it can be lowered without its result operators and
the operands can be. Where all numbers of rows are integers, its query fails if a leading sum of
those to skip is no word. Otherwise it skips their total, while the operators in order skip the
sum of the positive ones. These leave the same rows exactly if no two numbers have opposite
signs or the query leaves no row. What follows the skips is done alike. -/
theorem lower_run_of_skips {model : QueryModel} {bare : Query} {paging : Paging}
    (hoperators : model.operators = paging.operators)
    (hbare : ({ model with operators := [] }.lower registry limit depth).outcome = .ok bare)
    (hoperands : ∀ e ∈ model.operators.filterMap ResultOperator.operand?,
      e.Lowers registry limit depth) :
    ∃ query skips takes aggregate, (model.lower registry limit depth).outcome = .ok query ∧
      (model.operators.mapM (ResultOperator.stage registry limit depth)).outcome =
        .ok (pagingStages paging.repeats skips takes aggregate) ∧
      ∀ env outer, (∀ stage ∈ pagingStages paging.repeats skips takes aggregate,
          stage.CountsIntegers env outer) →
        let numbers := skips.map (Node.numberCounted env outer)
        let different := fun rows : List Row =>
          if 0 < paging.repeats then Value.distinctBy Row.value [] rows else rows
        (SumsFit 0 numbers →
          query.run env outer = bare.rows env outer >>= fun rows =>
            runStages env outer (pagingStages 0 [] takes aggregate)
              ((different rows).drop numbers.sum.toNat)) ∧
        (¬SumsFit 0 numbers → ∃ operation, Value.OverflowsAt 0 numbers operation ∧
          query.run env outer = bare.rows env outer >>= fun _ => .error (.overflow operation)) ∧
        (∀ rows, runStages env outer (pagingStages paging.repeats skips takes aggregate) rows =
          runStages env outer (pagingStages 0 [] takes aggregate)
            ((different rows).drop (gain numbers).toNat)) ∧
        ∀ rows : List Row, rows.drop numbers.sum.toNat = rows.drop (gain numbers).toNat ↔
          (∀ n ∈ numbers, 0 ≤ n) ∨ (∀ n ∈ numbers, n ≤ 0) ∨
            rows.length ≤ numbers.sum.toNat := by
  obtain ⟨query, skips, takes, aggregate, hlower, hstages, hrun⟩ :=
    Paging.exists_query hoperators hbare hoperands
  refine ⟨query, skips, takes, aggregate, hlower, hstages, ?_⟩
  intro env outer hcounts
  have hskips : ∀ count ∈ skips, (Stage.skip count).CountsIntegers env outer :=
    fun count hcount => hcounts _ (by simp [pagingStages, hcount])
  refine ⟨fun hfits => ?_, fun hover => ?_, runStages_paging_eq hcounts,
    drop_sum_eq_drop_gain_iff _⟩
  · rcases evalCount_foldedSkip hskips with ⟨-, skipped, hskipped, htotal⟩ | ⟨_, hover, -⟩
    · rw [hrun]
      refine bind_congr fun rows => (finish_foldl_paging_eq hcounts rows).trans ?_
      rw [hskipped, ok_bind, htotal]
    · exact absurd hfits hover.not_sumsFit
  · rcases evalCount_foldedSkip hskips with ⟨hfits, -⟩ | ⟨operation, hoverflows, hcount⟩
    · exact absurd hfits hover
    · refine ⟨operation, hoverflows, ?_⟩
      rw [hrun]
      refine bind_congr fun rows => (finish_foldl_paging_eq hcounts rows).trans ?_
      rw [hcount, error_bind]

/-- Records with the amounts 1, 2 and 3. -/
def threeAmounts : Environment :=
  ⟨⟨[("Invoice", [1, 2, 3].map fun n => [("Amount", .integer n)])]⟩, []⟩

/-- The amounts after one is to be taken back and two are to be skipped. -/
def amountsAfterBackAndForth : QueryModel :=
  { QueryModel.ofSource "e" (.entity "Invoice") (.constant (.queryable "Invoice")) with
    selector := some (.member (.source "e" (.entity "Invoice")) "Amount" .integer)
    operators := [.skip (.constant (.integer (-1))), .skip (.constant (.integer 2))] }

/-- The query of `amountsAfterBackAndForth`. -/
def amountsAfterBackAndForthQuery : Query :=
  ⟨.entity "Invoice", "e", [], none, none, [], some (.dot (.ident "e") "Amount"), false,
    some (.binary .add (.constant (.integer (-1))) (.constant (.integer 2))), none, none⟩

/-- The operators of `amountsAfterBackAndForth`. -/
def backAndForth : Paging :=
  ⟨0, [.constant (.integer (-1)), .constant (.integer 2)], [], none, by simp⟩

/-- The query skips one amount, since the total is one. The operators in order skip none and then
two. -/
theorem amountsAfterBackAndForth_execute_ne :
    (amountsAfterBackAndForth.toQuery .builtin 8).outcome = .ok amountsAfterBackAndForthQuery ∧
      (amountsAfterBackAndForth.operators.mapM (ResultOperator.stage .builtin 8 0)).outcome =
        .ok [.skip (.constant (.integer (-1))), .skip (.constant (.integer 2))] ∧
      amountsAfterBackAndForthQuery.execute threeAmounts =
        .ok (.list [.integer 2, .integer 3]) ∧
      (amountsAfterBackAndForthQuery.rows threeAmounts [] >>=
        runStages threeAmounts []
          [.skip (.constant (.integer (-1))), .skip (.constant (.integer 2))]) =
            .ok (.list [.integer 3]) := by
  refine ⟨rfl, rfl, ?_, ?_⟩
  · rw [Hql.Query.execute, Hql.Query.run_eq]
    simp only [Hql.Query.selected, amountsAfterBackAndForthQuery, Hql.sortScopes_nil]
    rfl
  · rw [Hql.Query.rows]
    unfold Hql.Query.selected
    simp only [amountsAfterBackAndForthQuery, Hql.sortScopes_nil]
    rfl

/-- Both, as the general theorem gives them. -/
theorem amountsAfterBackAndForth_run :
    ∃ query, (amountsAfterBackAndForth.toQuery .builtin 8).outcome = .ok query ∧
      query.run threeAmounts [] = .ok (.list [.integer 2, .integer 3]) ∧
      ∀ rows : List Row, runStages threeAmounts []
          [.skip (.constant (.integer (-1))), .skip (.constant (.integer 2))] rows =
        .ok (.list ((rows.drop 2).map Row.value)) := by
  have hoperands : ∀ e ∈ amountsAfterBackAndForth.operators.filterMap ResultOperator.operand?,
      e.Lowers .builtin 8 0 := by
    intro e he
    simp only [amountsAfterBackAndForth, List.filterMap_cons, ResultOperator.operand?,
      List.filterMap_nil, List.mem_cons, List.not_mem_nil, or_false] at he
    rcases he with rfl | rfl <;> exact ⟨_, rfl⟩
  obtain ⟨query, skips, takes, aggregate, hlower, hstages, hrun⟩ :=
    @lower_run_of_skips .builtin 8 0 amountsAfterBackAndForth _ backAndForth rfl rfl hoperands
  have hnodes : [Stage.skip (.constant (.integer (-1))), .skip (.constant (.integer 2))] =
    pagingStages 0 skips takes aggregate := Except.ok.inj hstages
  rcases skips with _ | ⟨first, _ | ⟨second, _ | ⟨third, rest⟩⟩⟩
  all_goals cases takes <;> cases aggregate <;> simp [pagingStages] at hnodes
  obtain ⟨rfl, rfl⟩ := hnodes
  have hfits : SumsFit 0 [-1, 2] := by
    rw [sumsFit_cons, sumsFit_cons, sumsFit_nil]
    decide
  have hcounts : ∀ stage ∈ [Stage.skip (.constant (.integer (-1))),
      .skip (.constant (.integer 2))], stage.CountsIntegers threeAmounts [] := by
    simp only [List.forall_mem_cons]
    exact ⟨fun count hcount => ⟨-1, Option.some.inj hcount ▸ rfl⟩,
      fun count hcount => ⟨2, Option.some.inj hcount ▸ rfl⟩, List.forall_mem_nil _⟩
  obtain ⟨hquery, -, hinOrder, -⟩ := hrun threeAmounts [] hcounts
  refine ⟨query, hlower, (hquery hfits).trans ?_, hinOrder⟩
  rw [Hql.Query.rows]
  unfold Hql.Query.selected
  simp only [Hql.sortScopes_nil]
  rfl

end ObjectQuery
