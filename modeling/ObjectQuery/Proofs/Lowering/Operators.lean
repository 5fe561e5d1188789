import Mathlib.Algebra.GroupWithZero.Nat
import Mathlib.Logic.Basic
import ObjectQuery.Method.Defaults
import ObjectQuery.Proofs.Engine.Query
import ObjectQuery.Proofs.Lowering.Basic

/-!
# Result operators, in order and in their places

A model lists its result operators in the order in which they are meant to
apply. A query has one place each for dropping repeated rows, skipping,
taking and the aggregate. Here both readings of an operator list are set
side by side: `runStages` applies the lowered operators one after the other,
and `Tail.finish` runs the four places.

They agree but for one thing. The place for dropping repeated rows comes
first whatever stood before it in the list, so the four places compute what
the list with every `distinct` moved to its front would
(`run_eq_some_iff_distinctFirst`). Besides, the number of rows to skip is
one word, so skips that add up to more than a word holds make the query
fail.

## Main definitions

* `Stage` — a result operator with its operand lowered.
* `runStages` — the stages applied in order.
* `distinctFirst` — the stages with every `distinct` moved to the front.

## Main results

* `lowerOperators_eq_ok` — what lowering makes of an operator list, and which
  lists it accepts.
* `finish_foldl_after` — the run lemma: from any tail on, the places
  reached by further stages do what these stages do in order.
-/

namespace ObjectQuery

open Hql (Node Query Aggregate)

/-- A natural number is no word exactly if it is larger than every word. -/
theorem Word64.exactly?_natCast_eq_none_iff {n : Nat} :
    Word64.exactly? n = none ↔ Int64.maxValue.toInt < n := by
  have hmin : Int64.minValue.toInt ≤ 0 := by decide
  unfold Word64.exactly?
  split <;> simp <;> omega

/-! ## Stages -/

/-- A result operator with its operand lowered. -/
inductive Stage where
  | distinct
  | skip (count : Node)
  | take (count : Node)
  | reduce (aggregate : Aggregate)

/-- Whether a stage drops repeated rows. -/
def Stage.isDistinct : Stage → Bool
  | .distinct => true
  | _ => false

/-- The number of rows that a stage counts, if it skips or takes. -/
def Stage.count? : Stage → Option Node
  | .skip count | .take count => some count
  | _ => none

/-- The stage of a result operator. -/
def ResultOperator.stage (registry : Registry) (limit depth : Nat) :
    ResultOperator → Lowering Stage
  | .take rows => Stage.take <$> rows.lower registry limit depth
  | .skip rows => Stage.skip <$> rows.lower registry limit depth
  | .distinct => pure .distinct
  | .all predicate => (fun node => .reduce (.all node)) <$> predicate.lower registry limit depth
  | .contains item => (fun node => .reduce (.contains node)) <$> item.lower registry limit depth
  | .count | .longCount => pure (.reduce .count)
  | .any => pure (.reduce .any)
  | .first => pure (.reduce .first)
  | .single => pure (.reduce .single)
  | .sum => pure (.reduce .sum)
  | .min => pure (.reduce .min)
  | .max => pure (.reduce .max)
  | .average => pure (.reduce .average)

namespace Tail

/-- The tail after one more stage. -/
def after (tail : Tail) : Stage → Tail
  | .distinct => tail.distinctly
  | .skip count => tail.skipping count
  | .take count => tail.taking count
  | .reduce aggregate => tail.reducedBy aggregate

/-- Whether a stage may follow: nothing follows an aggregate, and rows are
not skipped once some were taken. -/
def Admits (tail : Tail) (stage : Stage) : Prop :=
  tail.aggregate = none ∧ ∀ count, stage = .skip count → tail.take = none

/-- Whether several stages may follow, each after those before it. -/
def AdmitsAll : Tail → List Stage → Prop
  | _, [] => True
  | tail, stage :: rest => tail.Admits stage ∧ (tail.after stage).AdmitsAll rest

/-- After an aggregate no stage may follow. -/
theorem eq_nil_of_admitsAll {tail : Tail} {stages : List Stage} {aggregate : Aggregate}
    (h : tail.AdmitsAll stages) (haggregate : tail.aggregate = some aggregate) :
    stages = [] := by
  cases stages with
  | nil => rfl
  | cons stage rest =>
      have hnone := h.1.1
      rw [haggregate] at hnone
      cases hnone

end Tail

/-! ## What lowering makes of an operator list -/

section

variable {registry : Registry} {limit depth : Nat}

/-- The step lemma: an operator is accepted exactly if its stage may
follow. -/
theorem lowerOperator_eq_ok {tail tail' : Tail} {operator : ResultOperator}
    (htail : tail.aggregate = none) :
    (lowerOperator registry limit depth tail operator).outcome = .ok tail' ↔
      ∃ stage, (operator.stage registry limit depth).outcome = .ok stage ∧
        tail.Admits stage ∧ tail.after stage = tail' := by
  cases operator with
  | skip rows =>
      cases htake : tail.take with
      | none =>
          simp [lowerOperator, ResultOperator.stage, map_eq_ok, exists_exists_and_eq_and,
            Tail.Admits, Tail.after, htail, htake]
      | some previous =>
          simp [lowerOperator, ResultOperator.stage, map_eq_ok, Tail.Admits,
            htake]
  | take rows | all predicate | contains item =>
      simp [lowerOperator, ResultOperator.stage, map_eq_ok, exists_exists_and_eq_and,
        Tail.Admits, Tail.after, htail]
  | _ => simp [lowerOperator, ResultOperator.stage, Tail.Admits, Tail.after, htail]

/-- Lowering accepts an operator list exactly if the stages of the operators
may follow one another, and then adds them to the tail in order. -/
theorem lowerOperators_eq_ok {tail tail' : Tail} {operators : List ResultOperator} :
    (lowerOperators registry limit depth tail operators).outcome = .ok tail' ↔
      ∃ stages, (operators.mapM (ResultOperator.stage registry limit depth)).outcome =
          .ok stages ∧ tail.AdmitsAll stages ∧ stages.foldl Tail.after tail = tail' := by
  induction operators generalizing tail with
  | nil => simp [lowerOperators, Tail.AdmitsAll]
  | cons operator rest ih =>
      rw [lowerOperators, List.mapM_cons]
      cases htail : tail.aggregate with
      | some aggregate =>
          simp only [Option.isSome_some, if_true, Traced.outcome_bind_eq_ok,
            Traced.outcome_throw, reduceCtorEq, false_and, exists_false, false_iff]
          rintro ⟨stages, ⟨stage, -, stages, -, hstages⟩, hadmits, -⟩
          obtain rfl := Except.ok.inj hstages
          exact List.cons_ne_nil _ _ (Tail.eq_nil_of_admitsAll hadmits htail)
      | none =>
          simp only [Option.isSome_none, Bool.false_eq_true, if_false,
            Traced.outcome_bind_eq_ok, Traced.outcome_pure, Except.ok.injEq, ih,
            lowerOperator_eq_ok htail]
          constructor
          · rintro ⟨_, ⟨stage, hstage, hmay, rfl⟩, stages, hstages, hadmits, rfl⟩
            exact ⟨stage :: stages, ⟨stage, hstage, stages, hstages, rfl⟩,
              ⟨hmay, hadmits⟩, rfl⟩
          · rintro ⟨_, ⟨stage, hstage, stages, hstages, rfl⟩, hadmits, rfl⟩
            exact ⟨_, ⟨stage, hstage, hadmits.1, rfl⟩, stages, hstages, hadmits.2, rfl⟩

end

/-! ## Running stages in order -/

/-- The stages applied to rows one after the other. Without a reduction the
rows are listed. -/
def runStages (env : Environment) (outer : Scope) : List Stage → List Row → Outcome Value
  | [], rows => Hql.runAggregate env none rows outer
  | .distinct :: rest, rows =>
    runStages env outer rest (Value.distinctBy Row.value [] rows)
  | .skip count :: rest, rows => do
    let skipped ← rowCount (← count.eval env outer)
    runStages env outer rest (rows.drop skipped)
  | .take count :: rest, rows => do
    let taken ← rowCount (← count.eval env outer)
    runStages env outer rest (rows.take taken)
  | .reduce aggregate :: _, rows => Hql.runAggregate env (some aggregate) rows outer

/-- The stages with every `distinct` moved to the front, else in order. -/
def distinctFirst (stages : List Stage) : List Stage :=
  stages.filter Stage.isDistinct ++ stages.filter fun stage => !stage.isDistinct

/-- Where no `distinct` comes after a stage of another kind, there is none
to move. -/
theorem distinctFirst_eq_self {stages : List Stage}
    (h : stages.Pairwise fun a b => b.isDistinct = true → a.isDistinct = true) :
    distinctFirst stages = stages := by
  induction stages with
  | nil => rfl
  | cons stage rest ih =>
      obtain ⟨hhead, htail⟩ := List.pairwise_cons.mp h
      cases hstage : stage.isDistinct with
      | true =>
          have hrest := ih htail
          simp only [distinctFirst, List.filter_cons, hstage, Bool.not_true, if_true,
            Bool.false_eq_true, if_false, List.cons_append] at hrest ⊢
          rw [hrest]
      | false =>
          have hnone : ∀ other ∈ stage :: rest, other.isDistinct = false := by
            intro other hother
            rcases List.mem_cons.mp hother with rfl | hother
            · exact hstage
            · refine Bool.eq_false_iff.mpr fun hdistinct => ?_
              exact absurd (hhead other hother hdistinct) (by simp [hstage])
          have hfirst : (stage :: rest).filter Stage.isDistinct = [] := by
            simpa [List.filter_eq_nil_iff] using hnone
          have hothers : ((stage :: rest).filter fun s => !s.isDistinct) = stage :: rest := by
            simpa [List.filter_eq_self] using hnone
          rw [distinctFirst, hfirst, hothers, List.nil_append]

/-- Any number of `distinct`s at the front do what one does. -/
theorem runStages_distinctFirst (env : Environment) (outer : Scope) (stages : List Stage)
    (rows : List Row) :
    runStages env outer (distinctFirst stages) rows =
      runStages env outer (stages.filter fun stage => !stage.isDistinct)
        (if stages.any Stage.isDistinct then Value.distinctBy Row.value [] rows else rows) := by
  unfold distinctFirst
  generalize (stages.filter fun stage => !stage.isDistinct) = others
  induction stages generalizing rows with
  | nil => simp
  | cons stage rest ih =>
      cases stage with
      | distinct =>
          simp only [Stage.isDistinct, List.filter_cons, List.any_cons, if_true,
            List.cons_append, runStages, ih, Value.distinctBy_idem, ite_self, Bool.true_or]
      | skip _ | take _ | reduce _ =>
          simpa [Stage.isDistinct, List.filter_cons] using ih rows

/-! ## Running the four places -/

/-- The rows left by skipping and taking. -/
def page (skipped : Nat) (taken : Option Nat) (rows : List Row) : List Row :=
  let rows := rows.drop skipped
  rows.take (taken.getD rows.length)

theorem page_none (skipped : Nat) (rows : List Row) :
    page skipped none rows = rows.drop skipped := by
  simp only [page, Option.getD_none, List.take_length]

theorem drop_page_none (skipped more : Nat) (rows : List Row) :
    (page skipped none rows).drop more = page (skipped + more) none rows := by
  rw [page_none, page_none, List.drop_drop]

theorem take_page (skipped : Nat) (taken : Option Nat) (more : Nat) (rows : List Row) :
    (page skipped taken rows).take more =
      page skipped (some ((taken.map (min more)).getD more)) rows := by
  cases taken with
  | none => simp [page, List.take_of_length_le]
  | some n => simp [page, List.take_take]

namespace Tail

/-- What the four places make of the selected rows of a query. -/
def finish (env : Environment) (tail : Tail) (outer : Scope) (rows : List Row) :
    Outcome Value := do
  let rows := if tail.distinct then Value.distinctBy Row.value [] rows else rows
  let skipped ← Hql.evalCount env tail.skip outer
  let rows := rows.drop (skipped.getD 0)
  let taken ← Hql.evalCount env tail.take outer
  let rows := rows.take (taken.getD rows.length)
  Hql.runAggregate env tail.aggregate rows outer

/-- The places for counts say to skip `skipped` rows, if a word can say so,
and to take as many as `taken` says. -/
structure Counts (env : Environment) (outer : Scope) (tail : Tail) (skipped : Nat)
    (taken : Option Nat) : Prop where
  skip : match tail.skip with
    | none => skipped = 0
    | some count =>
      (count.eval env outer).toOption = (Word64.exactly? skipped).map Value.integer
  take : match tail.take, taken with
    | none, none => True
    | some count, some taken =>
      ∃ n : Int64, count.eval env outer = .ok (.integer n) ∧ n.toInt.toNat = taken
    | _, _ => False

private theorem counts_empty (env : Environment) (outer : Scope) : empty.Counts env outer 0 none :=
  ⟨rfl, trivial⟩

/-- The number of rows to skip is known if it fits into a word, and
otherwise the query fails. -/
theorem Counts.skipped_eq {env : Environment} {outer : Scope} {tail : Tail} {skipped : Nat}
    {taken : Option Nat} (h : tail.Counts env outer skipped taken) :
    (Hql.evalCount env tail.skip outer).toOption.map (·.getD 0) =
      (Word64.exactly? skipped).map fun _ => skipped := by
  have hskip := h.skip
  cases hcount : tail.skip with
  | none =>
      rw [hcount] at hskip
      obtain rfl : skipped = 0 := hskip
      rfl
  | some count =>
      rw [hcount] at hskip
      replace hskip : (count.eval env outer).toOption =
        (Word64.exactly? skipped).map Value.integer := hskip
      simp only [Hql.evalCount, toOption_bind, hskip]
      cases hfits : Word64.exactly? skipped with
      | none => rfl
      | some w =>
          have hw : w.toInt = skipped := Word64.exactly?_eq_some_iff.mp hfits
          simp only [Option.map_some, Option.bind_eq_bind, Option.bind_some, rowCount]
          rw [toOption_ok, hw]
          rfl

/-- The number of rows to take is known. -/
theorem Counts.taken_eq {env : Environment} {outer : Scope} {tail : Tail} {skipped : Nat}
    {taken : Option Nat} (h : tail.Counts env outer skipped taken) :
    Hql.evalCount env tail.take outer = .ok taken := by
  have htake := h.take
  cases hcount : tail.take with
  | none =>
      rw [hcount] at htake
      cases taken with
      | none => rfl
      | some n => exact htake.elim
  | some count =>
      rw [hcount] at htake
      cases taken with
      | none => exact htake.elim
      | some n =>
          obtain ⟨w, hw, rfl⟩ := htake
          simp only [Hql.evalCount, hw, ok_bind, rowCount]
          rfl

/-- The places filled in, with the counts known. -/
theorem Counts.finish_eq {env : Environment} {outer : Scope} {tail : Tail} {skipped : Nat}
    {taken : Option Nat} (h : tail.Counts env outer skipped taken) (rows : List Row) :
    (tail.finish env outer rows).toOption =
      (Word64.exactly? skipped).bind fun _ =>
        (Hql.runAggregate env tail.aggregate
          (page skipped taken
            (if tail.distinct then Value.distinctBy Row.value [] rows else rows))
          outer).toOption := by
  have hskipped := h.skipped_eq
  simp only [finish, toOption_bind, h.taken_eq]
  generalize (if tail.distinct then Value.distinctBy Row.value [] rows else rows) = rows
  cases hfits : Word64.exactly? skipped with
  | none =>
      rw [hfits] at hskipped
      rw [Option.map_eq_none_iff.mp hskipped]
      rfl
  | some w =>
      rw [hfits] at hskipped
      obtain ⟨known, hknown, hdrop⟩ := Option.map_eq_some_iff.mp hskipped
      rw [hknown]
      show (Hql.runAggregate env tail.aggregate _ outer).toOption = _
      rw [hdrop]
      rfl

/-! ### What a further stage counts -/

/-- Adding to a number of rows fits into a word exactly if the sum does. -/
theorem toOption_binary_add {env : Environment} {outer : Scope} {previous count : Node}
    {skipped : Nat} {n : Int64}
    (hprevious : (previous.eval env outer).toOption =
      (Word64.exactly? skipped).map Value.integer)
    (hcount : count.eval env outer = .ok (.integer n)) (hn : 0 ≤ n.toInt) :
    ((Node.binary .add previous count).eval env outer).toOption =
      (Word64.exactly? ↑(skipped + n.toInt.toNat)).map Value.integer := by
  simp only [Node.eval, toOption_bind, hprevious, hcount, ok_bind]
  cases hfits : Word64.exactly? skipped with
  | none =>
      have hlarge : Word64.exactly? ↑(skipped + n.toInt.toNat) = none := by
        rw [Word64.exactly?_natCast_eq_none_iff] at hfits ⊢
        omega
      rw [hlarge]
      rfl
  | some w =>
      have hw : w.toInt = skipped := Word64.exactly?_eq_some_iff.mp hfits
      have hsum : w.toInt + n.toInt = ↑(skipped + n.toInt.toNat) := by omega
      show (Value.binary .add (.integer w) (.integer n)).toOption = _
      rw [← hsum]
      show (orOverflow _ (Word64.add? w n)).toOption = _
      rw [Word64.add?]
      cases Word64.exactly? (w.toInt + n.toInt) <;> rfl

/-- The least of two words. -/
theorem call_least (a b : Int64) :
    ∃ n : Int64, Value.call "least" [.integer a, .integer b] = .ok (.integer n) ∧
      n.toInt.toNat = min a.toInt.toNat b.toInt.toNat := by
  have hcall : Value.call "least" [.integer a, .integer b] =
      .ok (if compare b a = .lt then .integer b else .integer a) := by
    by_cases h : compare b a = .lt
    · simp [Value.call, Value.extreme, Value.sortCompare, Value.isNull, Value.compare?, h]
    · simp [Value.call, Value.extreme, Value.sortCompare, Value.isNull, Value.compare?, h]
  have hless : compare b a = .lt ↔ b.toInt < a.toInt := by
    rw [← Int64.lt_iff_toInt_lt]
    exact compareOfLessAndEq_eq_lt
  by_cases h : compare b a = .lt
  · refine ⟨b, by rw [hcall, if_pos h], ?_⟩
    rw [hless] at h
    omega
  · refine ⟨a, by rw [hcall, if_neg h], ?_⟩
    rw [hless] at h
    omega

/-- The step lemma for skipping. -/
theorem Counts.skipping {env : Environment} {outer : Scope} {tail : Tail} {skipped : Nat}
    {taken : Option Nat} (h : tail.Counts env outer skipped taken) {count : Node} {n : Int64}
    (hcount : count.eval env outer = .ok (.integer n)) (hn : 0 ≤ n.toInt) :
    (tail.skipping count).Counts env outer (skipped + n.toInt.toNat) taken := by
  refine ⟨?_, h.take⟩
  have hskip := h.skip
  unfold Tail.skipping
  cases hprevious : tail.skip with
  | none =>
      rw [hprevious] at hskip
      obtain rfl : skipped = 0 := hskip
      have hfits : Word64.exactly? ↑(0 + n.toInt.toNat) = some n :=
        Word64.exactly?_eq_some_iff.mpr (by omega)
      show (count.eval env outer).toOption = _
      rw [hcount, hfits]
      rfl
  | some previous =>
      rw [hprevious] at hskip
      exact toOption_binary_add hskip hcount hn

/-- The step lemma for taking. -/
theorem Counts.taking {env : Environment} {outer : Scope} {tail : Tail} {skipped : Nat}
    {taken : Option Nat} (h : tail.Counts env outer skipped taken) {count : Node} {n : Int64}
    (hcount : count.eval env outer = .ok (.integer n)) :
    (tail.taking count).Counts env outer skipped
      (some ((taken.map (min n.toInt.toNat)).getD n.toInt.toNat)) := by
  refine ⟨h.skip, ?_⟩
  have htake := h.take
  unfold Tail.taking
  cases hprevious : tail.take with
  | none =>
      rw [hprevious] at htake
      cases taken with
      | none => exact ⟨n, hcount, rfl⟩
      | some m => exact htake.elim
  | some previous =>
      rw [hprevious] at htake
      cases taken with
      | none => exact htake.elim
      | some m =>
          obtain ⟨w, hw, rfl⟩ := htake
          obtain ⟨least, hleast, hmin⟩ := call_least w n
          refine ⟨least, ?_, ?_⟩
          · show (Hql.evalAll env [previous, count] outer >>= Value.call "least") = _
            simp only [Hql.evalAll, hw, hcount, ok_bind]
            exact hleast
          · rw [hmin, Nat.min_comm]
            rfl

/-- Where nothing was taken yet, there is no number of rows to take. -/
theorem Counts.taken_eq_none {env : Environment} {outer : Scope} {tail : Tail}
    {skipped : Nat} {taken : Option Nat} (h : tail.Counts env outer skipped taken)
    (hnone : tail.take = none) : taken = none := by
  have htake := h.take
  rw [hnone] at htake
  cases taken with
  | none => rfl
  | some n => exact htake.elim

end Tail

/-! ## The run lemma -/

/-- Whether the number of rows that a stage counts, if it counts, is known
and not negative. -/
def Stage.CountsRows (env : Environment) (outer : Scope) (stage : Stage) : Prop :=
  ∀ count, stage.count? = some count →
    ∃ n : Int64, count.eval env outer = .ok (.integer n) ∧ 0 ≤ n.toInt

/-- How many rows a stage skips. -/
def Stage.skippedRows (env : Environment) (outer : Scope) : Stage → Nat
  | .skip count =>
    match count.eval env outer with
    | .ok (.integer n) => n.toInt.toNat
    | _ => 0
  | _ => 0

/-- From any tail on, the places reached by further stages do what these
stages do in order, but with repeated rows dropped first. The induction is on
the stages; the counts known of the tail carry it. -/
theorem finish_foldl_after {env : Environment} {outer : Scope} {tail : Tail}
    {stages : List Stage} {skipped : Nat} {taken : Option Nat}
    (hnone : tail.aggregate = none) (hadmits : tail.AdmitsAll stages)
    (hcounts : tail.Counts env outer skipped taken)
    (hstages : ∀ stage ∈ stages, stage.CountsRows env outer) (rows : List Row) :
    ((stages.foldl Tail.after tail).finish env outer rows).toOption =
      (Word64.exactly? ↑(skipped + (stages.map (Stage.skippedRows env outer)).sum)).bind
        fun _ =>
          (runStages env outer (stages.filter fun stage => !stage.isDistinct)
            (page skipped taken
              (if tail.distinct || stages.any Stage.isDistinct then
                Value.distinctBy Row.value [] rows
              else rows))).toOption := by
  induction stages generalizing tail skipped taken with
  | nil =>
      simpa [runStages, hnone] using hcounts.finish_eq rows
  | cons stage rest ih =>
      obtain ⟨hmay, hrest⟩ := hadmits
      have hcountsRest : ∀ other ∈ rest, other.CountsRows env outer := fun other hother =>
        hstages other (List.mem_cons_of_mem _ hother)
      have hcountsStage := hstages stage (by simp)
      cases stage with
      | distinct =>
          have hnoneAfter : (tail.after .distinct).aggregate = none := hnone
          have hafter : (tail.after .distinct).Counts env outer skipped taken :=
            ⟨hcounts.skip, hcounts.take⟩
          simpa [Stage.isDistinct, Stage.skippedRows, Tail.after, Tail.distinctly] using
            ih hnoneAfter hrest hafter hcountsRest
      | skip count =>
          obtain ⟨n, hn, hpos⟩ := hcountsStage count rfl
          obtain rfl := hcounts.taken_eq_none (hmay.2 count rfl)
          have hnoneAfter : (tail.after (.skip count)).aggregate = none := hnone
          have hstep := ih hnoneAfter hrest (hcounts.skipping hn hpos) hcountsRest
          simpa [Stage.isDistinct, Stage.skippedRows, Tail.after, Tail.skipping, runStages, hn,
            rowCount, drop_page_none, Nat.add_assoc] using hstep
      | take count =>
          obtain ⟨n, hn, -⟩ := hcountsStage count rfl
          have hnoneAfter : (tail.after (.take count)).aggregate = none := hnone
          have hstep := ih hnoneAfter hrest (hcounts.taking hn) hcountsRest
          simpa [Stage.isDistinct, Stage.skippedRows, Tail.after, Tail.taking, runStages, hn,
            rowCount, take_page] using hstep
      | reduce aggregate =>
          obtain rfl := Tail.eq_nil_of_admitsAll hrest rfl
          have hafter : (tail.after (.reduce aggregate)).Counts env outer skipped taken :=
            ⟨hcounts.skip, hcounts.take⟩
          simp only [List.foldl_cons, List.foldl_nil, List.any_cons, List.any_nil,
            Stage.isDistinct, Bool.or_false, List.map_cons, List.map_nil, List.sum_cons,
            List.sum_nil, Stage.skippedRows, Nat.add_zero, List.filter_cons, Bool.not_false,
            if_true, List.filter_nil, runStages]
          exact hafter.finish_eq rows

/-- A word says how many rows to skip exactly if the number is no larger than
the largest word. -/
theorem Word64.exactly?_natCast_isSome_iff {n : Nat} :
    (Word64.exactly? n).isSome ↔ n ≤ Int64.maxValue.toInt := by
  rw [← Option.ne_none_iff_isSome, ne_eq, Word64.exactly?_natCast_eq_none_iff,
    Int.not_lt]

/-! ## The run of a lowered query -/

/-- The rows of a query before its result operators apply. -/
def Hql.Query.rows (env : Environment) (query : Query) (outer : Scope) :
    Outcome (List Row) :=
  (query.source.eval env outer >>= sourceItems) >>= query.selected env outer

/-- The places that lowering fills do what the operators do in order, but
with repeated rows dropped first. -/
theorem finish_eq_ok_iff {registry : Registry} {limit depth : Nat} {model : QueryModel}
    {query : Query} (hlower : (model.lower registry limit depth).outcome = .ok query) :
    ∃ stages, (model.operators.mapM (ResultOperator.stage registry limit depth)).outcome =
        .ok stages ∧
      ∀ env outer, (∀ stage ∈ stages, stage.CountsRows env outer) → ∀ rows value,
        query.finish env outer rows = .ok value ↔
          ((stages.map (Stage.skippedRows env outer)).sum : Int) ≤ Int64.maxValue.toInt ∧
            runStages env outer (distinctFirst stages) rows = .ok value := by
  obtain ⟨stages, hstages, hadmits, htail⟩ :=
    lowerOperators_eq_ok.mp (QueryModel.lower_eq_ok_iff.mp hlower).tail
  refine ⟨stages, hstages, ?_⟩
  intro env outer hcounts rows value
  have hrun := finish_foldl_after rfl hadmits (Tail.counts_empty env outer) hcounts rows
  rw [htail, page_none, List.drop_zero] at hrun
  have hplaces : query.finish env outer rows = query.tail.finish env outer rows := rfl
  rw [hplaces, ← toOption_eq_some, hrun, Nat.zero_add, ← Word64.exactly?_natCast_isSome_iff,
    runStages_distinctFirst, ← toOption_eq_some]
  cases Word64.exactly? ↑(stages.map (Stage.skippedRows env outer)).sum with
  | none => simp
  | some w => simp [Tail.empty]

/-- A query returns what the result operators of its model make of its rows
in order, once every `distinct` is moved to the front. It returns nothing if
the rows to skip are more than a word can count. -/
theorem run_eq_ok_iff_distinctFirst {registry : Registry} {limit depth : Nat}
    {model : QueryModel} {query : Query}
    (hlower : (model.lower registry limit depth).outcome = .ok query) :
    ∃ stages, (model.operators.mapM (ResultOperator.stage registry limit depth)).outcome =
        .ok stages ∧
      ∀ env outer, (∀ stage ∈ stages, stage.CountsRows env outer) → ∀ value,
        query.run env outer = .ok value ↔
          ((stages.map (Stage.skippedRows env outer)).sum : Int) ≤ Int64.maxValue.toInt ∧
            (query.rows env outer >>= runStages env outer (distinctFirst stages)) =
              .ok value := by
  obtain ⟨stages, hstages, hfinish⟩ := finish_eq_ok_iff hlower
  refine ⟨stages, hstages, ?_⟩
  intro env outer hcounts value
  have hrows : query.run env outer =
      query.rows env outer >>= fun rows => query.finish env outer rows := by
    rw [Query.run_eq, Hql.Query.rows]
    simp only [bind_assoc]
  rw [hrows, bind_eq_ok, bind_eq_ok]
  simp only [hfinish env outer hcounts]
  constructor
  · rintro ⟨rows, hrows, hfits, hvalue⟩
    exact ⟨hfits, rows, hrows, hvalue⟩
  · rintro ⟨hfits, rows, hrows, hvalue⟩
    exact ⟨rows, hrows, hfits, hvalue⟩

/-- Where no `distinct` comes late, a query returns what its result operators
make of its rows in order. -/
theorem finish_eq_ok_iff_inOrder {registry : Registry} {limit depth : Nat} {model : QueryModel}
    {query : Query} (hlower : (model.lower registry limit depth).outcome = .ok query) :
    ∃ stages, (model.operators.mapM (ResultOperator.stage registry limit depth)).outcome =
        .ok stages ∧
      (stages.Pairwise (fun a b => b.isDistinct = true → a.isDistinct = true) →
        ∀ env outer, (∀ stage ∈ stages, stage.CountsRows env outer) → ∀ rows value,
          query.finish env outer rows = .ok value ↔
            ((stages.map (Stage.skippedRows env outer)).sum : Int) ≤ Int64.maxValue.toInt ∧
              runStages env outer stages rows = .ok value) := by
  obtain ⟨stages, hstages, hfinish⟩ := finish_eq_ok_iff hlower
  refine ⟨stages, hstages, ?_⟩
  intro hearly env outer hcounts rows value
  rw [hfinish env outer hcounts, distinctFirst_eq_self hearly]

/-- Three records, of which the first two have the same amount. -/
def repeatedAmounts : Environment :=
  ⟨⟨[("Invoice", [[("Amount", .integer 1)], [("Amount", .integer 1)],
    [("Amount", .integer 2)]])]⟩, []⟩

/-- The first two amounts, each once. -/
def distinctOfFirstTwo : QueryModel :=
  { QueryModel.ofSource "e" (.entity "Invoice") (.constant (.queryable "Invoice")) with
    selector := some (.member (.source "e" (.entity "Invoice")) "Amount" .integer)
    operators := [.take (.constant (.integer 2)), .distinct] }

/-- The query of `distinctOfFirstTwo`. -/
def distinctOfFirstTwoQuery : Query :=
  ⟨.entity "Invoice", "e", [], none, none, [], some (.dot (.ident "e") "Amount"), true, none,
    some (.constant (.integer 2)), none⟩

private theorem distinctOfFirstTwo_lower :
    (distinctOfFirstTwo.lower .builtin 8 0).outcome = .ok distinctOfFirstTwoQuery := rfl

/-- The two readings differ where a `distinct` follows a `take`: the query
returns two amounts, the operators in order leave one. -/
theorem execute_ne_inOrder :
    (distinctOfFirstTwo.toQuery .builtin 8).outcome = .ok distinctOfFirstTwoQuery ∧
      (distinctOfFirstTwo.operators.mapM (ResultOperator.stage .builtin 8 0)).outcome =
        .ok [.take (.constant (.integer 2)), .distinct] ∧
      distinctOfFirstTwoQuery.execute repeatedAmounts =
        .ok (.list [.integer 1, .integer 2]) ∧
      (distinctOfFirstTwoQuery.rows repeatedAmounts [] >>=
        runStages repeatedAmounts [] [.take (.constant (.integer 2)), .distinct]) =
          .ok (.list [.integer 1]) := by
  refine ⟨rfl, rfl, ?_, ?_⟩
  · rw [Hql.Query.execute, Hql.Query.run_eq]
    simp only [Hql.Query.selected, distinctOfFirstTwoQuery, Hql.sortScopes_nil]
    rfl
  · rw [Hql.Query.rows]
    unfold Hql.Query.selected
    simp only [distinctOfFirstTwoQuery, Hql.sortScopes_nil]
    rfl

/-- The run of `distinctOfFirstTwo` as the general theorem gives it: what is
left after dropping repeated amounts first. -/
theorem distinctOfFirstTwo_execute :
    (distinctOfFirstTwo.lower .builtin 8 0).outcome = .ok distinctOfFirstTwoQuery ∧
      distinctOfFirstTwoQuery.execute repeatedAmounts =
        .ok (.list [.integer 1, .integer 2]) := by
  refine ⟨distinctOfFirstTwo_lower, ?_⟩
  obtain ⟨stages, hstages, hrun⟩ := run_eq_ok_iff_distinctFirst distinctOfFirstTwo_lower
  obtain rfl : [.take (.constant (.integer 2)), .distinct] = stages := Except.ok.inj hstages
  refine (hrun repeatedAmounts [] ?_ _).mpr ⟨by decide, ?_⟩
  · intro stage hstage count hcount
    simp only [List.mem_cons, List.not_mem_nil, or_false] at hstage
    obtain rfl | rfl := hstage
    · obtain rfl := Option.some.inj hcount
      exact ⟨2, rfl, by decide⟩
    · cases hcount
  · rw [Hql.Query.rows]
    unfold Hql.Query.selected
    simp only [distinctOfFirstTwoQuery, Hql.sortScopes_nil]
    rfl

end ObjectQuery
