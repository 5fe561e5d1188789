import ObjectQuery.Expansion.Source
import ObjectQuery.Proofs.Expr.Walk

/-!
# Walking through a source

While the source of a subquery is taken apart, a walk goes through every
expression in it to find the references to foreign items. It keeps account
of open branches and of suspensions, so it is a computation with a state;
`SourceExpansion.Runs` relates the state before a successful step, its
result and the state after it, and there is one rule for every way of
building a step.

The walk through one expression is simple when seen from outside: it gives
the expression back, fails exactly if the expression is malformed, and
nominates the innermost open branch exactly if the expression refers to an
item of a foreign source.

## Main results

* `rebuild_runs_iff` — what the walk through one expression does.
-/

namespace ObjectQuery

/-! ## Runs of the walk -/

/-- From the nominations `before` a step gives `a` and leaves the nominations
`after`. -/
def SourceExpansion.Runs {α : Type} (step : SourceExpansion α) (before : Nominations) (a : α)
    (after : Nominations) : Prop :=
  (step.run before : Except ModelError α × Nominations) = (.ok a, after)

namespace SourceExpansion

variable {α β : Type} {n n' : Nominations}

theorem runs_pure {a b : α} : Runs (pure a) n b n' ↔ b = a ∧ n' = n := by
  show (Except.ok a, n) = (Except.ok b, n') ↔ _
  rw [Prod.mk.injEq, Except.ok.injEq]
  constructor
  · rintro ⟨rfl, rfl⟩
    exact ⟨rfl, rfl⟩
  · rintro ⟨rfl, rfl⟩
    exact ⟨rfl, rfl⟩

theorem runs_bind {x : SourceExpansion α} {f : α → SourceExpansion β} {b : β} :
    Runs (x >>= f) n b n' ↔ ∃ a m, Runs x n a m ∧ Runs (f a) m b n' := by
  have hrun : ((x >>= f).run n : Except ModelError β × Nominations) =
      (ExceptT.bindCont f (x.run n).1 : StateM Nominations (Except ModelError β)) (x.run n).2 :=
    rfl
  unfold Runs
  rw [hrun]
  obtain ⟨outcome, m⟩ := (x.run n : Except ModelError α × Nominations)
  cases outcome with
  | error e =>
      constructor
      · intro h
        cases (Prod.mk.inj h).1
      · rintro ⟨a, m', h, -⟩
        cases (Prod.mk.inj h).1
  | ok a =>
      constructor
      · intro h
        exact ⟨a, m, rfl, h⟩
      · rintro ⟨a', m', h, hf⟩
        obtain ⟨hok, rfl⟩ := Prod.mk.inj h
        obtain rfl := Except.ok.inj hok
        exact hf

/-- A step that looks at a tree only. -/
theorem runs_of_except {x : Except ModelError α} {a : α} :
    Runs (ExceptT.mk (pure x)) n a n' ↔ x = .ok a ∧ n' = n := by
  show (x, n) = (.ok a, n') ↔ _
  rw [Prod.mk.injEq]
  constructor
  · rintro ⟨rfl, rfl⟩
    exact ⟨rfl, rfl⟩
  · rintro ⟨rfl, rfl⟩
    exact ⟨rfl, rfl⟩

theorem runs_require {check : Except ModelError Unit} {a : Unit} :
    Runs (require check) n a n' ↔ check = .ok () ∧ n' = n :=
  runs_of_except

theorem runs_suspended {step : SourceExpansion α} {a : α} :
    Runs (suspended step) n a n' ↔ ∃ m, Runs step n.suspend a m ∧ n' = m.resume := by
  have hrun : ((suspended step).run n : Except ModelError α × Nominations) =
      ((step.run n.suspend).1, (step.run n.suspend).2.resume) := rfl
  unfold Runs
  rw [hrun]
  obtain ⟨outcome, m⟩ := (step.run n.suspend : Except ModelError α × Nominations)
  constructor
  · intro h
    obtain ⟨rfl, rfl⟩ := Prod.mk.inj h
    exact ⟨m, rfl, rfl⟩
  · rintro ⟨m', h, rfl⟩
    obtain ⟨rfl, rfl⟩ := Prod.mk.inj h
    rfl

theorem runs_insideBranch {step : SourceExpansion α} {result : α × Bool} :
    Runs (insideBranch step) n result n' ↔
      ∃ m, Runs step n.push result.1 m ∧ result.2 = m.isNominated ∧ n' = m.pop := by
  obtain ⟨a, b⟩ := result
  have hrun : ((insideBranch step).run n : Except ModelError (α × Bool) × Nominations) =
      ((step.run n.push).1.map (·, (step.run n.push).2.isNominated),
        (step.run n.push).2.pop) := rfl
  unfold Runs
  rw [hrun]
  obtain ⟨outcome, m⟩ := (step.run n.push : Except ModelError α × Nominations)
  cases outcome with
  | error e =>
      constructor
      · intro h
        cases (Prod.mk.inj h).1
      · rintro ⟨m', h, -⟩
        cases (Prod.mk.inj h).1
  | ok a' =>
      constructor
      · intro h
        obtain ⟨hok, rfl⟩ := Prod.mk.inj h
        obtain ⟨rfl, rfl⟩ := Prod.mk.inj (Except.ok.inj hok)
        exact ⟨m, rfl, rfl, rfl⟩
      · rintro ⟨m', h, rfl, rfl⟩
        obtain ⟨hok, rfl⟩ := Prod.mk.inj h
        obtain rfl := Except.ok.inj hok
        rfl

end SourceExpansion

/-! ## Nominating -/

namespace Nominations

/-- Nominates if told to. -/
def noting (n : Nominations) (found : Bool) : Nominations :=
  if found then n.nominate else n

theorem nominate_nominate (n : Nominations) : n.nominate.nominate = n.nominate := by
  obtain ⟨branches, suspensions⟩ := n
  cases suspensions with
  | zero => cases branches <;> rfl
  | succ s => rfl

@[simp] theorem noting_false (n : Nominations) : n.noting false = n := rfl

private theorem noting_noting (n : Nominations) (a b : Bool) :
    (n.noting a).noting b = n.noting (a || b) := by
  cases a <;> cases b <;> simp [noting, nominate_nominate]

/-- Under a suspension nothing is nominated. -/
theorem suspend_noting_resume (n : Nominations) (found : Bool) :
    (n.suspend.noting found).resume = n := by
  cases found <;> rfl

/-- Inside of a branch the walk finds out whether to nominate it, and leaves
the other branches alone. -/
theorem push_noting {n : Nominations} (h : n.suspensions = 0) (found : Bool) :
    (n.push.noting found).isNominated = found ∧ (n.push.noting found).pop = n := by
  obtain ⟨branches, suspensions⟩ := n
  obtain rfl : suspensions = 0 := h
  cases found <;> exact ⟨rfl, rfl⟩

end Nominations

/-- Whether the expression refers to an item of a source that is not among
the given ones. -/
def Expr.refersOutside (own : List String) (e : Expr) : Bool :=
  e.visits.any fun
    | .source name _ => !own.contains name
    | _ => false

section

open SourceExpansion (Runs runs_pure runs_bind runs_require)

variable {own : List String} {n n' : Nominations}

/-- Whether one of several operands refers outside. -/
private def anyRefersOutside (own : List String) (es : List Expr) : Bool :=
  es.any (·.refersOutside own)

private theorem refersOutside_optionVisits (o : Option Expr) :
    ((optionVisits o).any fun
      | .source name _ => !own.contains name
      | _ => false) = anyRefersOutside own o.toList := by
  cases o <;> simp [optionVisits, anyRefersOutside, Expr.refersOutside]

private theorem refersOutside_listVisits (es : List Expr) :
    ((listVisits es).any fun
      | .source name _ => !own.contains name
      | _ => false) = anyRefersOutside own es := by
  induction es with
  | nil => rfl
  | cons e rest ih =>
      rw [listVisits, List.any_append, ih]
      rfl

private theorem rebuildList_runs_iff {es es' : List Expr}
    (h : ∀ e ∈ es, ∀ {n n' : Nominations} {e' : Expr},
      Runs (e.rebuild (nominatingRebuilder own)) n e' n' ↔
        e.IsSound ∧ e' = e ∧ n' = n.noting (e.refersOutside own)) :
    Runs (rebuildList (nominatingRebuilder own) es) n es' n' ↔
      (∀ e ∈ es, e.IsSound) ∧ es' = es ∧ n' = n.noting (anyRefersOutside own es) := by
  induction es generalizing n n' es' with
  | nil => simp [rebuildList, runs_pure, anyRefersOutside]
  | cons e rest ih =>
      simp only [rebuildList, runs_bind, runs_pure, h e (by simp),
        ih fun e' he' => h e' (List.mem_cons_of_mem _ he')]
      constructor
      · rintro ⟨_, _, ⟨hsound, rfl, rfl⟩, _, _, ⟨hrest, rfl, rfl⟩, rfl, rfl⟩
        refine ⟨?_, rfl, Nominations.noting_noting _ _ _⟩
        simpa using ⟨hsound, hrest⟩
      · rintro ⟨hsound, rfl, rfl⟩
        exact ⟨e, _, ⟨hsound e (by simp), rfl, rfl⟩, rest, _,
          ⟨fun e' he' => hsound e' (List.mem_cons_of_mem _ he'), rfl, rfl⟩, rfl,
          (Nominations.noting_noting _ _ _).symm⟩

private theorem rebuildOption_runs_iff {o o' : Option Expr}
    (h : ∀ e, o = some e → ∀ {n n' : Nominations} {e' : Expr},
      Runs (e.rebuild (nominatingRebuilder own)) n e' n' ↔
        e.IsSound ∧ e' = e ∧ n' = n.noting (e.refersOutside own)) :
    Runs (rebuildOption (nominatingRebuilder own) o) n o' n' ↔
      (∀ e, o = some e → e.IsSound) ∧ o' = o ∧
        n' = n.noting (anyRefersOutside own o.toList) := by
  cases o with
  | none => simp [rebuildOption, runs_pure, anyRefersOutside]
  | some e =>
      simp only [rebuildOption, runs_bind, runs_pure, h e rfl]
      constructor
      · rintro ⟨_, _, ⟨hsound, rfl, rfl⟩, rfl, rfl⟩
        refine ⟨?_, rfl, by simp [anyRefersOutside]⟩
        intro e' he'
        obtain rfl := Option.some.inj he'
        exact hsound
      · rintro ⟨hsound, rfl, rfl⟩
        exact ⟨_, _, ⟨hsound e rfl, rfl, rfl⟩, rfl, by simp [anyRefersOutside]⟩

/-- The nominating walk changes nothing. It nominates if the expression
refers outside, and it fails exactly on malformed expressions. -/
theorem rebuild_runs_iff {e e' : Expr} :
    Runs (e.rebuild (nominatingRebuilder own)) n e' n' ↔
      e.IsSound ∧ e' = e ∧ n' = n.noting (e.refersOutside own) := by
  induction e using Expr.operandInduction generalizing n n' e' with
  | constant value =>
      simp [Expr.rebuild, nominatingRebuilder, runs_pure, Expr.refersOutside, Expr.visits]
  | parameter name type =>
      simp [Expr.rebuild, nominatingRebuilder, runs_pure, Expr.refersOutside, Expr.visits]
  | subquery model =>
      simp [Expr.rebuild, nominatingRebuilder, runs_pure, Expr.refersOutside, Expr.visits]
  | source name type =>
      simp only [Expr.rebuild, nominatingRebuilder, Expr.refersOutside, Expr.visits,
        List.any_cons, List.any_nil, Bool.or_false, Expr.isSound_source, true_and]
      cases hown : own.contains name with
      | true =>
          rw [if_pos rfl, runs_pure]
          rfl
      | false =>
          rw [if_neg Bool.false_ne_true, runs_bind]
          simp only [runs_pure]
          constructor
          · rintro ⟨_, _, hnominate, rfl, rfl⟩
            exact ⟨rfl, (Prod.mk.inj hnominate).2.symm⟩
          · rintro ⟨rfl, rfl⟩
            exact ⟨(), _, rfl, rfl, rfl⟩
  | unary operator operand type ih =>
      simp only [Expr.rebuild, runs_bind, runs_pure, ih, Expr.isSound_unary]
      constructor
      · rintro ⟨_, _, ⟨hsound, rfl, rfl⟩, rfl, rfl⟩
        exact ⟨hsound, rfl, rfl⟩
      · rintro ⟨hsound, rfl, rfl⟩
        exact ⟨_, _, ⟨hsound, rfl, rfl⟩, rfl, rfl⟩
  | binary operator left right ihLeft ihRight =>
      have hrefers : (Expr.binary operator left right).refersOutside own =
          (left.refersOutside own || right.refersOutside own) :=
        List.any_append
      simp only [Expr.rebuild, runs_bind, runs_pure, ihLeft, ihRight, Expr.isSound_binary,
        hrefers, ← Nominations.noting_noting]
      constructor
      · rintro ⟨_, _, ⟨hleft, rfl, rfl⟩, _, _, ⟨hright, rfl, rfl⟩, rfl, rfl⟩
        exact ⟨⟨hleft, hright⟩, rfl, rfl⟩
      · rintro ⟨⟨hleft, hright⟩, rfl, rfl⟩
        exact ⟨_, _, ⟨hleft, rfl, rfl⟩, _, _, ⟨hright, rfl, rfl⟩, rfl, rfl⟩
  | member target name type ih =>
      simp only [Expr.rebuild, runs_bind, runs_pure, ih, Expr.isSound_member]
      constructor
      · rintro ⟨_, _, ⟨hsound, rfl, rfl⟩, rfl, rfl⟩
        exact ⟨hsound, rfl, rfl⟩
      · rintro ⟨hsound, rfl, rfl⟩
        exact ⟨_, _, ⟨hsound, rfl, rfl⟩, rfl, rfl⟩
  | call method target arguments type ihTarget ihArguments =>
      have hrefers : (Expr.call method target arguments type).refersOutside own =
          (anyRefersOutside own target.toList || anyRefersOutside own arguments) := by
        simp only [Expr.refersOutside, Expr.visits, List.any_cons, List.any_append,
          refersOutside_optionVisits, refersOutside_listVisits, Bool.false_or]
      have harguments : ∀ {n n' : Nominations} {es' : List Expr},
          Runs (rebuildList (nominatingRebuilder own) arguments) n es' n' ↔
            (∀ e ∈ arguments, e.IsSound) ∧ es' = arguments ∧
              n' = n.noting (anyRefersOutside own arguments) :=
        rebuildList_runs_iff ihArguments
      have htarget : ∀ {n n' : Nominations} {o' : Option Expr},
          Runs (rebuildOption (nominatingRebuilder own) target) n o' n' ↔
            (∀ e, target = some e → e.IsSound) ∧ o' = target ∧
              n' = n.noting (anyRefersOutside own target.toList) :=
        rebuildOption_runs_iff ihTarget
      simp only [Expr.rebuild, nominatingRebuilder, runs_bind, runs_pure, runs_require,
        Expr.isSound_call, hrefers, ← Nominations.noting_noting]
      constructor
      · rintro ⟨_, _, ⟨-, rfl⟩, _, _, hrunTarget, _, _, hrunArguments, rfl, rfl⟩
        obtain ⟨hsoundTarget, rfl, rfl⟩ := htarget.mp hrunTarget
        obtain ⟨hsoundArguments, rfl, rfl⟩ := harguments.mp hrunArguments
        exact ⟨⟨hsoundTarget, hsoundArguments⟩, rfl, rfl⟩
      · rintro ⟨⟨hsoundTarget, hsoundArguments⟩, rfl, rfl⟩
        exact ⟨(), n, ⟨rfl, rfl⟩, _, _, htarget.mpr ⟨hsoundTarget, rfl, rfl⟩, _, _,
          harguments.mpr ⟨hsoundArguments, rfl, rfl⟩, rfl, rfl⟩
  | conditional test whenTrue whenFalse ihTest ihTrue ihFalse =>
      have hrefers : (Expr.conditional test whenTrue whenFalse).refersOutside own =
          (test.refersOutside own || anyRefersOutside own whenTrue.toList ||
            anyRefersOutside own whenFalse.toList) := by
        simp only [Expr.refersOutside, Expr.visits, List.any_cons, List.any_append,
          refersOutside_optionVisits, Bool.false_or]
      simp only [Expr.rebuild, nominatingRebuilder, runs_bind, runs_pure, runs_require,
        Expr.isSound_conditional, hrefers, ← Nominations.noting_noting]
      constructor
      · rintro ⟨_, _, ⟨hcheck, rfl⟩, _, _, hrunTest, _, _, hrunTrue, _, _, hrunFalse, rfl, rfl⟩
        obtain ⟨a, b, rfl, rfl, hfit⟩ := Expr.checkBranches_conditional_iff.mp hcheck
        obtain ⟨hsoundTest, rfl, rfl⟩ := ihTest.mp hrunTest
        obtain ⟨hsoundTrue, rfl, rfl⟩ := (ihTrue a rfl).mp hrunTrue
        obtain ⟨hsoundFalse, rfl, rfl⟩ := (ihFalse b rfl).mp hrunFalse
        exact ⟨⟨hsoundTest, _, _, rfl, rfl, hfit, hsoundTrue, hsoundFalse⟩, rfl,
          by simp [anyRefersOutside]⟩
      · rintro ⟨⟨hsoundTest, a, b, rfl, rfl, hfit, hsoundTrue, hsoundFalse⟩, rfl, rfl⟩
        exact ⟨(), n, ⟨Expr.checkBranches_conditional_iff.mpr ⟨_, _, rfl, rfl, hfit⟩, rfl⟩, _, _,
          ihTest.mpr ⟨hsoundTest, rfl, rfl⟩, _, _,
          (ihTrue _ rfl).mpr ⟨hsoundTrue, rfl, rfl⟩, _, _,
          (ihFalse _ rfl).mpr ⟨hsoundFalse, rfl, rfl⟩, rfl, by simp [anyRefersOutside]⟩
  | coalesce left right ihLeft ihRight =>
      have hrefers : (Expr.coalesce left right).refersOutside own =
          (anyRefersOutside own left.toList || anyRefersOutside own right.toList) := by
        simp only [Expr.refersOutside, Expr.visits, List.any_cons, List.any_append,
          refersOutside_optionVisits, Bool.false_or]
      simp only [Expr.rebuild, nominatingRebuilder, runs_bind, runs_pure, runs_require,
        Expr.isSound_coalesce, hrefers, ← Nominations.noting_noting]
      constructor
      · rintro ⟨_, _, ⟨hcheck, rfl⟩, _, _, hrunLeft, _, _, hrunRight, rfl, rfl⟩
        obtain ⟨a, b, rfl, rfl, hfit⟩ := Expr.checkBranches_coalesce_iff.mp hcheck
        obtain ⟨hsoundLeft, rfl, rfl⟩ := (ihLeft a rfl).mp hrunLeft
        obtain ⟨hsoundRight, rfl, rfl⟩ := (ihRight b rfl).mp hrunRight
        exact ⟨⟨_, _, rfl, rfl, hfit, hsoundLeft, hsoundRight⟩, rfl,
          by simp [anyRefersOutside]⟩
      · rintro ⟨⟨a, b, rfl, rfl, hfit, hsoundLeft, hsoundRight⟩, rfl, rfl⟩
        exact ⟨(), n, ⟨Expr.checkBranches_coalesce_iff.mpr ⟨_, _, rfl, rfl, hfit⟩, rfl⟩, _, _,
          (ihLeft _ rfl).mpr ⟨hsoundLeft, rfl, rfl⟩, _, _,
          (ihRight _ rfl).mpr ⟨hsoundRight, rfl, rfl⟩, rfl, by simp [anyRefersOutside]⟩

end

end ObjectQuery
