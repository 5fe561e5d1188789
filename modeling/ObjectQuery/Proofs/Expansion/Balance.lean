import ObjectQuery.Proofs.Expansion.Nominating

/-!
# What a walk leaves of the nominations

A walk through a source opens branches and closes them again, suspends
nomination and resumes it. An error in between does not prevent the second
half: what a step leaves behind is the same kind of thing whether it succeeded
or not. So there are two kinds of steps only. Some leave the nominations
exactly as they were; the others may have nominated the innermost branch, and
have done nothing else. Closing a branch or resuming nomination turns a step
of the second kind into one of the first.

## Main definitions

* `Nominations.KeptBy` — the same open branches and suspensions, and no flag
  changed but that of the innermost branch, from false to true.
* `SourceExpansion.Restores`, `SourceExpansion.Nominates` — the two kinds of
  steps.

## Main results

* `SourceExpansion.Nominates.insideBranch`, `SourceExpansion.Nominates.suspended`
  — what surrounds a step undoes what it has done.
* `nominates_rebuild`, `nominates_takeApart` — walks are of the second kind.
* `nominations_kept_by_walks` — what any walk leaves.
-/

namespace ObjectQuery

/-! ## Nominations that are kept -/

namespace Nominations

/-- The same branches are open and the same suspensions in force. The flags are
the same too, except that the innermost branch may have been nominated. -/
structure KeptBy (n n' : Nominations) : Prop where
  depth : n'.depth = n.depth
  suspensions : n'.suspensions = n.suspensions
  outer : ∀ k, n'.branches[k + 1]? = n.branches[k + 1]?
  innermost : n'.branches[0]? = n.branches[0]? ∨
    n.branches[0]? = some false ∧ n'.branches[0]? = some true

private theorem keptBy_refl (n : Nominations) : n.KeptBy n :=
  ⟨rfl, rfl, fun _ => rfl, .inl rfl⟩

private theorem keptBy_nominate (n : Nominations) : n.KeptBy n.nominate := by
  obtain ⟨branches, suspensions⟩ := n
  cases suspensions with
  | succ count => exact keptBy_refl _
  | zero =>
      cases branches with
      | nil => exact keptBy_refl _
      | cons top rest =>
          refine ⟨rfl, rfl, fun _ => rfl, ?_⟩
          cases top with
          | false => exact .inr ⟨rfl, rfl⟩
          | true => exact .inl rfl

/-- Under a suspension nothing can be nominated. -/
theorem nominate_of_suspended {n : Nominations} (h : 0 < n.suspensions) : n.nominate = n := by
  obtain ⟨branches, suspensions⟩ := n
  cases suspensions with
  | zero => cases h
  | succ count => rfl

private theorem push_nominate_pop (n : Nominations) : n.push.nominate.pop = n := by
  obtain ⟨branches, suspensions⟩ := n
  cases suspensions <;> rfl

end Nominations

/-! ## Two kinds of steps -/

namespace SourceExpansion

variable {α β : Type}

/-- The nominations that a step leaves, whether it succeeds or fails. -/
def left (step : SourceExpansion α) (n : Nominations) : Nominations :=
  (step.run n : Except ModelError α × Nominations).2

/-- The step leaves the nominations as they were. -/
def Restores (step : SourceExpansion α) : Prop :=
  ∀ n, left step n = n

/-- The step leaves the nominations as they were or nominates the innermost branch. -/
def Nominates (step : SourceExpansion α) : Prop :=
  ∀ n, left step n = n ∨ left step n = n.nominate

/-- After a step that fails there is no other. -/
theorem left_bind (x : SourceExpansion α) (f : α → SourceExpansion β) (n : Nominations) :
    left (x >>= f) n = left x n ∨ ∃ a, left (x >>= f) n = left (f a) (left x n) := by
  have hrun : ((x >>= f).run n : Except ModelError β × Nominations) =
      (ExceptT.bindCont f (x.run n).1 : StateM Nominations (Except ModelError β)) (x.run n).2 :=
    rfl
  unfold left
  rw [hrun]
  cases (x.run n : Except ModelError α × Nominations).1 with
  | error e => exact .inl rfl
  | ok a => exact .inr ⟨a, rfl⟩

private theorem Restores.nominates {step : SourceExpansion α} (h : Restores step) :
    Nominates step :=
  fun n => .inl (h n)

private theorem restores_pure (a : α) : Restores (pure a) := fun _ => rfl

private theorem restores_throw (e : ModelError) : Restores (throw e : SourceExpansion α) :=
  fun _ => rfl

private theorem restores_of_except (x : Except ModelError α) : Restores (ExceptT.mk (pure x)) :=
  fun _ => rfl

private theorem nominates_nominate : Nominates (modify Nominations.nominate) := fun _ => .inr rfl

theorem Restores.bind {x : SourceExpansion α} {f : α → SourceExpansion β} (hx : Restores x)
    (hf : ∀ a, Restores (f a)) : Restores (x >>= f) := by
  intro n
  rcases left_bind x f n with h | ⟨a, h⟩
  · rw [h, hx n]
  · rw [h, hf a, hx n]

/-- Nominating a branch twice is nominating it once. -/
theorem Nominates.bind {x : SourceExpansion α} {f : α → SourceExpansion β} (hx : Nominates x)
    (hf : ∀ a, Nominates (f a)) : Nominates (x >>= f) := by
  intro n
  rcases left_bind x f n with h | ⟨a, h⟩
  · rw [h]
    exact hx n
  · rw [h]
    rcases hx n with hn | hn
    · rw [hn]
      exact hf a n
    · rw [hn]
      rcases hf a n.nominate with hlast | hlast
      · exact .inr hlast
      · exact .inr (hlast.trans n.nominate_nominate)

/-- What is nominated under a suspension is nothing. -/
theorem Nominates.suspended {step : SourceExpansion α} (h : Nominates step) :
    Restores (suspended step) := by
  intro n
  show (left step n.suspend).resume = n
  rcases h n.suspend with hn | hn
  · rw [hn]
    rfl
  · rw [hn]
    rfl

/-- A branch is closed again, whatever has become of it. -/
theorem Nominates.insideBranch {step : SourceExpansion α} (h : Nominates step) :
    Restores (insideBranch step) := by
  intro n
  show (left step n.push).pop = n
  rcases h n.push with hn | hn
  · rw [hn]
    rfl
  · rw [hn, n.push_nominate_pop]

private theorem Nominates.keptBy {step : SourceExpansion α} (h : Nominates step) (n : Nominations) :
    n.KeptBy (left step n) := by
  rcases h n with hn | hn
  · rw [hn]
    exact n.keptBy_refl
  · rw [hn]
    exact n.keptBy_nominate

private theorem Nominates.left_of_suspended {step : SourceExpansion α} (h : Nominates step)
    {n : Nominations} (hn : 0 < n.suspensions) : left step n = n := by
  rcases h n with h | h
  · exact h
  · exact h.trans (Nominations.nominate_of_suspended hn)

end SourceExpansion

/-! ## Walks -/

section

open SourceExpansion

variable {own : List String}

private theorem nominates_leaf (e : Expr) : Nominates ((nominatingRebuilder own).leaf e) := by
  cases e with
  | source name type =>
      simp only [nominatingRebuilder]
      split
      · exact (restores_pure _).nominates
      · exact nominates_nominate.bind fun _ => (restores_pure _).nominates
  | _ => exact (restores_pure _).nominates

/-- The walk through an expression does nothing to the nominations but nominate the
innermost branch. -/
theorem nominates_rebuild (own : List String) (e : Expr) :
    Nominates (e.rebuild (nominatingRebuilder own)) :=
  Expr.rebuild_related (nominatingRebuilder own) (nominatingRebuilder own)
    (R := fun {α} (step _ : SourceExpansion α) => Nominates step)
    (fun a => (restores_pure a).nominates) Nominates.bind nominates_leaf
    (fun e => (restores_of_except e.checkBranches).nominates)
    (fun side => (restores_throw (.missingBranch side)).nominates) e

variable {model : QueryModel}

private theorem restores_takeApartBranch {side : BranchSide} {o : Option Expr}
    (h : ∀ e, o = some e → Nominates (e.takeApart model)) :
    Restores (takeApartBranch model side o) := by
  cases o with
  | none =>
      rw [takeApartBranch]
      exact restores_throw _
  | some e =>
      rw [takeApartBranch]
      exact (h e rfl).insideBranch.bind fun _ => restores_pure _

/-- A conditional or coalesce that is taken apart leaves the nominations as they were:
its test is walked through under a suspension, and each branch is closed again. -/
theorem restores_takeApart_conditional {test : Expr} {whenTrue whenFalse : Option Expr}
    (hTrue : ∀ e, whenTrue = some e → Nominates (e.takeApart model))
    (hFalse : ∀ e, whenFalse = some e → Nominates (e.takeApart model)) :
    Restores ((Expr.conditional test whenTrue whenFalse).takeApart model) := by
  rw [Expr.takeApart]
  exact (restores_of_except _).bind fun _ => (nominates_rebuild _ test).suspended.bind fun _ =>
    (restores_takeApartBranch hTrue).bind fun _ =>
      (restores_takeApartBranch hFalse).bind fun _ => restores_of_except _

private theorem restores_takeApart_coalesce {left right : Option Expr}
    (hLeft : ∀ e, left = some e → Nominates (e.takeApart model))
    (hRight : ∀ e, right = some e → Nominates (e.takeApart model)) :
    Restores ((Expr.coalesce left right).takeApart model) := by
  rw [Expr.takeApart]
  exact (restores_of_except _).bind fun _ => (restores_takeApartBranch hLeft).bind fun _ =>
    (restores_takeApartBranch hRight).bind fun _ => restores_of_except _

theorem nominates_takeApart (model : QueryModel) (e : Expr) : Nominates (e.takeApart model) := by
  induction e using Expr.operandInduction with
  | conditional test whenTrue whenFalse _ ihTrue ihFalse =>
      exact (restores_takeApart_conditional ihTrue ihFalse).nominates
  | coalesce left right ihLeft ihRight =>
      exact (restores_takeApart_coalesce ihLeft ihRight).nominates
  | _ =>
      rw [Expr.takeApart]
      · exact (nominates_rebuild _ _).bind fun _ => (restores_pure _).nominates
      all_goals simp

private theorem restores_takeApart {e : Expr} (h : e.isBranching = true) :
    Restores (e.takeApart model) := by
  cases e with
  | conditional test whenTrue whenFalse =>
      exact restores_takeApart_conditional (fun e _ => nominates_takeApart model e)
        fun e _ => nominates_takeApart model e
  | coalesce left right =>
      exact restores_takeApart_coalesce (fun e _ => nominates_takeApart model e)
        fun e _ => nominates_takeApart model e
  | _ => cases h

end

/-- Taking a source apart and walking through an expression in it leave the same branches
open and the same suspensions in force as there were, on success and on failure and
whatever the nominations were before. No flag changes, except that the innermost branch
may have been nominated; and that only while nothing is suspended and, where a source is
taken apart, only if it is no conditional or coalesce. -/
theorem nominations_kept_by_walks (model : QueryModel) (own : List String) (e : Expr)
    (n : Nominations) :
    (n.KeptBy ((e.takeApart model).left n) ∧
      (e.isBranching = true ∨ 0 < n.suspensions → (e.takeApart model).left n = n)) ∧
    n.KeptBy ((e.rebuild (nominatingRebuilder own)).left n) ∧
      (0 < n.suspensions → (e.rebuild (nominatingRebuilder own)).left n = n) := by
  have hapart := nominates_takeApart model e
  have hwalk := nominates_rebuild own e
  refine ⟨⟨hapart.keptBy n, ?_⟩, hwalk.keptBy n, hwalk.left_of_suspended⟩
  rintro (hbranching | hsuspended)
  · exact restores_takeApart hbranching n
  · exact hapart.left_of_suspended hsuspended

end ObjectQuery
