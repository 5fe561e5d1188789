import Mathlib.Data.List.Infix
import ObjectQuery.Expansion.Nominations

/-!
# Which branch a step is about

Branches are opened and closed in any order that comes, also more of them
closed than were opened, and suspensions lifted that were never made. Which
branch a step closes or nominates can all the same be read off the steps
before it: a branch is open as long as never more have been closed since than
were opened since, and it is the innermost one while both are equally many.

Read this way, closing a branch tells whether the branch was nominated in its
time as the innermost one while nothing was suspended, and the depth is the
number of branches that are open.

## Main definitions

* `Nominations.run` — the nominations after several steps.
* `Nominations.LeavesOpen`, `Nominations.LeavesInnermost` — the steps close no
  branch that was open before them; and leave none open that they opened.
* `Nominations.NominatedSince` — the branch opened at that time is nominated.
* `Nominations.openBranches` — how many branches opened by the steps are open
  after them.

## Main results

* `Nominations.marks_after`, `Nominations.marks_run` — the flags on the stack
  say which branches are nominated, step by step and over every run.
* `Nominations.depth_run` — the depth after a run from any nominations.
* `Nominations.pop_after_run` — what closing a branch tells, and the depth.
-/

namespace ObjectQuery.Nominations

/-! ## Steps and branches -/

/-- The nominations after several steps. -/
def run (n : Nominations) (steps : List Step) : Nominations :=
  steps.foldl after n

/-- The suspensions in force after several steps: each suspension adds one, each
resumption takes one away if there is one. -/
def suspensionsAfter (steps : List Step) : Nat :=
  steps.foldl (fun count step =>
    match step with
    | .suspend => count + 1
    | .resume => count - 1
    | _ => count) 0

/-- The steps close no branch that was open before them: at no time have more
branches been closed than opened. -/
def LeavesOpen (steps : List Step) : Prop :=
  ∀ part, part <+: steps → part.count .pop ≤ part.count .push

/-- The innermost branch before the steps is the innermost one after them: it is
open, and what has been opened since has been closed. -/
def LeavesInnermost (steps : List Step) : Prop :=
  LeavesOpen steps ∧ steps.count .push = steps.count .pop

/-- The branch opened after the steps `early` has been nominated by one of the
steps `inside` that followed: a nomination while it was the innermost open branch
and no suspension was in force. -/
def NominatedSince (early inside : List Step) : Prop :=
  ∃ first last, inside = first ++ .nominate :: last ∧ LeavesInnermost first ∧
    suspensionsAfter (early ++ .push :: first) = 0

instance (steps : List Step) : Decidable (LeavesOpen steps) :=
  decidable_of_iff (∀ part ∈ steps.inits, part.count .pop ≤ part.count .push) <| by
    simp only [LeavesOpen, List.mem_inits]

/-- The number of branches opened by one of the steps that are open after the last. -/
def openBranches : List Step → Nat
  | [] => 0
  | .push :: rest => openBranches rest + if LeavesOpen rest then 1 else 0
  | _ :: rest => openBranches rest

private theorem run_append (n : Nominations) (steps more : List Step) :
    n.run (steps ++ more) = (n.run steps).run more :=
  List.foldl_append

/-! ## The depth -/

/-- How many of the branches open before the steps are closed by them, if there
are so many. -/
def closing : List Step → Nat
  | [] => 0
  | .push :: rest => closing rest - 1
  | .pop :: rest => closing rest + 1
  | _ :: rest => closing rest

/-- Never more than `c` branches have been closed too many. -/
theorem closing_le_iff {steps : List Step} {c : Nat} :
    closing steps ≤ c ↔ ∀ part, part <+: steps → part.count .pop ≤ part.count .push + c := by
  induction steps generalizing c with
  | nil => simp [closing]
  | cons s rest ih =>
      have hparts : (∀ part, part <+: s :: rest → part.count .pop ≤ part.count .push + c) ↔
          ∀ part, part <+: rest → (s :: part).count .pop ≤ (s :: part).count .push + c := by
        constructor
        · intro h part hpart
          exact h _ ((List.prefix_cons_inj s).mpr hpart)
        · intro h part hpart
          rcases List.prefix_cons_iff.mp hpart with rfl | ⟨part, rfl, hrest⟩
          · exact Nat.zero_le _
          · exact h part hrest
      rw [hparts]
      cases s with
      | push =>
          rw [closing, Nat.sub_le_iff_le_add, ih]
          simp only [List.count_cons, beq_iff_eq, reduceCtorEq, if_true, if_false]
          constructor <;> intro h part hpart <;> have := h part hpart <;> omega
      | pop =>
          simp only [closing, List.count_cons, beq_iff_eq, reduceCtorEq, if_true, if_false]
          cases c with
          | zero =>
              constructor
              · intro h
                omega
              · intro h
                have := h [] List.nil_prefix
                simp at this
          | succ c =>
              rw [Nat.succ_le_succ_iff, ih]
              constructor <;> intro h part hpart <;> have := h part hpart <;> omega
      | nominate | suspend | resume =>
          simp only [closing, List.count_cons, beq_iff_eq, reduceCtorEq, if_false, Nat.add_zero, ih]

private theorem leavesOpen_iff {steps : List Step} : LeavesOpen steps ↔ closing steps = 0 := by
  rw [← Nat.le_zero, closing_le_iff]
  rfl

@[simp] theorem depth_nominate (n : Nominations) : n.nominate.depth = n.depth := by
  obtain ⟨branches, suspensions⟩ := n
  cases suspensions <;> cases branches <;> rfl

/-- The depth after a run: the branches opened on the way and not closed, and those of
the branches open before that have not been closed either. -/
theorem depth_run (n : Nominations) (steps : List Step) :
    (n.run steps).depth = openBranches steps + (n.depth - closing steps) := by
  induction steps generalizing n with
  | nil => simp [run, openBranches, closing]
  | cons s rest ih =>
      show ((n.after s).run rest).depth = _
      rw [ih]
      cases s with
      | push =>
          have hdepth : (n.after .push).depth = n.depth + 1 := rfl
          rw [hdepth]
          simp only [openBranches, closing, leavesOpen_iff]
          split <;> omega
      | pop =>
          have hdepth : (n.after .pop).depth = n.depth - 1 := List.length_tail
          rw [hdepth]
          simp only [openBranches, closing]
          omega
      | nominate =>
          have hdepth : (n.after .nominate).depth = n.depth := depth_nominate n
          rw [hdepth]
          rfl
      | suspend | resume => rfl

/-! ## The flags -/

/-- Among the branches open after the steps, counted from the innermost one outwards,
number `k` was opened after the steps `early`, and the steps `inside` have followed. -/
def StandsAt (steps : List Step) (k : Nat) (early inside : List Step) : Prop :=
  steps = early ++ .push :: inside ∧ LeavesOpen inside ∧
    inside.count .push = inside.count .pop + k

/-- The number that the branch with number `k` after a step had before it; none if
the step has opened the branch. -/
def placeBefore : Step → Nat → Option Nat
  | .push, 0 => none
  | .push, k + 1 => some k
  | .pop, k => some (k + 1)
  | _, k => some k

/-- The flags on the stack are those of the open branches, and the suspensions are
those in force. -/
structure Marks (n : Nominations) (steps : List Step) : Prop where
  suspensions : n.suspensions = suspensionsAfter steps
  branches : ∀ k nominated, n.branches[k]? = some nominated ↔
    ∃ early inside, StandsAt steps k early inside ∧
      (nominated = true ↔ NominatedSince early inside)

section

variable {n : Nominations} {steps early inside : List Step} {s : Step} {k : Nat}

/-- A flag after a step is the one that the branch had before, unless the step has
opened the branch or nominates it. -/
theorem branches_after (n : Nominations) (s : Step) (k : Nat) :
    (n.after s).branches[k]? =
      match placeBefore s k with
      | none => some false
      | some j =>
        n.branches[j]?.map (· || decide (s = .nominate ∧ k = 0 ∧ n.suspensions = 0)) := by
  obtain ⟨branches, suspensions⟩ := n
  cases s with
  | push => cases k <;> simp [after, push, placeBefore]
  | pop => simp [after, pop, placeBefore]
  | suspend | resume => simp [after, suspend, resume, placeBefore]
  | nominate =>
      cases suspensions with
      | succ count => simp [after, nominate, placeBefore]
      | zero =>
          cases branches with
          | nil => simp [after, nominate, placeBefore]
          | cons top rest => cases k <;> simp [after, nominate, placeBefore]

private theorem suspensions_after (n : Nominations) (s : Step) :
    (n.after s).suspensions =
      match s with
      | .suspend => n.suspensions + 1
      | .resume => n.suspensions - 1
      | _ => n.suspensions := by
  obtain ⟨branches, suspensions⟩ := n
  cases s with
  | nominate => cases suspensions <;> cases branches <;> rfl
  | _ => rfl

/-- A step in the list is the last one or stands before it. -/
theorem snoc_eq_split {a : Step} {first last : List Step} :
    steps ++ [s] = first ++ a :: last ↔
      (first = steps ∧ a = s ∧ last = []) ∨
        ∃ last', last = last' ++ [s] ∧ steps = first ++ a :: last' := by
  constructor
  · intro h
    rcases List.eq_nil_or_concat last with rfl | ⟨last', s', rfl⟩
    · obtain ⟨rfl, hs⟩ := List.append_inj' h rfl
      exact .inl ⟨rfl, (List.singleton_inj.mp hs).symm, rfl⟩
    · rw [List.concat_eq_append] at h ⊢
      rw [← List.cons_append, ← List.append_assoc] at h
      obtain ⟨rfl, hs⟩ := List.append_inj' h rfl
      obtain rfl := List.singleton_inj.mp hs
      exact .inr ⟨last', rfl, rfl⟩
  · rintro (⟨rfl, rfl, rfl⟩ | ⟨last', rfl, rfl⟩)
    · rfl
    · simp

private theorem leavesOpen_snoc : LeavesOpen (steps ++ [s]) ↔
    LeavesOpen steps ∧ (steps ++ [s]).count .pop ≤ (steps ++ [s]).count .push := by
  simp only [LeavesOpen, List.prefix_concat_iff]
  constructor
  · intro h
    exact ⟨fun part hpart => h part (.inr hpart), h _ (.inl rfl)⟩
  · rintro ⟨hsteps, hall⟩ part (rfl | hpart)
    · exact hall
    · exact hsteps part hpart

private theorem LeavesOpen.count_le (h : LeavesOpen steps) : steps.count .pop ≤ steps.count .push :=
  h steps List.prefix_rfl

private theorem placeBefore_eq_none_iff : placeBefore s k = none ↔ s = .push ∧ k = 0 := by
  cases s <;> cases k <;> simp [placeBefore]

private theorem placeBefore_eq_some_iff {j : Nat} :
    placeBefore s k = some j ↔ [s].count .push + j = [s].count .pop + k := by
  cases s <;> cases k <;> simp [placeBefore, eq_comm] <;> omega

private theorem standsAt_snoc : StandsAt (steps ++ [s]) k early inside ↔
    match placeBefore s k with
    | none => early = steps ∧ inside = []
    | some j => ∃ inside', inside = inside' ++ [s] ∧ StandsAt steps j early inside' := by
  have hopened : StandsAt (steps ++ [s]) k steps [] ↔ placeBefore s k = none := by
    rw [placeBefore_eq_none_iff, StandsAt, List.append_cancel_left_eq, List.singleton_inj]
    simp [LeavesOpen, eq_comm]
  have hkept : ∀ inside', StandsAt (steps ++ [s]) k early (inside' ++ [s]) ↔
      ∃ j, placeBefore s k = some j ∧ StandsAt steps j early inside' := by
    intro inside'
    have hsplit : steps ++ [s] = early ++ .push :: (inside' ++ [s]) ↔
        steps = early ++ .push :: inside' := by
      rw [← List.cons_append, ← List.append_assoc, List.append_cancel_right_eq]
    simp only [StandsAt, hsplit, leavesOpen_snoc, List.count_append, placeBefore_eq_some_iff]
    constructor
    · rintro ⟨rfl, ⟨hopen, -⟩, hcount⟩
      have := hopen.count_le
      exact ⟨inside'.count .push - inside'.count .pop, by omega, rfl, hopen, by omega⟩
    · rintro ⟨j, hj, rfl, hopen, hcount⟩
      exact ⟨rfl, ⟨hopen, by omega⟩, by omega⟩
  constructor
  · intro h
    rcases snoc_eq_split.mp h.1 with ⟨rfl, -, rfl⟩ | ⟨inside', rfl, -⟩
    · rw [hopened.mp h]
      exact ⟨rfl, rfl⟩
    · obtain ⟨j, hj, hstands⟩ := (hkept inside').mp h
      rw [hj]
      exact ⟨inside', rfl, hstands⟩
  · cases hplace : placeBefore s k with
    | none =>
        rintro ⟨rfl, rfl⟩
        exact hopened.mpr hplace
    | some j =>
        rintro ⟨inside', rfl, hstands⟩
        exact (hkept inside').mpr ⟨j, hplace, hstands⟩

private theorem nominatedSince_nil : ¬NominatedSince early [] := by
  rintro ⟨first, last, h, -⟩
  exact List.append_ne_nil_of_right_ne_nil first (List.cons_ne_nil _ last) h.symm

private theorem nominatedSince_snoc : NominatedSince early (inside ++ [s]) ↔
    NominatedSince early inside ∨
      s = .nominate ∧ LeavesInnermost inside ∧ suspensionsAfter (early ++ .push :: inside) = 0 := by
  constructor
  · rintro ⟨first, last, hsplit, hinnermost, hcount⟩
    rcases snoc_eq_split.mp hsplit with ⟨rfl, rfl, -⟩ | ⟨last', -, rfl⟩
    · exact .inr ⟨rfl, hinnermost, hcount⟩
    · exact .inl ⟨first, last', rfl, hinnermost, hcount⟩
  · rintro (⟨first, last, rfl, hinnermost, hcount⟩ | ⟨rfl, hinnermost, hcount⟩)
    · exact ⟨first, last ++ [s], by simp, hinnermost, hcount⟩
    · exact ⟨inside, [], rfl, hinnermost, hcount⟩

private theorem suspensionsAfter_snoc : suspensionsAfter (steps ++ [s]) =
    match s with
    | .suspend => suspensionsAfter steps + 1
    | .resume => suspensionsAfter steps - 1
    | _ => suspensionsAfter steps := by
  rw [suspensionsAfter, List.foldl_append]
  cases s <;> rfl

/-- A step keeps the flags those of the open branches. -/
theorem marks_after (h : n.Marks steps) (s : Step) : (n.after s).Marks (steps ++ [s]) := by
  constructor
  · rw [suspensions_after, suspensionsAfter_snoc, h.suspensions]
  · intro k nominated
    simp only [branches_after, standsAt_snoc]
    cases hplace : placeBefore s k with
    | none =>
        constructor
        · intro hflag
          obtain rfl := Option.some.inj hflag
          exact ⟨steps, [], ⟨rfl, rfl⟩, by simp [nominatedSince_nil]⟩
        · rintro ⟨early, inside, ⟨rfl, rfl⟩, hflag⟩
          simpa [nominatedSince_nil] using hflag
    | some j =>
        -- the branch is nominated now if it is the innermost one and nothing is suspended
        have hnow : ∀ {early inside}, StandsAt steps j early inside →
            (decide (s = .nominate ∧ k = 0 ∧ n.suspensions = 0) = true ↔
              s = .nominate ∧ LeavesInnermost inside ∧
                suspensionsAfter (early ++ .push :: inside) = 0) := by
          rintro early inside ⟨rfl, hopen, hcount⟩
          rw [decide_eq_true_iff, h.suspensions]
          refine and_congr_right fun hs => and_congr_left fun _ => ?_
          subst hs
          obtain rfl := Option.some.inj hplace
          rw [LeavesInnermost, hcount]
          simp [hopen]
        rw [Option.map_eq_some_iff]
        constructor
        · rintro ⟨flag, hflag, rfl⟩
          obtain ⟨early, inside, hstands, hsince⟩ := (h.branches j flag).mp hflag
          refine ⟨early, inside ++ [s], ⟨inside, rfl, hstands⟩, ?_⟩
          rw [nominatedSince_snoc, ← hsince, ← hnow hstands, Bool.or_eq_true]
        · rintro ⟨early, _, ⟨inside, rfl, hstands⟩, hsince⟩
          classical
          refine ⟨decide (NominatedSince early inside), ?_, ?_⟩
          · exact (h.branches j _).mpr ⟨early, inside, hstands, decide_eq_true_iff⟩
          · rw [Bool.eq_iff_iff, hsince, nominatedSince_snoc, Bool.or_eq_true, hnow hstands,
              decide_eq_true_iff]

theorem marks_run (steps : List Step) : (empty.run steps).Marks steps := by
  induction steps using List.reverseRecOn with
  | nil =>
      refine ⟨rfl, fun k nominated => ?_⟩
      simp [run, empty, StandsAt]
  | append_singleton steps s ih =>
      rw [run_append]
      exact marks_after ih s

end

/-! ## Closing a branch -/

private theorem isNominated_iff {n : Nominations} :
    n.isNominated = true ↔ n.branches[0]? = some true := by
  obtain ⟨branches, suspensions⟩ := n
  cases branches <;> simp [isNominated]

/-- After any steps, in any order, closing a branch tells that it was nominated exactly if
one of the steps opened a branch that is the innermost open one now, and while it was so
before, it was nominated with no suspension in force. The depth is the number of open
branches. -/
theorem pop_after_run (steps : List Step) :
    (∃ told, (empty.run steps).answer? .pop = some told ∧
      (told = true ↔ ∃ early inside, steps = early ++ .push :: inside ∧
        LeavesInnermost inside ∧ NominatedSince early inside)) ∧
    (empty.run steps).depth = openBranches steps := by
  refine ⟨⟨_, rfl, ?_⟩, ?_⟩
  · rw [isNominated_iff, (marks_run steps).branches]
    constructor
    · rintro ⟨early, inside, ⟨hsteps, hopen, hcount⟩, hsince⟩
      exact ⟨early, inside, hsteps, ⟨hopen, hcount⟩, hsince.mp rfl⟩
    · rintro ⟨early, inside, hsteps, ⟨hopen, hcount⟩, hsince⟩
      exact ⟨early, inside, ⟨hsteps, hopen, hcount⟩, fun _ => hsince, fun _ => rfl⟩
  · rw [depth_run]
    simp [empty, depth]

-- a suspension made in one branch outlasts it, and a resumption too many does not count
example : (empty.run [.pop, .resume, .push, .suspend, .pop, .push, .nominate]).answer? .pop =
    some false := by
  decide

end ObjectQuery.Nominations
