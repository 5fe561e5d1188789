import ObjectQuery.Proofs.Comparison
import ObjectQuery.Proofs.Expr.Nesting

/-!
# Rebuilding and walking

There are two ways through an expression: the walk that only looks, and the
walk that makes a new expression. They have to meet the same nodes in the same
order, and they differ in what they do about a missing branch: the first one
passes it over, the second one ends there.

A rebuilder that changes nothing and notes what it is told of has both in one
computation, its events and its outcome. Both follow from what the expression
is: `Expr.visits` lists the nodes on the way, and `Expr.missingBranches` the
branches that are missing.

## Main definitions

* `Expr.missingBranches` — the missing branches, in the order in which they are
  met.
* `Rebuilder.recording` — the rebuilder that notes what it is told of.
* `WalkEnds` — how a walk ends that meets certain nodes and missing branches.

## Main results

* `Expr.missingBranches_eq_nil_iff` — no branch is missing exactly if every
  conditional and coalesce has both.
* `Expr.rebuild_recording_ends`, `Expr.rebuild_agrees_with_visits` — what a
  rebuilding walk comes to, and that it meets the nodes of the other walk.
-/

namespace ObjectQuery

/-! ## Missing branches -/

mutual

/-- The branches that are missing in the expression, in the order in which a walk meets
their places. Subqueries are not looked into. -/
def Expr.missingBranches : Expr → List BranchSide
  | .constant _ | .parameter _ _ | .source _ _ | .subquery _ => []
  | .unary _ operand _ => operand.missingBranches
  | .binary _ left right => left.missingBranches ++ right.missingBranches
  | .member target _ _ => target.missingBranches
  | .call _ target arguments _ => missingInOption target ++ missingInList arguments
  | .conditional test whenTrue whenFalse =>
    test.missingBranches ++ (missingInBranch .whenTrue whenTrue ++
      missingInBranch .whenFalse whenFalse)
  | .coalesce left right =>
    missingInBranch .coalesceLeft left ++ missingInBranch .coalesceRight right

/-- The branches missing in an operand that may be absent. -/
def missingInOption : Option Expr → List BranchSide
  | none => []
  | some e => e.missingBranches

/-- The branches missing in a branch, or the branch itself. -/
def missingInBranch (side : BranchSide) : Option Expr → List BranchSide
  | none => [side]
  | some e => e.missingBranches

/-- The branches missing in several operands. -/
def missingInList : List Expr → List BranchSide
  | [] => []
  | e :: rest => e.missingBranches ++ missingInList rest

end

/-- A conditional or coalesce has both of its branches. -/
def Expr.HasBranches : Expr → Prop
  | .conditional _ whenTrue whenFalse => whenTrue.isSome ∧ whenFalse.isSome
  | .coalesce left right => left.isSome ∧ right.isSome
  | _ => True

private theorem missingInOption_eq_nil_iff {o : Option Expr} :
    missingInOption o = [] ↔ ∀ e ∈ o.toList, e.missingBranches = [] := by
  cases o <;> simp [missingInOption]

private theorem missingInBranch_eq_nil_iff {side : BranchSide} {o : Option Expr} :
    missingInBranch side o = [] ↔ o.isSome ∧ ∀ e ∈ o.toList, e.missingBranches = [] := by
  cases o <;> simp [missingInBranch]

private theorem some_getD_of_missingInBranch {side : BranchSide} {o : Option Expr} {default : Expr}
    (h : missingInBranch side o = []) : some (o.getD default) = o := by
  cases o with
  | none => cases h
  | some e => rfl

private theorem missingInList_eq_nil_iff {es : List Expr} :
    missingInList es = [] ↔ ∀ e ∈ es, e.missingBranches = [] := by
  induction es with
  | nil => simp [missingInList]
  | cons e rest ih => rw [missingInList, List.append_eq_nil_iff, ih, List.forall_mem_cons]

private theorem Expr.missingBranches_eq_nil_iff_operands {e : Expr} :
    e.missingBranches = [] ↔
      e.HasBranches ∧ ∀ operand ∈ e.operands, operand.missingBranches = [] := by
  cases e with
  | conditional test whenTrue whenFalse =>
      simp only [missingBranches, HasBranches, operands, List.append_eq_nil_iff,
        missingInBranch_eq_nil_iff, List.forall_mem_cons, List.forall_mem_append]
      tauto
  | coalesce left right =>
      simp only [missingBranches, HasBranches, operands, List.append_eq_nil_iff,
        missingInBranch_eq_nil_iff, List.forall_mem_append]
      tauto
  | call method target arguments type =>
      simp only [missingBranches, HasBranches, operands, List.append_eq_nil_iff,
        missingInOption_eq_nil_iff, missingInList_eq_nil_iff, List.forall_mem_append, true_and]
  | _ => simp [missingBranches, HasBranches, operands]

/-- No branch is missing exactly if every conditional and coalesce outside of subqueries has
both of its branches. -/
theorem Expr.missingBranches_eq_nil_iff {e : Expr} :
    e.missingBranches = [] ↔ ∀ node, e.ContainsAt 0 node → node.HasBranches := by
  induction e using inductionOnOperands with
  | step e ih =>
      rw [missingBranches_eq_nil_iff_operands]
      constructor
      · rintro ⟨hown, hoperands⟩ node hnode
        rcases containsAt_iff.mp hnode with ⟨-, rfl⟩ | ⟨operand, hoperand, h⟩ | ⟨_, _, _, hdepth, _⟩
        · exact hown
        · exact (ih operand hoperand).mp (hoperands operand hoperand) node h
        · cases hdepth
      · intro h
        refine ⟨h e .self, fun operand hoperand => ?_⟩
        exact (ih operand hoperand).mpr fun node hnode => h node (.operand hoperand hnode)

/-! ## Taking notes -/

/-- Whether a rebuilding walk leaves the node to its user as a node of its own: a
reference to a source, a call, a conditional, a coalesce or a subquery. -/
def Expr.isAnnounced : Expr → Bool
  | .source _ _ | .call .. | .conditional .. | .coalesce .. | .subquery _ => true
  | _ => false

/-- The rebuilder that changes nothing and notes the nodes that are announced to it. -/
def Rebuilder.recording : Rebuilder (Traced Expr ModelError) where
  leaf e := do
    if e.isAnnounced then .emit e
    return e
  enter e := .emit e
  missing side := throw (.missingBranch side)

/-- The notes do not change what the walk comes to. -/
theorem Expr.rebuild_recording_outcome (e : Expr) :
    (e.rebuild .recording).outcome = e.rebuild .keep := by
  refine rebuild_related .recording .keep
    (R := fun {α} (x : Traced Expr ModelError α) (y : Except ModelError α) => x.outcome = y)
    (fun _ => rfl) ?_ ?_ (fun _ => rfl) (fun _ => rfl) e
  · intro α β x y f g hxy hfg
    rw [Traced.outcome_bind, hxy]
    exact congrArg (y >>= ·) (funext hfg)
  · intro e
    cases e <;> rfl

/-- How a walk ends that meets the nodes `seen` and the missing branches `gaps`: without any
of these it has the result `a` and has noted all nodes, and otherwise it fails at the first of
them, with the nodes before it noted. -/
def WalkEnds {α : Type} (x : Traced Expr ModelError α) (a : α) (seen : List Expr)
    (gaps : List BranchSide) : Prop :=
  match gaps with
  | [] => x = ⟨seen, .ok a⟩
  | side :: _ => x.outcome = .error (.missingBranch side) ∧ x.events <+: seen

namespace WalkEnds

variable {α β : Type} {x : Traced Expr ModelError α} {f : α → Traced Expr ModelError β} {a : α}
  {b : β} {seen seen' : List Expr} {gaps gaps' : List BranchSide}

theorem pure (a : α) : WalkEnds (Pure.pure a) a [] [] := rfl

private theorem emit (e : Expr) : WalkEnds (Traced.emit e) () [e] [] := rfl

theorem bind (hx : WalkEnds x a seen gaps) (hf : WalkEnds (f a) b seen' gaps') :
    WalkEnds (x >>= f) b (seen ++ seen') (gaps ++ gaps') := by
  cases gaps with
  | nil =>
      obtain rfl : x = ⟨seen, .ok a⟩ := hx
      have hrun : ((⟨seen, .ok a⟩ : Traced Expr ModelError α) >>= f) =
          ⟨seen ++ (f a).events, (f a).outcome⟩ := rfl
      rw [hrun]
      cases gaps' with
      | nil =>
          rw [show f a = ⟨seen', .ok b⟩ from hf]
          rfl
      | cons side rest => exact ⟨hf.1, (List.prefix_append_right_inj seen).mpr hf.2⟩
  | cons side rest =>
      obtain ⟨houtcome, hevents⟩ := hx
      have hrun : (x >>= f) = ⟨x.events, .error (.missingBranch side)⟩ := by
        show x.andThen f = _
        rw [Traced.andThen, houtcome]
      rw [hrun]
      exact ⟨rfl, hevents.trans (List.prefix_append seen seen')⟩

/-- What is made of the result is no part of the walk. -/
theorem bind_pure (hx : WalkEnds x a seen gaps) (g : α → β) :
    WalkEnds (x >>= fun a => Pure.pure (g a)) (g a) seen gaps := by
  have h := hx.bind (f := fun a => Pure.pure (g a)) (WalkEnds.pure (g a))
  rwa [List.append_nil, List.append_nil] at h

/-- Where a branch is missing there is no result, so it does not matter which. -/
theorem of_result {a' : α} (hx : WalkEnds x a seen gaps) (h : gaps = [] → a = a') :
    WalkEnds x a' seen gaps := by
  cases gaps with
  | nil => exact h rfl ▸ hx
  | cons side rest => exact hx

end WalkEnds

/-- The nodes announced on a walk that passes over missing branches. -/
def announced (nodes : List Expr) : List Expr :=
  nodes.filter Expr.isAnnounced

section

open Rebuilder (recording)

private theorem walkEnds_leaf {e : Expr} : WalkEnds (recording.leaf e) e (announced [e]) [] := by
  cases e <;> rfl

private theorem walkEnds_option {o : Option Expr}
    (h : ∀ e, o = some e →
      WalkEnds (e.rebuild recording) e (announced e.visits) e.missingBranches) :
    WalkEnds (rebuildOption recording o) o (announced (optionVisits o)) (missingInOption o) := by
  cases o with
  | none => exact .pure none
  | some e => exact (h e rfl).bind_pure some

private theorem walkEnds_branch {side : BranchSide} {o : Option Expr} (default : Expr)
    (h : ∀ e, o = some e →
      WalkEnds (e.rebuild recording) e (announced e.visits) e.missingBranches) :
    WalkEnds (rebuildBranch recording side o) (o.getD default) (announced (optionVisits o))
      (missingInBranch side o) := by
  cases o with
  | none => exact ⟨rfl, List.prefix_rfl⟩
  | some e => exact h e rfl

private theorem walkEnds_list {es : List Expr}
    (h : ∀ e ∈ es, WalkEnds (e.rebuild recording) e (announced e.visits) e.missingBranches) :
    WalkEnds (rebuildList recording es) es (announced (listVisits es)) (missingInList es) := by
  induction es with
  | nil => exact .pure []
  | cons e rest ih =>
      rw [List.forall_mem_cons] at h
      rw [listVisits, announced, List.filter_append]
      exact h.1.bind ((ih h.2).bind_pure (e :: ·))

/-- A rebuilding walk that takes notes. -/
theorem Expr.rebuild_recording_ends (e : Expr) :
    WalkEnds (e.rebuild recording) e (announced e.visits) e.missingBranches := by
  induction e using Expr.operandInduction with
  | constant value => exact walkEnds_leaf
  | parameter name type => exact walkEnds_leaf
  | source name type => exact walkEnds_leaf
  | subquery model => exact walkEnds_leaf
  | unary operator operand type ih => exact ih.bind_pure _
  | binary operator left right ihLeft ihRight =>
      rw [visits, announced, List.filter_append]
      exact ihLeft.bind (ihRight.bind_pure _)
  | member target name type ih => exact ih.bind_pure _
  | call method target arguments type ihTarget ihArguments =>
      rw [visits, announced, List.filter_cons_of_pos rfl, List.filter_append]
      exact (WalkEnds.emit _).bind ((walkEnds_option ihTarget).bind
        ((walkEnds_list ihArguments).bind_pure _))
  | conditional test whenTrue whenFalse ihTest ihTrue ihFalse =>
      rw [visits, announced, List.filter_cons_of_pos rfl, List.filter_append, List.filter_append,
        List.append_assoc]
      refine ((WalkEnds.emit _).bind (ihTest.bind ((walkEnds_branch default ihTrue).bind
        ((walkEnds_branch default ihFalse).bind_pure _)))).of_result fun hgaps => ?_
      have hbranches := (List.append_eq_nil_iff.mp (List.append_eq_nil_iff.mp hgaps).2).2
      obtain ⟨hTrue, hFalse⟩ := List.append_eq_nil_iff.mp hbranches
      rw [some_getD_of_missingInBranch hTrue, some_getD_of_missingInBranch hFalse]
  | coalesce left right ihLeft ihRight =>
      rw [visits, announced, List.filter_cons_of_pos rfl, List.filter_append]
      refine ((WalkEnds.emit _).bind ((walkEnds_branch default ihLeft).bind
        ((walkEnds_branch default ihRight).bind_pure _))).of_result fun hgaps => ?_
      obtain ⟨hLeft, hRight⟩ := List.append_eq_nil_iff.mp (List.append_eq_nil_iff.mp hgaps).2
      rw [some_getD_of_missingInBranch hLeft, some_getD_of_missingInBranch hRight]

end

/-- Rebuilding an expression and changing nothing gives the expression itself where every
conditional and coalesce outside of subqueries has both of its branches, and otherwise the
error of the first missing branch, in the order of a walk. A rebuilder that notes what is
announced to it comes to the same; it has noted the nodes of the walk that only looks, without
the constants and parameters, up to the first missing branch and else all of them. -/
theorem Expr.rebuild_agrees_with_visits (e : Expr) :
    ((∃ e', e.rebuild .keep = .ok e') ↔ ∀ node, e.ContainsAt 0 node → node.HasBranches) ∧
    (e.rebuild .keep =
      match e.missingBranches with
      | [] => .ok e
      | side :: _ => .error (.missingBranch side)) ∧
    (e.rebuild .recording).outcome = e.rebuild .keep ∧
    (e.rebuild .recording).events <+: announced e.visits ∧
    ∀ e', e.rebuild .keep = .ok e' → (e.rebuild .recording).events = announced e.visits := by
  have hends := e.rebuild_recording_ends
  rw [← missingBranches_eq_nil_iff, ← rebuild_recording_outcome]
  cases hgaps : e.missingBranches with
  | nil =>
      rw [hgaps] at hends
      rw [show e.rebuild .recording = ⟨announced e.visits, .ok e⟩ from hends]
      exact ⟨⟨fun _ => rfl, fun _ => ⟨e, rfl⟩⟩, rfl, rfl, List.prefix_rfl, fun _ _ => rfl⟩
  | cons side rest =>
      rw [hgaps] at hends
      obtain ⟨houtcome, hevents⟩ := hends
      rw [houtcome]
      refine ⟨⟨?_, ?_⟩, rfl, rfl, hevents, ?_⟩
      · rintro ⟨e', h⟩
        cases h
      · intro h
        cases h
      · intro e' h
        cases h

end ObjectQuery
