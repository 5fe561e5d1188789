import ObjectQuery.Proofs.Expansion.Change
import ObjectQuery.Proofs.Expr.Nesting

/-!
# Expanding again and again

An expansion may leave work behind: what it moves out of a source comes to
stand in a clause, and the next expansion looks at it for the first time. So
the model may grow with every run, and the subqueries that are taken apart
may become more.

What goes down is how deep subqueries nest in those that are still to be
taken apart. A subquery that an expansion has come past is not taken apart
again, nor is a copy of it. What is moved out of a source has been a part of
it, and so less nests in it than in the subquery around it. Every run that
changes something lowers this bound by one, and at first it is the nesting of
the model.

## Main definitions

* `QueryModel.ApartBelow` — all that is taken apart nests less than so deep.
* `ChangingRuns` — so many expansions in a row, each of which changes something.

## Main results

* `expandWithin_apartBelow` — an expansion lowers the bound.
* `exists_changingRuns_le_nesting` — repeated expansions come to an end.
-/

namespace ObjectQuery

open Relation (ReflTransGen TransGen)

variable {limit budget bound : Nat} {model model' : QueryModel}

/-! ## Nesting and what is reached -/

private theorem QueryModel.Nests.nesting_lt {nested : QueryModel} (h : model.Nests nested) :
    nested.nesting < model.nesting := by
  obtain ⟨e, he, hholds⟩ := h
  have hle := QueryModel.nesting_le_of_mem (List.mem_append_right model.sourceExpressions he)
  exact Nat.lt_of_lt_of_le hholds.nesting_lt hle

private theorem nesting_le_of_reached {nested : QueryModel}
    (h : ReflTransGen QueryModel.Nests model nested) : nested.nesting ≤ model.nesting := by
  induction h with
  | refl => exact Nat.le_refl _
  | tail _ hnests ih => exact Nat.le_trans (Nat.le_of_lt hnests.nesting_lt) ih

private theorem nesting_lt_of_reached {nested : QueryModel}
    (h : TransGen QueryModel.Nests model nested) :
    nested.nesting < model.nesting := by
  obtain ⟨next, hnests, hrest⟩ := TransGen.head'_iff.mp h
  exact Nat.lt_of_le_of_lt (nesting_le_of_reached hrest) hnests.nesting_lt

private theorem QueryModel.source_nesting_le {source : Expr} (h : model.source = some source) :
    source.nesting ≤ model.nesting := by
  apply nesting_le_of_mem
  simp [expressions, sourceExpressions, h]

/-- What is reached from a model depends on its clauses only. -/
theorem reached_congr {nested : QueryModel}
    (hclauses : model.clauseExpressions = model'.clauseExpressions)
    (h : TransGen QueryModel.Nests model nested) : TransGen QueryModel.Nests model' nested := by
  obtain ⟨next, hnests, hrest⟩ := TransGen.head'_iff.mp h
  unfold QueryModel.Nests at hnests
  rw [hclauses] at hnests
  exact TransGen.head' hnests hrest

/-- The parts of a source nest no deeper than the source. The induction is on
the decisions that are taken apart. -/
theorem Expr.IsBranch.nesting_le_of_mem_parts {own : List String} {e : Expr} (h : e.IsBranch own)
    {part : SourcePart} (hpart : part ∈ e.parts own) : part.expr.nesting ≤ e.nesting := by
  have hoperand : ∀ {e x : Expr} (operand : Expr), operand ∈ e.operands →
      x.nesting ≤ operand.nesting → x.nesting ≤ e.nesting := fun operand hoperand hle =>
    Nat.le_trans hle (nesting_le_of_mem_operands hoperand)
  induction h with
  | whole _ hexpands =>
      rw [parts_eq_whole hexpands] at hpart
      exact Nat.le_of_eq (by rw [List.mem_singleton.mp hpart, wholePart_expr])
  | @conditional test a b _ hexpands _ _ iha ihb =>
      rw [parts_conditional hexpands] at hpart
      rcases List.mem_cons.mp hpart with rfl | hpart
      · exact hoperand test (by simp [operands]) (Nat.le_refl _)
      rcases List.mem_append.mp hpart with hpart | hpart
      · exact hoperand a (by simp [operands]) (iha hpart)
      · exact hoperand b (by simp [operands]) (ihb hpart)
  | @coalesce a b _ hexpands _ _ iha ihb =>
      rw [parts_coalesce hexpands] at hpart
      rcases List.mem_cons.mp hpart with rfl | hpart
      · exact hoperand a (by simp [operands]) (Nat.le_refl _)
      rcases List.mem_append.mp hpart with hpart | hpart
      · exact hoperand a (by simp [operands]) (iha hpart)
      · exact hoperand b (by simp [operands]) (ihb hpart)

/-! ## What is left to be taken apart -/

/-- In every subquery that is reached through clause expressions and is taken
apart, subqueries nest less than `bound` deep. -/
def QueryModel.ApartBelow (bound : Nat) (model : QueryModel) : Prop :=
  ∀ nested, TransGen QueryModel.Nests model nested → nested.ReadsApart → nested.nesting < bound

private theorem QueryModel.apartBelow_nesting (model : QueryModel) :
    model.ApartBelow model.nesting :=
  fun _ hreached _ => nesting_lt_of_reached hreached

private theorem QueryModel.ApartBelow.nests {nested : QueryModel} (h : model.ApartBelow bound)
    (hnests : model.Nests nested) : nested.ApartBelow bound :=
  fun inner hreached => h inner (.head hnests hreached)

/-- A model in which nothing is left to be taken apart is left alone. -/
theorem QueryModel.ApartBelow.changed_eq_false {limit : Nat} (h : model.ApartBelow 0)
    (hexpand : (model.expand limit).outcome = .ok model') : (model.expand limit).changed = false := by
  rw [changed_eq_false_iff hexpand]
  refine (expandWithin_eq_pure_iff_not_readsApart hexpand).mpr fun nested hreached hreads => ?_
  exact Nat.not_lt_zero _ (h nested hreached hreads)

namespace QueryModel.Becomes

variable {nested nested' inner : QueryModel} {source result : Expr}

/-- In what takes the place of a subquery, something is left to be taken apart
only in what was moved out of its source and in its expanded clauses. -/
theorem apart_of_holds (h : nested.Becomes limit budget nested' source result)
    (hholds : result.Holds inner) {deep : QueryModel}
    (hreached : ReflTransGen QueryModel.Nests inner deep) (hdeep : deep.ReadsApart) :
    TransGen QueryModel.Nests nested' deep ∨
      nested.ReadsApart ∧ deep.nesting < nested.nesting := by
  -- the subquery itself and its copies have a source that is not taken apart
  have hcopy : ∀ (copy : QueryModel) (w : Expr), copy.source = some w →
      copy.sourceNames = nested'.sourceNames → w.expands nested'.sourceNames = false →
        copy.clauseExpressions = nested'.clauseExpressions →
          ReflTransGen QueryModel.Nests copy deep → TransGen QueryModel.Nests nested' deep := by
    intro copy w hsource hnames hexpands hclauses hreached
    rcases Relation.reflTransGen_iff_eq_or_transGen.mp hreached with rfl | hreached
    · obtain ⟨w', hsource', hapart⟩ := hdeep
      obtain rfl : w' = w := Option.some.inj (hsource'.symm.trans hsource)
      rw [hnames] at hapart
      exact absurd hapart (Expr.expands_eq_false_iff.mp hexpands)
    · exact reached_congr hclauses hreached
  by_cases hexpands : source.expands nested'.sourceNames = true
  · have hbranch := Expr.isBranch nested'.sourceNames (h.isSound_of_expands hexpands)
    obtain ⟨part, hpart, hinner⟩ := (h.holds_iff_of_expands hexpands).mp hholds
    have hsource : nested.source = some source :=
      (expandWithin_source h.expandWithin_eq).1.symm.trans h.source_eq
    have hmoved : part.expr.Holds inner → deep.nesting < nested.nesting := by
      intro hpartHolds
      calc deep.nesting ≤ inner.nesting := nesting_le_of_reached hreached
        _ < part.expr.nesting := hpartHolds.nesting_lt
        _ ≤ source.nesting := hbranch.nesting_le_of_mem_parts hpart
        _ ≤ nested.nesting := source_nesting_le hsource
    have hreads := h.expands_iff_readsApart.mp hexpands
    cases part with
    | hoisted e => exact .inr ⟨hreads, hmoved hinner⟩
    | leftOut e => exact .inr ⟨hreads, hmoved hinner⟩
    | wrapped w =>
        obtain rfl : inner = nested'.withSource w := hinner
        have hwhole := hbranch.expands_of_wrapped hpart
        exact .inl (hcopy (nested'.withSource w) w rfl rfl hwhole rfl hreached)
  · have hstays := Bool.eq_false_iff.mpr hexpands
    rw [h.result_eq_self hstays] at hholds
    obtain rfl := Expr.holds_subquery.mp hholds
    exact .inl (hcopy _ source h.source_eq rfl hstays rfl hreached)

end QueryModel.Becomes

/-- The step lemma: an expansion lowers the bound of what is left to be taken
apart. The induction is on how deep subqueries may nest. -/
theorem expandWithin_apartBelow (hexpand : (model.expandWithin limit budget).outcome = .ok model')
    (h : model.ApartBelow (bound + 1)) : model'.ApartBelow bound := by
  induction budget generalizing model model' with
  | zero =>
      intro deep hreached
      obtain ⟨inner, hnests, -⟩ := TransGen.head'_iff.mp hreached
      obtain ⟨_, _, _, _, _, _, hbudget, _⟩ := QueryModel.Nests.of_expanded hexpand hnests
      cases hbudget
  | succ budget ih =>
      intro deep hreached hdeep
      obtain ⟨inner, hnests, hrest⟩ := TransGen.head'_iff.mp hreached
      obtain ⟨nested, left, nested', source, result, hnested, hbudget, hbecomes, hholds, -⟩ :=
        QueryModel.Nests.of_expanded hexpand hnests
      obtain rfl : budget = left := Nat.succ.inj hbudget
      rcases hbecomes.apart_of_holds hholds hrest hdeep with hclauses | ⟨hreads, hless⟩
      · exact ih hbecomes.expandWithin_eq (h.nests hnested) deep hclauses hdeep
      · exact Nat.lt_of_lt_of_le hless (Nat.le_of_lt_succ (h nested (.single hnested) hreads))

/-! ## Runs -/

/-- The second model comes out of the first one by so many expansions in a row,
each of which changes something. -/
inductive ChangingRuns (limit : Nat) : (count : Nat) → QueryModel → QueryModel → Prop
  | none {model : QueryModel} : ChangingRuns limit 0 model model
  | run {count : Nat} {model next final : QueryModel} :
    (model.expand limit).outcome = .ok next → (model.expand limit).changed = true →
    ChangingRuns limit count next final → ChangingRuns limit (count + 1) model final

/-- There are no more changing runs than the bound allows. -/
theorem ChangingRuns.count_le {count : Nat} {final : QueryModel}
    (hruns : ChangingRuns limit count model final) (h : model.ApartBelow bound) :
    count ≤ bound := by
  induction hruns generalizing bound with
  | none => exact Nat.zero_le _
  | run hexpand hchanged _ ih =>
      cases bound with
      | zero =>
          rw [h.changed_eq_false hexpand] at hchanged
          cases hchanged
      | succ bound => exact Nat.succ_le_succ (ih (expandWithin_apartBelow hexpand h))

/-- The runs come to an end: one of them fails, or one leaves the model as it
is. The induction is on the bound, which every changing run lowers. -/
theorem QueryModel.ApartBelow.exists_changingRuns (limit : Nat) (h : model.ApartBelow bound) :
    ∃ count final, ChangingRuns limit count model final ∧
      ((∃ error, (final.expand limit).outcome = .error error) ∨
        final.expand limit = ⟨[], .ok final⟩) := by
  induction bound generalizing model with
  | zero =>
      refine ⟨0, model, .none, ?_⟩
      cases hexpand : (model.expand limit).outcome with
      | error e => exact .inl ⟨e, rfl⟩
      | ok next =>
          have hquiet := (changed_eq_false_iff hexpand).mp (h.changed_eq_false hexpand)
          obtain rfl := eq_of_expandWithin_eq_pure hquiet
          exact .inr hquiet
  | succ bound ih =>
      cases hexpand : (model.expand limit).outcome with
      | error e => exact ⟨0, model, .none, .inl ⟨e, hexpand⟩⟩
      | ok next =>
          cases hchanged : (model.expand limit).changed with
          | false =>
              have hquiet := (changed_eq_false_iff hexpand).mp hchanged
              obtain rfl := eq_of_expandWithin_eq_pure hquiet
              exact ⟨0, _, .none, .inr hquiet⟩
          | true =>
              obtain ⟨count, final, hruns, hend⟩ := ih (expandWithin_apartBelow hexpand h)
              exact ⟨count + 1, final, .run hexpand hchanged hruns, hend⟩

/-- Expanding a model again and again comes to an end: after some runs that
change something, the next one fails or leaves the model as it is, without a
trace. However many changing runs there are, they are no more than subqueries
nest deep in the model. -/
theorem exists_changingRuns_le_nesting (limit : Nat) (model : QueryModel) :
    (∃ count final, ChangingRuns limit count model final ∧ count ≤ model.nesting ∧
        ((∃ error, (final.expand limit).outcome = .error error) ∨
          final.expand limit = ⟨[], .ok final⟩)) ∧
      ∀ count final, ChangingRuns limit count model final → count ≤ model.nesting := by
  have hle : ∀ count final, ChangingRuns limit count model final → count ≤ model.nesting :=
    fun count final hruns => hruns.count_le model.apartBelow_nesting
  refine ⟨?_, hle⟩
  obtain ⟨count, final, hruns, hend⟩ := model.apartBelow_nesting.exists_changingRuns limit
  exact ⟨count, final, hruns, hle count final hruns, hend⟩

end ObjectQuery
