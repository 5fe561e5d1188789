import ObjectQuery.Proofs.Expansion.Clauses

/-!
# Going through the clauses of a model

The clause expressions of a model are replaced one after the other, by a
computation that may keep a state and may fail. What such a walk does is what
the computation does on the list of the clause expressions, and what it makes
holds the results of that in the same places. Everything else stays: the main
source, the joins, the directions of the orderings, the kinds of the result
operators, and which clauses there are at all.

That a walk has the effects of the list is an equation between computations,
so it holds in every monad. In the one of a state and a failure it says which
calls are made: on each clause expression once, in order, up to the first that
fails.

## Main definitions

* `SucceedInTurn` — calls on several expressions, each of which succeeds.
* `QueryModel.SameFrame` — models that differ in their clause expressions only.

## Main results

* `QueryModel.clauseExpressions_mapClausesM` — the walk has the effects of the
  list of the clause expressions.
* `QueryModel.mapClausesM_run` — the calls of a walk and what comes of them.
-/

namespace ObjectQuery

/-! ## Effects -/

namespace QueryModel

section

variable {m : Type → Type} [Monad m] [LawfulMonad m] (f : Expr → m Expr)

private theorem toList_mapOptionM (o : Option Expr) :
    Option.toList <$> mapOptionM f o = o.toList.mapM f := by
  cases o <;> simp [mapOptionM]

private theorem keys_mapOrderingM (orderings : List OrderClause) :
    List.map OrderClause.key <$> orderings.mapM (mapOrderingM f) =
      (orderings.map OrderClause.key).mapM f := by
  induction orderings with
  | nil => simp
  | cons ordering rest ih =>
      simp only [List.mapM_cons, List.map_cons, map_bind, ← ih, mapOrderingM, bind_assoc, pure_bind,
        map_pure, bind_map_left]

private theorem operands_mapOperatorM (operators : List ResultOperator) :
    List.filterMap ResultOperator.operand? <$> operators.mapM (mapOperatorM f) =
      (operators.filterMap ResultOperator.operand?).mapM f := by
  induction operators with
  | nil => simp
  | cons operator rest ih =>
      rw [List.mapM_cons, map_bind, mapOperatorM]
      cases hoperand : operator.operand? with
      | none =>
          rw [List.filterMap_cons_none hoperand, ← ih]
          simp [hoperand]
      | some e =>
          have hput : ∀ e', (operator.withOperand e').operand? = some e' := fun _ =>
            ResultOperator.operand?_withOperand hoperand
          rw [List.filterMap_cons_some hoperand, List.mapM_cons, ← ih]
          simp [hput]

/-- Going through the clauses of a model has the effects of going through the list of its
clause expressions, and the results are the clause expressions of what it makes. -/
theorem clauseExpressions_mapClausesM (model : QueryModel) :
    clauseExpressions <$> model.mapClausesM f = model.clauseExpressions.mapM f := by
  simp only [clauseExpressions, mapClausesM, List.mapM_append, ← toList_mapOptionM,
    ← keys_mapOrderingM, ← operands_mapOperatorM, map_bind, map_pure, bind_map_left, bind_assoc,
    pure_bind]

end

/-! ## Functions without effects -/

/-- The operator with a function applied to the expression it carries. -/
def mapOperator (g : Expr → Expr) (operator : ResultOperator) : ResultOperator :=
  match operator.operand? with
  | none => operator
  | some e => operator.withOperand (g e)

/-- The model with a function applied to each clause expression. -/
def mapClauses (g : Expr → Expr) (model : QueryModel) : QueryModel :=
  { model with
    selector := model.selector.map g
    orderings := model.orderings.map fun ordering => { ordering with key := g ordering.key }
    operators := model.operators.map (mapOperator g)
    filter := model.filter.map g
    having := model.having.map g }

/-- Going through the clauses with a function that has no effects has none. -/
theorem mapClausesM_pure {m : Type → Type} [Monad m] [LawfulMonad m] (g : Expr → Expr)
    (model : QueryModel) :
    (model.mapClausesM fun e => pure (g e)) = (pure (model.mapClauses g) : m QueryModel) := by
  have hoption : ∀ o : Option Expr,
      mapOptionM (fun e => (pure (g e) : m Expr)) o = pure (o.map g) := by
    intro o
    cases o <;> simp [mapOptionM]
  have hordering : mapOrderingM (fun e => (pure (g e) : m Expr)) =
      fun ordering => pure { ordering with key := g ordering.key } := by
    funext ordering
    simp [mapOrderingM]
  have hoperator : mapOperatorM (fun e => (pure (g e) : m Expr)) =
      fun operator => pure (mapOperator g operator) := by
    funext operator
    unfold mapOperatorM mapOperator
    cases operator.operand? <;> simp
  simp only [mapClausesM, hoption, hordering, hoperator, List.mapM_pure, pure_bind]
  rfl

private theorem mapOperator_id (operator : ResultOperator) :
    mapOperator id operator = operator := by
  unfold mapOperator
  cases hoperand : operator.operand? with
  | none => rfl
  | some e => exact ResultOperator.withOperand_self hoperand

private theorem mapOperator_mapOperator (g h : Expr → Expr) (operator : ResultOperator) :
    mapOperator h (mapOperator g operator) = mapOperator (h ∘ g) operator := by
  cases operator <;> rfl

/-- Replacing every clause expression by itself gives the model. -/
theorem mapClauses_id (model : QueryModel) : model.mapClauses id = model := by
  have horderings :
      (fun ordering : OrderClause => { ordering with key := id ordering.key }) = id := by
    funext ordering
    cases ordering
    rfl
  have hoperators : mapOperator id = id := funext mapOperator_id
  rw [mapClauses, horderings, hoperators, Option.map_id, List.map_id, List.map_id]
  cases model
  rfl

private theorem mapClauses_mapClauses (g h : Expr → Expr) (model : QueryModel) :
    (model.mapClauses g).mapClauses h = model.mapClauses (h ∘ g) := by
  have hoperators : mapOperator h ∘ mapOperator g = mapOperator (h ∘ g) :=
    funext (mapOperator_mapOperator g h)
  simp only [mapClauses, Option.map_map, List.map_map, hoperators]
  rfl

end QueryModel

/-! ## Calls -/

section

variable {σ ε α β : Type}

/-- Calls on several expressions, one after the other, each of which succeeds: the state before
them, the expressions, the results and the state after them. -/
inductive SucceedInTurn (f : Expr → ExceptT ε (StateM σ) Expr) :
    σ → List Expr → List Expr → σ → Prop
  | nil (s : σ) : SucceedInTurn f s [] [] s
  | cons {s t u : σ} {e e' : Expr} {es es' : List Expr} (hcall : (f e).run.run s = (.ok e', t))
    (hrest : SucceedInTurn f t es es' u) : SucceedInTurn f s (e :: es) (e' :: es') u

private theorem run_pure_eq {a b : α} {s t : σ} :
    (pure a : ExceptT ε (StateM σ) α).run.run s = (.ok b, t) ↔ a = b ∧ s = t := by
  show (Except.ok a, s) = (Except.ok b, t) ↔ _
  rw [Prod.mk.injEq, Except.ok.injEq]

private theorem run_bind_of_ok {x : ExceptT ε (StateM σ) α} {k : α → ExceptT ε (StateM σ) β}
    {s t : σ}
    {a : α} (h : x.run.run s = (.ok a, t)) : (x >>= k).run.run s = (k a).run.run t := by
  rw [ExceptT.run_bind, StateT.run_bind, h]
  rfl

private theorem run_bind_of_error {x : ExceptT ε (StateM σ) α} {k : α → ExceptT ε (StateM σ) β}
    {s t : σ}
    {error : ε} (h : x.run.run s = (.error error, t)) :
    (x >>= k).run.run s = (.error error, t) := by
  rw [ExceptT.run_bind, StateT.run_bind, h]
  rfl

private theorem run_bind_eq_ok {x : ExceptT ε (StateM σ) α} {k : α → ExceptT ε (StateM σ) β}
    {s u : σ}
    {b : β} (h : (x >>= k).run.run s = (.ok b, u)) :
    ∃ a t, x.run.run s = (.ok a, t) ∧ (k a).run.run t = (.ok b, u) := by
  cases hx : x.run.run s with
  | mk outcome t =>
      cases outcome with
      | ok a => exact ⟨a, t, rfl, run_bind_of_ok hx ▸ h⟩
      | error error =>
          rw [run_bind_of_error hx] at h
          cases h

/-- Calls that all succeed are what becomes of a list. -/
theorem SucceedInTurn.mapM {f : Expr → ExceptT ε (StateM σ) Expr} {s t : σ} {es results : List Expr}
    (h : SucceedInTurn f s es results t) : (es.mapM f).run.run s = (.ok results, t) := by
  induction h with
  | nil s =>
      rw [List.mapM_nil]
      rfl
  | cons hcall _ ih =>
      rw [List.mapM_cons, run_bind_of_ok hcall, run_bind_of_ok ih]
      rfl

/-- The first call that fails is the end of a list. -/
theorem SucceedInTurn.mapM_of_error {f : Expr → ExceptT ε (StateM σ) Expr} {s t u : σ}
    {before results after : List Expr} {e : Expr} {error : ε}
    (h : SucceedInTurn f s before results t) (herror : (f e).run.run t = (.error error, u)) :
    ((before ++ e :: after).mapM f).run.run s = (.error error, u) := by
  induction h with
  | nil s => rw [List.nil_append, List.mapM_cons, run_bind_of_error herror]
  | cons hcall _ ih =>
      rw [List.cons_append, List.mapM_cons, run_bind_of_ok hcall, run_bind_of_error (ih herror)]

/-- All calls on a list succeed, or there is a first one that fails. -/
theorem exists_calls (f : Expr → ExceptT ε (StateM σ) Expr) (s : σ) (es : List Expr) :
    (∃ results t, SucceedInTurn f s es results t) ∨
      ∃ before e after results t error u, es = before ++ e :: after ∧
        SucceedInTurn f s before results t ∧ (f e).run.run t = (.error error, u) := by
  induction es generalizing s with
  | nil => exact .inl ⟨[], s, .nil s⟩
  | cons e rest ih =>
      cases hcall : (f e).run.run s with
      | mk outcome t =>
          cases outcome with
          | error error => exact .inr ⟨[], e, rest, [], s, error, t, rfl, .nil s, hcall⟩
          | ok e' =>
              rcases ih t with ⟨results, u, hrest⟩ |
                ⟨before, last, after, results, u, error, v, rfl, hbefore, herror⟩
              · exact .inl ⟨e' :: results, u, .cons hcall hrest⟩
              · exact .inr ⟨e :: before, last, after, e' :: results, u, error, v, rfl,
                  .cons hcall hbefore, herror⟩

/-- What each call keeps of its argument is kept of a list. -/
theorem map_eq_of_mapM {view : α → β} {g : α → ExceptT ε (StateM σ) α}
    (hg : ∀ a s a' t, (g a).run.run s = (.ok a', t) → view a' = view a) {as as' : List α} {s t : σ}
    (h : (as.mapM g).run.run s = (.ok as', t)) : as'.map view = as.map view := by
  induction as generalizing as' s t with
  | nil =>
      rw [List.mapM_nil, run_pure_eq] at h
      obtain ⟨rfl, -⟩ := h
      rfl
  | cons a rest ih =>
      rw [List.mapM_cons] at h
      obtain ⟨a', u, ha, h⟩ := run_bind_eq_ok h
      obtain ⟨rest', v, hrest, h⟩ := run_bind_eq_ok h
      rw [run_pure_eq] at h
      obtain ⟨rfl, -⟩ := h
      rw [List.map_cons, List.map_cons, hg a s a' u ha, ih hrest]

/-! ## Walks -/

namespace QueryModel

variable {f : Expr → ExceptT ε (StateM σ) Expr} {model model' : QueryModel} {s t : σ}

/-- The models differ in nothing but their clause expressions. -/
structure SameFrame (model model' : QueryModel) : Prop where
  item : model'.item = model.item
  itemType : model'.itemType = model.itemType
  source : model'.source = model.source
  joins : model'.joins = model.joins
  directions : model'.orderings.map OrderClause.direction =
    model.orderings.map OrderClause.direction
  /-- Each result operator is of the kind of the one in its place. -/
  operators : model'.operators.map ResultOperator.ctorIdx =
    model.operators.map ResultOperator.ctorIdx
  hasSelector : model'.selector.isSome = model.selector.isSome
  hasFilter : model'.filter.isSome = model.filter.isSome
  hasHaving : model'.having.isSome = model.having.isSome

private theorem isSome_of_mapOptionM {o o' : Option Expr}
    (h : (mapOptionM f o).run.run s = (.ok o', t)) : o'.isSome = o.isSome := by
  cases o with
  | none =>
      rw [mapOptionM, run_pure_eq] at h
      obtain ⟨rfl, -⟩ := h
      rfl
  | some e =>
      obtain ⟨e', u, -, h⟩ := run_bind_eq_ok h
      rw [run_pure_eq] at h
      obtain ⟨rfl, -⟩ := h
      rfl

private theorem direction_of_mapOrderingM {ordering ordering' : OrderClause}
    (h : (mapOrderingM f ordering).run.run s = (.ok ordering', t)) :
    ordering'.direction = ordering.direction := by
  obtain ⟨key, u, -, h⟩ := run_bind_eq_ok h
  rw [run_pure_eq] at h
  obtain ⟨rfl, -⟩ := h
  rfl

private theorem ctorIdx_of_mapOperatorM {operator operator' : ResultOperator}
    (h : (mapOperatorM f operator).run.run s = (.ok operator', t)) :
    operator'.ctorIdx = operator.ctorIdx := by
  unfold mapOperatorM at h
  split at h
  · rw [run_pure_eq] at h
    rw [h.1]
  · obtain ⟨e', u, -, h⟩ := run_bind_eq_ok h
    rw [run_pure_eq] at h
    obtain ⟨rfl, -⟩ := h
    cases operator <;> rfl

/-- A walk that succeeds changes nothing but the clause expressions. -/
theorem sameFrame_of_mapClausesM (h : (model.mapClausesM f).run.run s = (.ok model', t)) :
    model.SameFrame model' := by
  obtain ⟨selector, _, hselector, h⟩ := run_bind_eq_ok h
  obtain ⟨orderings, _, horderings, h⟩ := run_bind_eq_ok h
  obtain ⟨operators, _, hoperators, h⟩ := run_bind_eq_ok h
  obtain ⟨filter, _, hfilter, h⟩ := run_bind_eq_ok h
  obtain ⟨having, _, hhaving, h⟩ := run_bind_eq_ok h
  rw [run_pure_eq] at h
  obtain ⟨rfl, -⟩ := h
  exact
    { item := rfl
      itemType := rfl
      source := rfl
      joins := rfl
      directions := map_eq_of_mapM (fun _ _ _ _ => direction_of_mapOrderingM) horderings
      operators := map_eq_of_mapM (fun _ _ _ _ => ctorIdx_of_mapOperatorM) hoperators
      hasSelector := isSome_of_mapOptionM hselector
      hasFilter := isSome_of_mapOptionM hfilter
      hasHaving := isSome_of_mapOptionM hhaving }

/-- A walk succeeds where the calls on the list of the clause expressions do, and the results are
the clause expressions of what it makes. -/
theorem mapClausesM_of_calls {results : List Expr}
    (h : SucceedInTurn f s model.clauseExpressions results t) :
    ∃ model', (model.mapClausesM f).run.run s = (.ok model', t) ∧
      model'.clauseExpressions = results := by
  have hlist := h.mapM
  rw [← clauseExpressions_mapClausesM, ← bind_pure_comp] at hlist
  obtain ⟨model', u, hmodel, hlist⟩ := run_bind_eq_ok hlist
  rw [run_pure_eq] at hlist
  obtain ⟨rfl, rfl⟩ := hlist
  exact ⟨model', hmodel, rfl⟩

/-- A walk fails as the list of the clause expressions does. -/
theorem mapClausesM_of_error {error : ε}
    (h : (model.clauseExpressions.mapM f).run.run s = (.error error, t)) :
    (model.mapClausesM f).run.run s = (.error error, t) := by
  rw [← clauseExpressions_mapClausesM, ← bind_pure_comp] at h
  cases hmodel : (model.mapClausesM f).run.run s with
  | mk outcome u =>
      cases outcome with
      | ok model' =>
          rw [run_bind_of_ok hmodel] at h
          cases h
      | error other =>
          rw [run_bind_of_error hmodel] at h
          cases h
          rfl

/-- Going through the clauses of a model with a function that keeps a state and may fail calls it
on the expressions of the projection, the orderings, the result operators, the filter and the
having predicate, in this order and on each once. If all calls succeed, their results are the
clause expressions of the new model in the same order, and nothing else has changed. Otherwise the
first call that fails is the last one, and its error is the outcome. So replacing each expression
by itself gives the model, and two functions without effects in turn are their composition. -/
theorem mapClausesM_run (f : Expr → ExceptT ε (StateM σ) Expr) (model : QueryModel) (s : σ) :
    ((∃ results model' t, SucceedInTurn f s model.clauseExpressions results t ∧
        (model.mapClausesM f).run.run s = (.ok model', t) ∧
        model'.clauseExpressions = results ∧ model.SameFrame model') ∨
      ∃ before e after results t error u, model.clauseExpressions = before ++ e :: after ∧
        SucceedInTurn f s before results t ∧ (f e).run.run t = (.error error, u) ∧
        (model.mapClausesM f).run.run s = (.error error, u)) ∧
    (model.mapClausesM pure : ExceptT ε (StateM σ) QueryModel) = pure model ∧
    ∀ g h : Expr → Expr,
      ((model.mapClausesM fun e => pure (g e)) >>= mapClausesM fun e => pure (h e) :
          ExceptT ε (StateM σ) QueryModel) =
        model.mapClausesM fun e => pure (h (g e)) := by
  refine ⟨?_, ?_, fun g h => ?_⟩
  · rcases exists_calls f s model.clauseExpressions with ⟨results, t, hcalls⟩ |
      ⟨before, e, after, results, t, error, u, hsplit, hcalls, herror⟩
    · obtain ⟨model', hmodel, hresults⟩ := mapClausesM_of_calls hcalls
      exact .inl ⟨results, model', t, hcalls, hmodel, hresults, sameFrame_of_mapClausesM hmodel⟩
    · refine .inr ⟨before, e, after, results, t, error, u, hsplit, hcalls, herror, ?_⟩
      apply mapClausesM_of_error
      rw [hsplit]
      exact hcalls.mapM_of_error herror
  · exact (mapClausesM_pure id model).trans (congrArg pure (mapClauses_id model))
  · rw [mapClausesM_pure, pure_bind, mapClausesM_pure, mapClauses_mapClauses]
    exact (mapClausesM_pure (h ∘ g) model).symm

end QueryModel

end

end ObjectQuery
