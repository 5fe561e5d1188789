import ObjectQuery.Proofs.Engine.Query

/-!
# Names that are bound

While a query runs, its scopes grow clause by clause: the source binds a name,
every join binds a further one, and a subquery starts from the scope around it.
A query in which every name is used only where it has been bound never looks a
name up in vain. It may still fail, but for another reason.

Which names a part of a query may use follows the engine: the source, the
numbers of rows to skip and to take and the item whose presence is tested are
evaluated outside of the query, a join sees the sources before it, and its
condition and everything after it see its own item as well.

## Main definitions

* `Hql.Node.WellScoped`, `Hql.Query.WellScoped` — names are used where they are
  bound.
* `Resolves` — a computation gives a result of some kind, or fails for another
  reason than a name that is not bound.

## Main results

* `Hql.Query.run_resolves` — a well-scoped query finds every name it looks up.
-/

namespace ObjectQuery

/-- The names that a scope binds. -/
def Scope.names (scope : Scope) : List String :=
  scope.map Prod.fst

/-! ## Computations that look up no name in vain -/

/-- A result meets a condition; an error is not that of a name that is not
bound. -/
def Resolves {α : Type} (P : α → Prop) : Outcome α → Prop
  | .ok a => P a
  | .error e => ∀ name, e ≠ .unboundName name

section

variable {α β : Type} {P : α → Prop} {Q : β → Prop}

@[simp] theorem resolves_ok {a : α} : Resolves P (.ok a) ↔ P a := Iff.rfl

@[simp] theorem resolves_pure {a : α} : Resolves P (pure a) ↔ P a := Iff.rfl

@[simp] theorem resolves_error {e : EvalError} :
    Resolves P (.error e) ↔ ∀ name, e ≠ .unboundName name := Iff.rfl

@[simp] theorem resolves_mismatch (operation : Operation) (v : Value) :
    Resolves P (mismatch operation v) := by
  simp [mismatch]

@[simp] theorem resolves_orOverflow (operation : Overflow) (result : Option Int64) :
    Resolves (fun _ => True) (orOverflow operation result) := by
  cases result <;> simp [orOverflow]

namespace Resolves

theorem ne_unboundName {x : Outcome α} (h : Resolves P x) (name : String) :
    x ≠ .error (.unboundName name) := by
  rintro rfl
  exact h name rfl

theorem mono {P' : α → Prop} {x : Outcome α} (h : Resolves P x) (hP : ∀ a, P a → P' a) :
    Resolves P' x := by
  cases x with
  | ok a => exact hP a h
  | error e => exact h

theorem bind {x : Outcome α} {f : α → Outcome β} (h : Resolves P x)
    (hf : ∀ a, P a → Resolves Q (f a)) : Resolves Q (x >>= f) := by
  cases x with
  | ok a => exact hf a h
  | error e => exact h

theorem mapM {f : β → Outcome α} {bs : List β} (h : ∀ b ∈ bs, Resolves P (f b)) :
    Resolves (fun as => ∀ a ∈ as, P a) (bs.mapM f) := by
  induction bs with
  | nil => exact fun a ha => nomatch ha
  | cons b rest ih =>
      obtain ⟨hhead, hrest⟩ := List.forall_mem_cons.mp h
      rw [List.mapM_cons]
      refine hhead.bind fun a ha => (ih hrest).bind fun as has => ?_
      exact List.forall_mem_cons.mpr ⟨ha, has⟩

theorem foldlM {f : α → β → Outcome α} (h : ∀ a b, P a → Resolves P (f a b)) {a : α}
    (ha : P a) (bs : List β) : Resolves P (bs.foldlM f a) := by
  induction bs generalizing a with
  | nil => exact ha
  | cons b rest ih =>
      rw [List.foldlM_cons]
      exact (h a b ha).bind fun a' ha' => ih ha'

end Resolves

end

/-- A name that is bound is found. -/
theorem Scope.item_resolves {scope : Scope} {name : String} (h : name ∈ scope.names) :
    Resolves (fun _ => True) (scope.item name) := by
  obtain ⟨entry, hentry, rfl⟩ := List.mem_map.mp h
  unfold item
  cases hlookup : scope.lookup entry.1 with
  | none => exact absurd rfl (bne_iff_ne.mp (List.lookup_eq_none_iff.mp hlookup entry hentry))
  | some v => trivial

/-! ## Operations on values -/

namespace Value

private theorem connective_resolves (operation : Operation) (dominant : Bool) (left right : Value) :
    Resolves (fun _ => True) (connective operation dominant left right) := by
  unfold connective connectiveMismatch
  repeat' split
  all_goals simp

private theorem integerArithmetic_resolves (operator : BinaryOperator) (a b : Int64) :
    Resolves (fun _ => True) (integerArithmetic operator a b) := by
  unfold integerArithmetic
  repeat' split
  all_goals simp

private theorem arithmetic_resolves (operator : BinaryOperator) (left right : Value) :
    Resolves (fun _ => True) (arithmetic operator left right) := by
  unfold arithmetic mixedArithmetic
  repeat' split
  all_goals simp [integerArithmetic_resolves]

private theorem ordered_resolves (holds : Ordering → Bool) (left right : Value) :
    Resolves (fun _ => True) (ordered holds left right) := by
  unfold ordered
  repeat' split
  all_goals simp

private theorem binary_resolves (operator : BinaryOperator) (left right : Value) :
    Resolves (fun _ => True) (binary operator left right) := by
  cases operator <;>
    simp [binary, connective_resolves, arithmetic_resolves, ordered_resolves]

private theorem not_resolves (v : Value) : Resolves (fun _ => True) v.not := by
  cases v <;> simp [Value.not]

private theorem negate_resolves (v : Value) : Resolves (fun _ => True) v.negate := by
  cases v <;> simp [negate]

private theorem like_resolves (escape : Option Char) (subject pattern : Value) :
    Resolves (fun _ => True) (like escape subject pattern) := by
  unfold like
  repeat' split
  all_goals simp

private theorem onString_resolves (name : String) (f : String → Value) (v : Value) :
    Resolves (fun _ => True) (onString name f v) := by
  cases v <;> simp [onString]

private theorem onLength_resolves (name : String) (f : Nat → Value) (v : Value) :
    Resolves (fun _ => True) (onLength name f v) := by
  cases v <;> simp [onLength]

private theorem abs_resolves (v : Value) : Resolves (fun _ => True) v.abs := by
  cases v <;> simp [abs]

private theorem replace_resolves (arguments : List Value) :
    Resolves (fun _ => True) (replace arguments) := by
  unfold replace
  repeat' split
  all_goals simp

private theorem call_resolves (name : String) (arguments : List Value) :
    Resolves (fun _ => True) (call name arguments) := by
  unfold call
  split <;> simp [onLength_resolves, onString_resolves, abs_resolves, replace_resolves]

private theorem sum_resolves (values : List Value) : Resolves (fun _ => True) (sum values) := by
  unfold sum
  split
  · trivial
  · exact Resolves.foldlM (fun a b _ => arithmetic_resolves .add a b) trivial _

private theorem average_resolves (values : List Value) :
    Resolves (fun _ => True) (average values) := by
  unfold average
  refine (sum_resolves values).bind fun total _ => ?_
  split <;> trivial

private theorem first_resolves (values : List Value) : Resolves (fun _ => True) (first values) := by
  unfold first
  split <;> simp

private theorem single_resolves (values : List Value) :
    Resolves (fun _ => True) (single values) := by
  unfold single
  split <;> simp

end Value

private theorem sourceItems_resolves (v : Value) : Resolves (fun _ => True) (sourceItems v) := by
  cases v <;> simp [sourceItems]

private theorem rowCount_resolves (v : Value) : Resolves (fun _ => True) (rowCount v) := by
  cases v <;> simp [rowCount]

private theorem DataSet.rows_resolves (data : DataSet) (entity : String) :
    Resolves (fun _ => True) (data.rows entity) := by
  unfold rows records
  split <;> simp

/-- Dropping repeated entries adds none. -/
theorem Value.mem_of_mem_distinctBy {α : Type} {value : α → Value} {seen : List Value}
    {entries : List α} {entry : α} (h : entry ∈ distinctBy value seen entries) :
    entry ∈ entries := by
  induction entries generalizing seen with
  | nil => exact h
  | cons first rest ih =>
      rw [distinctBy] at h
      split at h
      · exact List.mem_cons_of_mem first (ih h)
      · rcases List.mem_cons.mp h with rfl | h
        · exact List.mem_cons_self
        · exact List.mem_cons_of_mem first (ih h)

/-! ## Steps of a query -/

section

variable {P Q : Scope → Prop}

private theorem keepTrue_resolves {condition : Scope → Outcome Value} {scopes : List Scope}
    (hcondition : ∀ scope, P scope → Resolves (fun _ => True) (condition scope))
    (h : ∀ scope ∈ scopes, P scope) :
    Resolves (fun kept => ∀ scope ∈ kept, P scope) (keepTrue condition scopes) := by
  induction scopes with
  | nil => exact h
  | cons scope rest ih =>
      obtain ⟨hscope, hrest⟩ := List.forall_mem_cons.mp h
      rw [keepTrue]
      refine (hcondition scope hscope).bind fun v _ => (ih hrest).bind fun kept hkept => ?_
      cases v.isTrue with
      | true => exact List.forall_mem_cons.mpr ⟨hscope, hkept⟩
      | false => exact hkept

private theorem joinScopes_resolves {name : String} {items : Scope → Outcome (List Value)}
    {condition : Scope → Outcome Value} {scopes : List Scope}
    (hitems : ∀ scope, P scope → Resolves (fun _ => True) (items scope))
    (hnext : ∀ scope item, P scope → Q ((name, item) :: scope))
    (hcondition : ∀ scope, Q scope → Resolves (fun _ => True) (condition scope))
    (h : ∀ scope ∈ scopes, P scope) :
    Resolves (fun joined => ∀ scope ∈ joined, Q scope)
      (joinScopes name items condition scopes) := by
  induction scopes with
  | nil => exact fun scope hscope => nomatch hscope
  | cons scope rest ih =>
      obtain ⟨hscope, hrest⟩ := List.forall_mem_cons.mp h
      rw [joinScopes]
      refine (hitems scope hscope).bind fun here _ => ?_
      have hhere : ∀ next ∈ here.map (fun item => (name, item) :: scope), Q next :=
        List.forall_mem_map.mpr fun item _ => hnext scope item hscope
      refine (keepTrue_resolves hcondition hhere).bind fun kept hkept => ?_
      exact (ih hrest).bind fun joined hjoined => List.forall_mem_append.mpr ⟨hkept, hjoined⟩

private theorem sortScopes_resolves {keys : Scope → Outcome (List Value)} {scopes : List Scope}
    (directions : List Direction)
    (hkeys : ∀ scope, P scope → Resolves (fun _ => True) (keys scope))
    (h : ∀ scope ∈ scopes, P scope) :
    Resolves (fun sorted => ∀ scope ∈ sorted, P scope) (sortScopes directions keys scopes) := by
  unfold sortScopes
  refine Resolves.bind (P := fun keyed => ∀ entry ∈ keyed, P entry.2) ?_ fun keyed hkeyed => ?_
  · exact .mapM fun scope hscope => (hkeys scope (h scope hscope)).bind fun _ _ => h scope hscope
  · refine List.forall_mem_map.mpr fun entry hentry => hkeyed entry ?_
    exact List.mem_mergeSort.mp hentry

private theorem selectRows_resolves {select : Scope → Outcome Value} {scopes : List Scope}
    (hselect : ∀ scope, P scope → Resolves (fun _ => True) (select scope))
    (h : ∀ scope ∈ scopes, P scope) :
    Resolves (fun rows => ∀ row ∈ rows, P (Row.scope row)) (selectRows select scopes) :=
  .mapM fun scope hscope => (hselect scope (h scope hscope)).bind fun _ _ => h scope hscope

private theorem allTrue_resolves {condition : Scope → Outcome Value} {rows : List Row}
    (hcondition : ∀ scope, P scope → Resolves (fun _ => True) (condition scope))
    (h : ∀ row ∈ rows, P row.scope) : Resolves (fun _ => True) (allTrue condition rows) := by
  induction rows with
  | nil => trivial
  | cons row rest ih =>
      obtain ⟨hrow, hrest⟩ := List.forall_mem_cons.mp h
      rw [allTrue]
      refine (hcondition row.scope hrow).bind fun v _ => ?_
      cases v.isTrue with
      | true => exact ih hrest
      | false => trivial

end

namespace Hql

/-! ## Well-scoped nodes and queries -/

mutual

/-- Whether a node uses only names that are bound, or that the queries in it
bind. -/
def Node.WellScoped (bound : List String) : Node → Prop
  | .constant _ | .parameter _ | .entity _ => True
  | .ident name => name ∈ bound
  | .dot operand _ | .not operand | .negate operand | .cast operand _ | .isNull operand
  | .isNotNull operand => operand.WellScoped bound
  | .binary _ left right | .coalesce left right | .like left right _ | .among left right =>
    left.WellScoped bound ∧ right.WellScoped bound
  | .choice whens otherwise =>
    whensWellScoped bound whens ∧ optionWellScoped bound otherwise
  | .function _ arguments => allWellScoped bound arguments
  | .nonempty query | .subquery query => query.WellScoped bound

/-- Several nodes that use only names that are bound. -/
def allWellScoped (bound : List String) : List Node → Prop
  | [] => True
  | node :: rest => node.WellScoped bound ∧ allWellScoped bound rest

/-- A node that uses only names that are bound, if it is there. -/
def optionWellScoped (bound : List String) : Option Node → Prop
  | none => True
  | some node => node.WellScoped bound

/-- Conditions and the values beside them that use only names that are bound. -/
def whensWellScoped (bound : List String) : List (Node × Node) → Prop
  | [] => True
  | (condition, value) :: rest =>
    condition.WellScoped bound ∧ value.WellScoped bound ∧ whensWellScoped bound rest

/-- Joins, each of which sees the names of those before it. -/
def joinsWellScoped (bound : List String) : List Join → Prop
  | [] => True
  | ⟨source, name, on⟩ :: rest =>
    source.WellScoped bound ∧ on.WellScoped (name :: bound) ∧
      joinsWellScoped (name :: bound) rest

/-- Ordering keys that use only names that are bound. -/
def orderWellScoped (bound : List String) : List OrderKey → Prop
  | [] => True
  | ⟨key, _⟩ :: rest => key.WellScoped bound ∧ orderWellScoped bound rest

/-- An aggregate that looks at rows or at what is around the query. -/
def aggregateWellScoped (outer bound : List String) : Option Aggregate → Prop
  | some (.all predicate) => predicate.WellScoped bound
  | some (.contains item) => item.WellScoped outer
  | _ => True

/-- Whether every part of a query uses only names that are bound where the part
is evaluated. -/
def Query.WellScoped (outer : List String) : Query → Prop
  | ⟨source, name, joins, filter, having, order, select, _, skip, take, aggregate⟩ =>
    let bound := joins.map Join.name ++ name :: outer
    source.WellScoped outer ∧ joinsWellScoped (name :: outer) joins ∧
      optionWellScoped bound filter ∧ optionWellScoped bound having ∧
      orderWellScoped bound order ∧ optionWellScoped bound select ∧
      optionWellScoped outer skip ∧ optionWellScoped outer take ∧
      aggregateWellScoped outer bound aggregate

end

theorem allWellScoped_iff {bound : List String} {ns : List Node} :
    allWellScoped bound ns ↔ ∀ n ∈ ns, n.WellScoped bound := by
  induction ns with
  | nil => simp [allWellScoped]
  | cons n rest ih => rw [allWellScoped, ih, List.forall_mem_cons]

/-! ## Well-scoped queries find their names -/

/-- Dropping repeated rows adds none. -/
theorem Query.mem_of_mem_distinctRows {q : Query} {rows : List Row} {row : Row}
    (h : row ∈ q.distinctRows rows) : row ∈ rows := by
  unfold distinctRows at h
  split at h
  · exact Value.mem_of_mem_distinctBy h
  · exact h

section

variable {env : Environment}

mutual

theorem Node.eval_resolves : ∀ (n : Node) {bound : List String} {scope : Scope},
    n.WellScoped bound → bound ⊆ scope.names → Resolves (fun _ => True) (n.eval env scope)
  | .constant value, bound, scope, h, hscope => by
      cases value with
      | queryable entity =>
          rw [Node.eval]
          exact env.data.rows_resolves entity
      | _ => simp [Node.eval]
  | .parameter name, bound, scope, h, hscope => by
      rw [Node.eval]
      split <;> simp
  | .entity name, bound, scope, h, hscope => by
      rw [Node.eval]
      exact env.data.rows_resolves name
  | .ident name, bound, scope, h, hscope => by
      rw [Node.eval]
      exact Scope.item_resolves (hscope h)
  | .dot target property, bound, scope, h, hscope => by
      rw [Node.eval]
      refine (Node.eval_resolves target h hscope).bind fun v _ => ?_
      split <;> simp
  | .binary operator left right, bound, scope, h, hscope => by
      rw [Node.eval]
      refine (Node.eval_resolves left h.1 hscope).bind fun a _ => ?_
      exact (Node.eval_resolves right h.2 hscope).bind fun b _ => Value.binary_resolves operator a b
  | .not operand, bound, scope, h, hscope => by
      rw [Node.eval]
      exact (Node.eval_resolves operand h hscope).bind fun v _ => v.not_resolves
  | .negate operand, bound, scope, h, hscope => by
      rw [Node.eval]
      exact (Node.eval_resolves operand h hscope).bind fun v _ => v.negate_resolves
  | .cast operand type, bound, scope, h, hscope => by
      rw [Node.eval]
      exact (Node.eval_resolves operand h hscope).bind fun v _ => trivial
  | .choice whens otherwise, bound, scope, h, hscope => by
      rw [Node.eval]
      refine (evalWhens_resolves whens h.1 hscope).bind fun v _ => ?_
      cases v with
      | some v => trivial
      | none => exact evalOption_resolves otherwise h.2 hscope
  | .coalesce left right, bound, scope, h, hscope => by
      rw [Node.eval]
      refine (Node.eval_resolves left h.1 hscope).bind fun v _ => ?_
      cases v.isNull with
      | true => exact Node.eval_resolves right h.2 hscope
      | false => trivial
  | .isNull operand, bound, scope, h, hscope => by
      rw [Node.eval]
      exact (Node.eval_resolves operand h hscope).bind fun v _ => trivial
  | .isNotNull operand, bound, scope, h, hscope => by
      rw [Node.eval]
      exact (Node.eval_resolves operand h hscope).bind fun v _ => trivial
  | .function name arguments, bound, scope, h, hscope => by
      rw [Node.eval]
      exact (evalAll_resolves arguments h hscope).bind fun vs _ => Value.call_resolves name vs
  | .like operand pattern escape, bound, scope, h, hscope => by
      rw [Node.eval]
      refine (Node.eval_resolves operand h.1 hscope).bind fun s _ => ?_
      exact (Node.eval_resolves pattern h.2 hscope).bind fun p _ => Value.like_resolves escape s p
  | .among item collection, bound, scope, h, hscope => by
      rw [Node.eval]
      refine (Node.eval_resolves item h.1 hscope).bind fun v _ => ?_
      refine (Node.eval_resolves collection h.2 hscope).bind fun c _ => ?_
      exact (sourceItems_resolves c).bind fun items _ => trivial
  | .nonempty query, bound, scope, h, hscope => by
      rw [Node.eval]
      refine (Query.run_resolves query h hscope).bind fun v _ => ?_
      split <;> trivial
  | .subquery query, bound, scope, h, hscope => by
      rw [Node.eval]
      exact Query.run_resolves query h hscope

theorem evalAll_resolves : ∀ (ns : List Node) {bound : List String} {scope : Scope},
    allWellScoped bound ns → bound ⊆ scope.names →
      Resolves (fun _ => True) (evalAll env ns scope)
  | [], bound, scope, h, hscope => by
      rw [evalAll]
      trivial
  | node :: rest, bound, scope, h, hscope => by
      rw [evalAll]
      refine (Node.eval_resolves node h.1 hscope).bind fun v _ => ?_
      exact (evalAll_resolves rest h.2 hscope).bind fun vs _ => trivial

theorem evalOption_resolves : ∀ (o : Option Node) {bound : List String} {scope : Scope},
    optionWellScoped bound o → bound ⊆ scope.names →
      Resolves (fun _ => True) (evalOption env o scope)
  | none, bound, scope, h, hscope => by
      rw [evalOption]
      trivial
  | some node, bound, scope, h, hscope => by
      rw [evalOption]
      exact Node.eval_resolves node h hscope

theorem evalWhens_resolves : ∀ (whens : List (Node × Node)) {bound : List String} {scope : Scope},
    whensWellScoped bound whens → bound ⊆ scope.names →
      Resolves (fun _ => True) (evalWhens env whens scope)
  | [], bound, scope, h, hscope => by
      rw [evalWhens]
      trivial
  | (condition, value) :: rest, bound, scope, h, hscope => by
      rw [evalWhens]
      refine (Node.eval_resolves condition h.1 hscope).bind fun v _ => ?_
      cases v.isTrue with
      | true => exact (Node.eval_resolves value h.2.1 hscope).bind fun v _ => trivial
      | false => exact evalWhens_resolves rest h.2.2 hscope

theorem runJoins_resolves : ∀ (joins : List Join) {bound : List String} {scopes : List Scope},
    joinsWellScoped bound joins → (∀ scope ∈ scopes, bound ⊆ Scope.names scope) →
      Resolves (fun joined => ∀ scope ∈ joined, joins.map Join.name ++ bound ⊆ Scope.names scope)
        (runJoins env joins scopes)
  | [], bound, scopes, h, hscopes => by
      rw [runJoins]
      exact hscopes
  | ⟨source, name, on⟩ :: rest, bound, scopes, h, hscopes => by
      obtain ⟨hsource, hon, hrest⟩ := h
      rw [runJoins]
      refine Resolves.bind (P := fun joined => ∀ scope ∈ joined, name :: bound ⊆ Scope.names scope)
        ?_ fun joined hjoined => (runJoins_resolves rest hrest hjoined).mono ?_
      · exact joinScopes_resolves
          (fun scope hscope => (Node.eval_resolves source hsource hscope).bind fun v _ =>
            sourceItems_resolves v)
          (fun scope item hscope => List.cons_subset_cons name hscope)
          (fun scope hscope => Node.eval_resolves on hon hscope) hscopes
      · intro joined hall scope hscope other hother
        apply hall scope hscope
        simp only [List.map_cons, List.cons_append, List.mem_cons, List.mem_append] at hother ⊢
        tauto

theorem runFilter_resolves : ∀ (filter : Option Node) {bound : List String} {scopes : List Scope},
    optionWellScoped bound filter → (∀ scope ∈ scopes, bound ⊆ Scope.names scope) →
      Resolves (fun kept => ∀ scope ∈ kept, bound ⊆ Scope.names scope)
        (runFilter env filter scopes)
  | none, bound, scopes, h, hscopes => by
      rw [runFilter]
      exact hscopes
  | some condition, bound, scopes, h, hscopes => by
      rw [runFilter]
      exact keepTrue_resolves (fun scope hscope => Node.eval_resolves condition h hscope) hscopes

theorem evalKeys_resolves : ∀ (order : List OrderKey) {bound : List String} {scope : Scope},
    orderWellScoped bound order → bound ⊆ scope.names →
      Resolves (fun _ => True) (evalKeys env order scope)
  | [], bound, scope, h, hscope => by
      rw [evalKeys]
      trivial
  | ⟨key, direction⟩ :: rest, bound, scope, h, hscope => by
      rw [evalKeys]
      refine (Node.eval_resolves key h.1 hscope).bind fun v _ => ?_
      exact (evalKeys_resolves rest h.2 hscope).bind fun vs _ => trivial

theorem evalCount_resolves : ∀ (count : Option Node) {bound : List String} {scope : Scope},
    optionWellScoped bound count → bound ⊆ scope.names →
      Resolves (fun _ => True) (evalCount env count scope)
  | none, bound, scope, h, hscope => by
      rw [evalCount]
      trivial
  | some node, bound, scope, h, hscope => by
      rw [evalCount]
      refine (Node.eval_resolves node h hscope).bind fun v _ => ?_
      exact (rowCount_resolves v).bind fun n _ => trivial

theorem runAggregate_resolves : ∀ (aggregate : Option Aggregate) {outer bound : List String}
    {rows : List Row} {scope : Scope}, aggregateWellScoped outer bound aggregate →
      (∀ row ∈ rows, bound ⊆ row.scope.names) → outer ⊆ scope.names →
        Resolves (fun _ => True) (runAggregate env aggregate rows scope)
  | some (.all predicate), outer, bound, rows, scope, h, hrows, hscope => by
      rw [runAggregate]
      refine Resolves.bind (P := fun _ => True) ?_ fun b _ => trivial
      exact allTrue_resolves (fun scope hscope => Node.eval_resolves predicate h hscope) hrows
  | some (.contains item), outer, bound, rows, scope, h, hrows, hscope => by
      rw [runAggregate]
      exact (Node.eval_resolves item h hscope).bind fun v _ => trivial
  | none, _, _, rows, scope, _, _, _ => trivial
  | some .count, _, _, rows, scope, _, _, _ => trivial
  | some .any, _, _, rows, scope, _, _, _ => trivial
  | some .min, _, _, rows, scope, _, _, _ => trivial
  | some .max, _, _, rows, scope, _, _, _ => trivial
  | some .sum, _, _, rows, scope, _, _, _ => Value.sum_resolves _
  | some .average, _, _, rows, scope, _, _, _ => Value.average_resolves _
  | some .first, _, _, rows, scope, _, _, _ => Value.first_resolves _
  | some .single, _, _, rows, scope, _, _, _ => Value.single_resolves _

/-- A query that uses only names that are bound looks up none in vain. -/
theorem Query.run_resolves : ∀ (q : Query) {outer : List String} {scope : Scope},
    q.WellScoped outer → outer ⊆ scope.names → Resolves (fun _ => True) (q.run env scope)
  | ⟨source, name, joins, filter, having, order, select, distinct, skip, take, aggregate⟩,
      outer, scope, h, hscope => by
      obtain ⟨hsource, hjoins, hfilter, hhaving, horder, hselect, hskip, htake, haggregate⟩ := h
      rw [Query.run_eq]
      refine Resolves.bind (P := fun _ => True) ?_ fun items _ => ?_
      · exact (Node.eval_resolves source hsource hscope).bind fun v _ => sourceItems_resolves v
      have hitems : ∀ row ∈ items.map (fun item => (name, item) :: scope),
          name :: outer ⊆ Scope.names row :=
        List.forall_mem_map.mpr fun item _ => List.cons_subset_cons name hscope
      refine Resolves.bind
        (P := fun rows => ∀ row ∈ rows, joins.map Join.name ++ name :: outer ⊆ row.scope.names)
        ?_ fun rows hrows => ?_
      · unfold Query.selected
        refine (runJoins_resolves joins hjoins hitems).bind fun scopes hscopes => ?_
        refine (runFilter_resolves filter hfilter hscopes).bind fun scopes hscopes => ?_
        refine (runFilter_resolves having hhaving hscopes).bind fun scopes hscopes => ?_
        refine (sortScopes_resolves _ (fun scope hscope => evalKeys_resolves order horder hscope)
          hscopes).bind fun scopes hscopes => ?_
        refine selectRows_resolves (fun scope hscope => ?_) hscopes
        cases select with
        | some node => exact Node.eval_resolves node hselect hscope
        | none => exact Scope.item_resolves (hscope (by simp))
      · unfold Query.finish
        refine (evalCount_resolves skip hskip hscope).bind fun skipped _ => ?_
        refine (evalCount_resolves take htake hscope).bind fun taken _ => ?_
        refine runAggregate_resolves aggregate haggregate (fun row hrow => ?_) hscope
        have hkept := List.mem_of_mem_drop (List.mem_of_mem_take hrow)
        exact hrows row (Query.mem_of_mem_distinctRows hkept)

end

end

end Hql

end ObjectQuery
