import ObjectQuery.Proofs.Engine.Extremes
import ObjectQuery.Proofs.Engine.Membership
import ObjectQuery.Proofs.Json.Equality

/-!
# Where values come from

A query makes up no row. Its operators and functions compute plain values, that
is, null, truth values, numbers and texts. Everything else that it computes it
has found: a record of the data set, a parameter, an item that is bound around
it, or something that is inside of one of these. What it makes of found values
are lists of them.

So a query does not leave a class of values that has all plain values, the
lists of values of the class, and with a row its members, if everything that it
can find is of this class.

## Main definitions

* `Value.IsClosed` — a class of values of this kind.
* `Environment.LiesIn`, `Scope.LiesIn` — everything that can be found is of a class.

## Main results

* `Hql.Node.eval_gives`, `Hql.Query.run_gives` — what is computed is of the class.
-/

namespace ObjectQuery

/-- If a computation succeeds, then with a result of this kind. -/
def Gives {α : Type} (P : α → Prop) (x : Outcome α) : Prop :=
  ∀ a, x = .ok a → P a

namespace Gives

variable {α β : Type} {P : α → Prop} {Q : β → Prop}

@[simp] theorem ok_iff {a : α} : Gives P (.ok a) ↔ P a :=
  ⟨fun h => h a rfl, fun h _ heq => Except.ok.inj heq ▸ h⟩

@[simp] theorem pure_iff {a : α} : Gives P (pure a) ↔ P a := ok_iff

@[simp] theorem error (e : EvalError) : Gives P (.error e) := fun _ h => by cases h

@[simp] theorem mismatch (operation : Operation) (v : Value) :
    Gives P (mismatch operation v) := .error _

theorem bind {x : Outcome α} {f : α → Outcome β} (h : Gives P x)
    (hf : ∀ a, P a → Gives Q (f a)) : Gives Q (x >>= f) := by
  intro b hb
  obtain ⟨a, ha, hb⟩ := bind_eq_ok.mp hb
  exact hf a (h a ha) b hb

theorem mono {P' : α → Prop} {x : Outcome α} (h : Gives P x) (hP : ∀ a, P a → P' a) :
    Gives P' x :=
  fun a ha => hP a (h a ha)

theorem foldlM {f : α → β → Outcome α} (h : ∀ a b, Gives P (f a b)) {a : α} (ha : P a)
    (bs : List β) : Gives P (bs.foldlM f a) := by
  induction bs generalizing a with
  | nil => exact ok_iff.mpr ha
  | cons b rest ih =>
      rw [List.foldlM_cons]
      exact (h a b).bind fun a' ha' => ih ha'

end Gives

/-! ## Plain values -/

namespace Value

/-- A computation that gives only plain values. -/
abbrev GivesPlain (x : Outcome Value) : Prop :=
  Gives (fun v => v.isPlain = true) x

private theorem orOverflow_plain (operation : Overflow) (result : Option Int64) :
    GivesPlain (orOverflow operation result) := by
  cases result <;> simp [orOverflow, isPlain]

private theorem ofTruth_plain (t : Option Bool) : (ofTruth t).isPlain = true := by
  cases t <;> rfl

private theorem connective_plain (operation : Operation) (dominant : Bool) (left right : Value) :
    GivesPlain (connective operation dominant left right) := by
  unfold connective connectiveMismatch
  repeat' split
  all_goals simp [isPlain]

private theorem arithmetic_plain (operator : BinaryOperator) (left right : Value) :
    GivesPlain (arithmetic operator left right) := by
  unfold arithmetic integerArithmetic mixedArithmetic
  repeat' split
  all_goals simp [isPlain, orOverflow_plain]

private theorem ordered_plain (holds : Ordering → Bool) (left right : Value) :
    GivesPlain (ordered holds left right) := by
  unfold ordered
  repeat' split
  all_goals simp [isPlain]

private theorem binary_plain (operator : BinaryOperator) (left right : Value) :
    GivesPlain (binary operator left right) := by
  cases operator <;>
    simp [binary, connective_plain, arithmetic_plain, ordered_plain, ofTruth_plain]

private theorem not_plain (v : Value) : GivesPlain v.not := by
  cases v <;> simp [Value.not, isPlain]

private theorem negate_plain (v : Value) : GivesPlain v.negate := by
  cases v <;> simp [negate, isPlain, orOverflow_plain]

private theorem like_plain (escape : Option Char) (subject pattern : Value) :
    GivesPlain (like escape subject pattern) := by
  unfold like
  repeat' split
  all_goals simp [isPlain]

private theorem onString_plain (name : String) {f : String → Value} (hf : ∀ s, (f s).isPlain = true)
    (v : Value) : GivesPlain (onString name f v) := by
  cases v with
  | string s => exact Gives.ok_iff.mpr (hf s)
  | null => exact Gives.ok_iff.mpr rfl
  | _ => exact .mismatch _ _

private theorem onLength_plain (name : String) {f : Nat → Value} (hf : ∀ n, (f n).isPlain = true)
    (v : Value) : GivesPlain (onLength name f v) := by
  cases v <;> simp [onLength, hf]

private theorem abs_plain (v : Value) : GivesPlain v.abs := by
  cases v <;> simp [abs, isPlain, orOverflow_plain]

private theorem replace_plain (arguments : List Value) : GivesPlain (replace arguments) := by
  unfold replace
  repeat' split
  all_goals simp [isPlain]

private theorem concat_plain (values : List Value) : (concat values).isPlain = true := by
  unfold concat
  split <;> rfl

/-- The better of two values is one of them. -/
theorem foldl_better_mem (direction : Direction) (v : Value) (values : List Value) :
    values.foldl (better direction) v ∈ v :: values := by
  induction values generalizing v with
  | nil => exact List.mem_cons_self
  | cons w values ih =>
      have hstep : better direction v w = v ∨ better direction v w = w := by
        unfold better
        split
        · exact .inr rfl
        · exact .inl rfl
      rcases List.mem_cons.mp (ih (better direction v w)) with heq | hmem
      · rw [List.foldl_cons, heq]
        rcases hstep with hstep | hstep <;> simp [hstep]
      · exact List.mem_cons_of_mem _ (List.mem_cons_of_mem _ hmem)

/-- An extreme is null or one of the values. -/
theorem extreme_mem (direction : Direction) (values : List Value) :
    extreme direction.wanted values = .null ∨ extreme direction.wanted values ∈ values := by
  rw [extreme_eq]
  cases hpresent : presentOnly values with
  | nil => exact .inl rfl
  | cons v rest =>
      refine .inr (List.mem_of_mem_filter (p := fun v => !v.isNull) ?_)
      show _ ∈ presentOnly values
      rw [hpresent]
      exact foldl_better_mem direction v rest

variable {C : Value → Prop}

private theorem first_gives {values : List Value} (h : ∀ v ∈ values, C v) :
    Gives C (first values) := by
  cases values with
  | nil => exact .error _
  | cons v rest => exact Gives.ok_iff.mpr (h v List.mem_cons_self)

private theorem single_gives {values : List Value} (h : ∀ v ∈ values, C v) :
    Gives C (single values) := by
  unfold single
  split
  · exact .error _
  · exact Gives.ok_iff.mpr (h _ List.mem_cons_self)
  · exact .error _

/-! ## Classes of values -/

/-- A class of values that has all plain values, the lists of its values, and the members of its
rows. -/
structure IsClosed (C : Value → Prop) : Prop where
  plain : ∀ {v}, v.isPlain = true → C v
  list_iff : ∀ {items}, C (.list items) ↔ ∀ item ∈ items, C item
  member : ∀ {record name j}, C (.row record) → record.lookup name = some j → C (.ofJson j)

namespace IsClosed

variable (hC : IsClosed C)

include hC

private theorem of_plain {x : Outcome Value} (h : GivesPlain x) : Gives C x :=
  h.mono fun _ => hC.plain

private theorem cast {v : Value} (h : C v) (type : StaticType) : C (v.cast type) := by
  unfold Value.cast castNonNull
  repeat' split
  all_goals first | exact h | exact hC.plain rfl

private theorem extreme {values : List Value} (h : ∀ v ∈ values, C v) (direction : Direction) :
    C (extreme direction.wanted values) := by
  rcases extreme_mem direction values with hnull | hmem
  · rw [hnull]
    exact hC.plain rfl
  · exact h _ hmem

private theorem call {arguments : List Value} (h : ∀ v ∈ arguments, C v) (name : String) :
    Gives C (call name arguments) := by
  unfold Value.call
  split
  · exact hC.of_plain (onLength_plain _ (fun _ => rfl) _)
  · exact hC.of_plain (onLength_plain _ (fun _ => rfl) _)
  · exact hC.of_plain (onString_plain _ (fun _ => rfl) _)
  · exact hC.of_plain (onString_plain _ (fun _ => rfl) _)
  · exact hC.of_plain (onString_plain _ (fun _ => rfl) _)
  · exact hC.of_plain (onString_plain _ (fun _ => rfl) _)
  · exact hC.of_plain (abs_plain _)
  · exact Gives.ok_iff.mpr (hC.plain (concat_plain arguments))
  · exact hC.of_plain (replace_plain arguments)
  · exact Gives.ok_iff.mpr (hC.extreme h .ascending)
  · exact .error _

private theorem sum {values : List Value} (h : ∀ v ∈ values, C v) : Gives C (sum values) := by
  unfold Value.sum
  split
  · exact Gives.ok_iff.mpr (hC.plain rfl)
  · next first rest hpresent =>
      refine Gives.foldlM (fun a b => hC.of_plain (arithmetic_plain .add a b)) ?_ rest
      refine h first (List.mem_of_mem_filter (p := fun v => !v.isNull) ?_)
      show first ∈ presentOnly values
      rw [hpresent]
      exact List.mem_cons_self

private theorem average (values : List Value) : Gives C (average values) := by
  intro v hv
  rcases average_eq_ok hv with rfl | ⟨x, rfl⟩ <;> exact hC.plain rfl

private theorem sourceItems {v : Value} (h : C v) :
    Gives (fun items => ∀ item ∈ items, C item) (sourceItems v) := by
  cases v with
  | list items => exact Gives.ok_iff.mpr (hC.list_iff.mp h)
  | null => exact Gives.ok_iff.mpr fun _ hitem => nomatch hitem
  | _ => exact .mismatch _ _

end IsClosed

end Value

/-- Every item that the scope binds is of the class. -/
def Scope.LiesIn (C : Value → Prop) (scope : Scope) : Prop :=
  ∀ binding ∈ scope, C binding.2

/-- The records of the data set and the parameters are of the class. -/
structure Environment.LiesIn (C : Value → Prop) (env : Environment) : Prop where
  records : ∀ entry ∈ env.data.entities, ∀ record ∈ entry.2, C (.row record)
  parameters : ∀ binding ∈ env.parameters, C binding.2

section

variable {C : Value → Prop} {scope : Scope} {scopes : List Scope}

private theorem Scope.item_gives (h : scope.LiesIn C) (name : String) :
    Gives C (scope.item name) := by
  unfold item
  cases hlookup : scope.lookup name with
  | none => exact .error _
  | some v => exact Gives.ok_iff.mpr (h _ (Json.mem_of_lookup hlookup))

private theorem DataSet.rows_gives (hC : Value.IsClosed C) {data : DataSet}
    (h : ∀ entry ∈ data.entities, ∀ record ∈ entry.2, C (.row record)) (entity : String) :
    Gives C (data.rows entity) := by
  unfold rows records
  cases hlookup : data.entities.lookup entity with
  | none => exact .error _
  | some records =>
      refine Gives.ok_iff.mpr (hC.list_iff.mpr (List.forall_mem_map.mpr ?_))
      exact h _ (Json.mem_of_lookup hlookup)

private theorem keepTrue_gives {condition : Scope → Outcome Value}
    (h : ∀ scope ∈ scopes, scope.LiesIn C) :
    Gives (fun kept => ∀ scope ∈ kept, scope.LiesIn C) (keepTrue condition scopes) :=
  fun _ hkept scope hscope => h scope ((keepTrue_sublist hkept).subset hscope)

private theorem joinScopes_gives {name : String} {items : Scope → Outcome (List Value)}
    {condition : Scope → Outcome Value}
    (hitems : ∀ scope, scope.LiesIn C → Gives (fun items => ∀ item ∈ items, C item) (items scope))
    (h : ∀ scope ∈ scopes, scope.LiesIn C) :
    Gives (fun joined => ∀ scope ∈ joined, scope.LiesIn C)
      (joinScopes name items condition scopes) := by
  induction scopes with
  | nil => exact Gives.ok_iff.mpr h
  | cons scope rest ih =>
      obtain ⟨hscope, hrest⟩ := List.forall_mem_cons.mp h
      rw [joinScopes]
      refine (hitems scope hscope).bind fun here hhere => ?_
      have hnext : ∀ next ∈ here.map (fun item => (name, item) :: scope), Scope.LiesIn C next :=
        List.forall_mem_map.mpr fun item hitem =>
          List.forall_mem_cons.mpr ⟨hhere item hitem, hscope⟩
      refine (keepTrue_gives hnext).bind fun kept hkept => (ih hrest).bind fun joined hjoined => ?_
      exact Gives.ok_iff.mpr (List.forall_mem_append.mpr ⟨hkept, hjoined⟩)

private theorem selectRows_gives {select : Scope → Outcome Value}
    (hselect : ∀ scope, scope.LiesIn C → Gives C (select scope))
    (h : ∀ scope ∈ scopes, scope.LiesIn C) :
    Gives (fun rows => ∀ row ∈ rows, C (Row.value row)) (selectRows select scopes) := by
  intro rows hrows
  obtain ⟨hvalues, rfl⟩ := selectRows_eq_ok_iff.mp hrows
  refine List.forall_mem_map.mpr fun scope hscope => ?_
  obtain ⟨v, hv⟩ := hvalues scope hscope
  unfold rowIn
  rw [hv]
  exact hselect scope (h scope hscope) v hv

end

/-! ## Nodes and queries -/

namespace Hql

section

variable {C : Value → Prop} (hC : Value.IsClosed C) {env : Environment} {outer : Scope} {q : Query}

include hC

/-- What the aggregate makes of rows with values of the class. -/
theorem runAggregate_gives {aggregate : Option Aggregate} {rows : List Row}
    (h : ∀ row ∈ rows, C row.value) : Gives C (runAggregate env aggregate rows outer) := by
  have hvalues : ∀ v ∈ rows.map Row.value, C v := List.forall_mem_map.mpr h
  cases aggregate with
  | none => exact Gives.ok_iff.mpr (hC.list_iff.mpr hvalues)
  | some aggregate =>
      cases aggregate with
      | count | any => exact Gives.ok_iff.mpr (hC.plain rfl)
      | all | contains =>
          rw [runAggregate]
          exact Gives.bind (fun _ _ => trivial) fun _ (_ : True) =>
            Gives.pure_iff.mpr (hC.plain rfl)
      | first => exact Value.first_gives hvalues
      | single => exact Value.single_gives hvalues
      | sum => exact hC.sum hvalues
      | average => exact hC.average _
      | min => exact Gives.ok_iff.mpr (hC.extreme hvalues .ascending)
      | max => exact Gives.ok_iff.mpr (hC.extreme hvalues .descending)

/-- The rows of a query have values of the class if its parts do not leave the class. -/
theorem Query.rows_gives_of (hsource : Gives C (q.source.eval env outer))
    (hjoins : ∀ scopes : List Scope, (∀ scope ∈ scopes, scope.LiesIn C) →
      Gives (fun joined => ∀ scope ∈ joined, scope.LiesIn C) (runJoins env q.joins scopes))
    (hproject : ∀ scope, scope.LiesIn C → Gives C (q.project env scope)) (h : outer.LiesIn C) :
    Gives (fun rows => ∀ row ∈ rows, C (Row.value row)) (q.rows env outer) := by
  intro rows hrows
  obtain ⟨items, hitems, hrows⟩ := bind_eq_ok.mp hrows
  rw [selected_eq_project] at hrows
  obtain ⟨filtered, hfiltered, hrows⟩ := bind_eq_ok.mp hrows
  obtain ⟨joined, hjoined, hfiltered⟩ := bind_eq_ok.mp hfiltered
  obtain ⟨kept, hkept, hfiltered⟩ := bind_eq_ok.mp hfiltered
  obtain ⟨sorted, hsorted, hrows⟩ := bind_eq_ok.mp hrows
  have hitem := (hsource.bind fun v hv => hC.sourceItems hv) items hitems
  have hscopes := hjoins _ (List.forall_mem_map.mpr fun item hmem =>
    List.forall_mem_cons.mpr ⟨hitem item hmem, h⟩) joined hjoined
  refine selectRows_gives hproject (fun scope hscope => hscopes scope ?_) rows hrows
  have hleft := (sortScopes_perm hsorted).mem_iff.mp hscope
  exact (runFilter_sublist hkept).subset ((runFilter_sublist hfiltered).subset hleft)

/-- A query results in a value of the class if the values of its rows are of the class. -/
theorem Query.run_gives_of
    (h : Gives (fun rows => ∀ row ∈ rows, C (Row.value row)) (q.rows env outer)) :
    Gives C (q.run env outer) := by
  rw [run_eq_page]
  refine Gives.bind (fun page hpage => ?_) fun page hvalues => runAggregate_gives hC hvalues
  obtain ⟨rows, hrows, hpaged⟩ := bind_eq_ok.mp hpage
  exact fun row hrow => h rows hrows row (mem_of_paged hpaged hrow)

variable (henv : env.LiesIn C)

include henv

-- the linter does not see uses by way of the other theorems
set_option linter.unusedSectionVars false

mutual

/-- A node is evaluated to a value of the class. -/
theorem Node.eval_gives : ∀ (n : Node) {scope : Scope}, scope.LiesIn C → Gives C (n.eval env scope)
  | .constant value, scope, h => by
      cases value with
      | queryable entity =>
          rw [Node.eval]
          exact DataSet.rows_gives hC henv.records entity
      | _ =>
          simp only [Node.eval]
          exact Gives.ok_iff.mpr (hC.plain rfl)
  | .parameter name, scope, h => by
      rw [Node.eval]
      split
      · next v hlookup => exact Gives.ok_iff.mpr (henv.parameters _ (Json.mem_of_lookup hlookup))
      · exact .error _
  | .entity name, scope, h => by
      rw [Node.eval]
      exact DataSet.rows_gives hC henv.records name
  | .ident name, scope, h => by
      rw [Node.eval]
      exact Scope.item_gives h name
  | .dot target property, scope, h => by
      rw [Node.eval]
      refine (Node.eval_gives target h).bind fun v hv => ?_
      split
      · next record =>
          cases hlookup : record.lookup property with
          | none => exact Gives.pure_iff.mpr (hC.plain rfl)
          | some j => exact Gives.pure_iff.mpr (hC.member hv hlookup)
      · exact Gives.pure_iff.mpr (hC.plain rfl)
      · exact .mismatch _ _
  | .binary operator left right, scope, h => by
      rw [Node.eval]
      refine (Node.eval_gives left h).bind fun a _ => (Node.eval_gives right h).bind fun b _ => ?_
      exact hC.of_plain (Value.binary_plain operator a b)
  | .not operand, scope, h => by
      rw [Node.eval]
      exact (Node.eval_gives operand h).bind fun v _ => hC.of_plain v.not_plain
  | .negate operand, scope, h => by
      rw [Node.eval]
      exact (Node.eval_gives operand h).bind fun v _ => hC.of_plain v.negate_plain
  | .cast operand type, scope, h => by
      rw [Node.eval]
      exact (Node.eval_gives operand h).bind fun v hv => Gives.pure_iff.mpr (hC.cast hv type)
  | .choice whens otherwise, scope, h => by
      rw [Node.eval]
      refine (evalWhens_gives whens h).bind fun v hv => ?_
      cases v with
      | some v => exact Gives.pure_iff.mpr (hv v rfl)
      | none => exact evalOption_gives otherwise h
  | .coalesce left right, scope, h => by
      rw [Node.eval]
      refine (Node.eval_gives left h).bind fun v hv => ?_
      cases v.isNull with
      | true => exact Node.eval_gives right h
      | false => exact Gives.pure_iff.mpr hv
  | .isNull operand, scope, h => by
      rw [Node.eval]
      exact (Node.eval_gives operand h).bind fun v _ => Gives.pure_iff.mpr (hC.plain rfl)
  | .isNotNull operand, scope, h => by
      rw [Node.eval]
      exact (Node.eval_gives operand h).bind fun v _ => Gives.pure_iff.mpr (hC.plain rfl)
  | .function name arguments, scope, h => by
      rw [Node.eval]
      exact (evalAll_gives arguments h).bind fun vs hvs => hC.call hvs name
  | .like operand pattern escape, scope, h => by
      rw [Node.eval]
      refine (Node.eval_gives operand h).bind fun s _ => ?_
      refine (Node.eval_gives pattern h).bind fun p _ => ?_
      exact hC.of_plain (Value.like_plain escape s p)
  | .among item collection, scope, h => by
      rw [Node.eval]
      refine (Node.eval_gives item h).bind fun v _ => ?_
      refine (Node.eval_gives collection h).bind fun c hc => ?_
      refine (hC.sourceItems hc).bind fun items _ => Gives.pure_iff.mpr (hC.plain ?_)
      split <;> rfl
  | .nonempty query, scope, h => by
      rw [Node.eval]
      refine (Query.run_gives query h).bind fun v _ => ?_
      split <;> exact Gives.pure_iff.mpr (hC.plain rfl)
  | .subquery query, scope, h => by
      rw [Node.eval]
      exact Query.run_gives query h

theorem evalAll_gives : ∀ (ns : List Node) {scope : Scope}, scope.LiesIn C →
    Gives (fun vs => ∀ v ∈ vs, C v) (evalAll env ns scope)
  | [], scope, h => by
      rw [evalAll]
      exact Gives.ok_iff.mpr fun _ hv => nomatch hv
  | node :: rest, scope, h => by
      rw [evalAll]
      refine (Node.eval_gives node h).bind fun v hv => (evalAll_gives rest h).bind fun vs hvs => ?_
      exact Gives.pure_iff.mpr (List.forall_mem_cons.mpr ⟨hv, hvs⟩)

theorem evalOption_gives : ∀ (o : Option Node) {scope : Scope}, scope.LiesIn C →
    Gives C (evalOption env o scope)
  | none, scope, h => by
      rw [evalOption]
      exact Gives.ok_iff.mpr (hC.plain rfl)
  | some node, scope, h => by
      rw [evalOption]
      exact Node.eval_gives node h

theorem evalWhens_gives : ∀ (whens : List (Node × Node)) {scope : Scope}, scope.LiesIn C →
    Gives (fun o => ∀ v, o = some v → C v) (evalWhens env whens scope)
  | [], scope, h => by
      rw [evalWhens]
      exact Gives.ok_iff.mpr fun _ hv => nomatch hv
  | (condition, value) :: rest, scope, h => by
      rw [evalWhens]
      refine (Node.eval_gives condition h).bind fun c _ => ?_
      cases c.isTrue with
      | true =>
          refine (Node.eval_gives value h).bind fun v hv => Gives.pure_iff.mpr fun w hw => ?_
          exact Option.some.inj hw ▸ hv
      | false => exact evalWhens_gives rest h

private theorem runJoins_gives : ∀ (joins : List Join) {scopes : List Scope},
    (∀ scope ∈ scopes, scope.LiesIn C) →
      Gives (fun joined => ∀ scope ∈ joined, scope.LiesIn C) (runJoins env joins scopes)
  | [], scopes, h => by
      rw [runJoins]
      exact Gives.ok_iff.mpr h
  | ⟨source, name, on⟩ :: rest, scopes, h => by
      rw [runJoins]
      refine Gives.bind (joinScopes_gives (fun scope hscope => ?_) h) fun joined hjoined =>
        runJoins_gives rest hjoined
      exact (Node.eval_gives source hscope).bind fun v hv => hC.sourceItems hv

/-- A query results in a value of the class. -/
theorem Query.run_gives : ∀ (q : Query) {outer : Scope}, outer.LiesIn C → Gives C (q.run env outer)
  | ⟨source, name, joins, filter, having, order, select, distinct, skip, take, aggregate⟩,
      outer, h => by
      refine Query.run_gives_of hC (Query.rows_gives_of hC (Node.eval_gives source h)
        (fun scopes hscopes => runJoins_gives joins hscopes) (fun scope hscope => ?_) h)
      cases select with
      | some node => exact Node.eval_gives node hscope
      | none => exact Scope.item_gives hscope name

end

/-- The rows of a query have values of the class. -/
theorem Query.rows_gives (q : Query) (h : outer.LiesIn C) :
    Gives (fun rows => ∀ row ∈ rows, C (Row.value row)) (q.rows env outer) := by
  refine rows_gives_of hC (Node.eval_gives hC henv q.source h)
    (fun scopes hscopes => runJoins_gives hC henv q.joins hscopes) (fun scope hscope => ?_) h
  unfold project
  cases q.select with
  | some node => exact Node.eval_gives hC henv node hscope
  | none => exact Scope.item_gives hscope q.name

end

end Hql

end ObjectQuery
