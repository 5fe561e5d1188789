import Mathlib.Data.List.Forall2
import ObjectQuery.Proofs.Engine.Scoping
import ObjectQuery.Proofs.Method.Registry

/-!
# Names that a query leaves free

A name in a query is free unless a source of the query, or of a query around
it, has bound it where it is used. The result of a query depends on the scope
it runs in by way of its free names only: two scopes in which they stand for
the same items, or are unbound alike, give the same result or the same error.

Two runs in such scopes go side by side. After every clause both have as many
scopes, and those at the same place agree on whatever the rest of the query
may still look up. That is the invariant `Agree`, and binding one more name in
both scopes takes that name off the list of those on which the scopes around
have to agree.

## Main definitions

* `Scope.Agree` — two scopes are alike as to some names.
* `Hql.Node.freeNames`, `Hql.Query.freeNames` — the names to be found around.
* `Matched` — two outcomes with related results or the same error.

## Main results

* `eval_eq_of_freeNames` — the scope matters by way of the free names only.
-/

namespace ObjectQuery

/-! ## Scopes that agree -/

/-- Each of the names stands for the same item in both scopes, or is bound in neither. -/
def Scope.Agree (names : List String) (s t : Scope) : Prop :=
  ∀ name ∈ names, s.lookup name = t.lookup name

namespace Scope.Agree

variable {names names' : List String} {s t : Scope}

private theorem append_iff : Agree (names ++ names') s t ↔ Agree names s t ∧ Agree names' s t :=
  List.forall_mem_append

private theorem item_eq (h : Agree names s t) {name : String} (hname : name ∈ names) :
    s.item name = t.item name := by
  rw [item, item, h name hname]

/-- Scopes that bind one more name to the same item need not have agreed on it before. -/
theorem cons {name : String} (h : Agree (names.filter (· ≠ name)) s t) (item : Value) :
    Agree names ((name, item) :: s) ((name, item) :: t) := by
  intro other hother
  rw [lookup_cons_ite, lookup_cons_ite]
  by_cases heq : other = name
  · rw [if_pos heq, if_pos heq]
  · rw [if_neg heq, if_neg heq]
    exact h other (List.mem_filter.mpr ⟨hother, decide_eq_true heq⟩)

private theorem cons_all {name : String} (h : Agree (names.filter (· ≠ name)) s t)
    (items : List Value) :
    List.Forall₂ (Agree names) (items.map fun item => (name, item) :: s)
      (items.map fun item => (name, item) :: t) := by
  rw [List.forall₂_map_left_iff, List.forall₂_map_right_iff, List.forall₂_same]
  exact fun item _ => h.cons item

/-- A binding that is shadowed, or whose name is not asked for, does not matter. -/
theorem of_unseen {front back : Scope} {name : String} (item : Value)
    (h : name ∈ front.names ∨ name ∉ names) :
    Agree names (front ++ (name, item) :: back) (front ++ back) := by
  intro other hother
  rw [List.lookup_append, List.lookup_append, lookup_cons_ite]
  by_cases heq : other = name
  · -- the name is asked for, so a binding in front hides this one
    subst heq
    obtain ⟨entry, hentry, hname⟩ := List.mem_map.mp (h.resolve_right fun hnot => hnot hother)
    cases hfront : front.lookup other with
    | none =>
        have hne := List.lookup_eq_none_iff.mp hfront entry hentry
        exact absurd hname.symm (bne_iff_ne.mp hne)
    | some v => rfl
  · rw [if_neg heq]

/-- The order of bindings of different names does not matter. -/
theorem of_swap {front back : Scope} {a b : String} (x y : Value) (h : a ≠ b) :
    Agree names (front ++ (a, x) :: (b, y) :: back) (front ++ (b, y) :: (a, x) :: back) := by
  intro other _
  rw [List.lookup_append, List.lookup_append]
  simp only [lookup_cons_ite]
  by_cases ha : other = a
  · rw [if_pos ha, if_pos ha, if_neg (ha ▸ h)]
  · rw [if_neg ha, if_neg ha]

end Scope.Agree

/-! ## Outcomes side by side -/

/-- Two outcomes with related results, or with the same error. -/
inductive Matched {α β : Type} (R : α → β → Prop) : Outcome α → Outcome β → Prop
  | ok {a : α} {b : β} : R a b → Matched R (.ok a) (.ok b)
  | error (e : EvalError) : Matched R (.error e) (.error e)

namespace Matched

variable {α β γ δ : Type} {R : α → β → Prop} {S : γ → δ → Prop}

theorem mono {R' : α → β → Prop} {x : Outcome α} {y : Outcome β} (h : Matched R x y)
    (hR : ∀ a b, R a b → R' a b) : Matched R' x y := by
  cases h with
  | ok hab => exact .ok (hR _ _ hab)
  | error e => exact .error e

theorem bind {x : Outcome α} {y : Outcome β} {f : α → Outcome γ} {g : β → Outcome δ}
    (h : Matched R x y) (hfg : ∀ a b, R a b → Matched S (f a) (g b)) :
    Matched S (x >>= f) (y >>= g) := by
  cases h with
  | ok hab => exact hfg _ _ hab
  | error e => exact .error e

/-- The same outcome goes on in two ways. -/
theorem bind_same {x : Outcome α} {f : α → Outcome γ} {g : α → Outcome δ}
    (h : ∀ a, Matched S (f a) (g a)) : Matched S (x >>= f) (x >>= g) := by
  cases x with
  | ok a => exact h a
  | error e => exact .error e

theorem mapM {f : α → Outcome γ} {g : β → Outcome δ} {as : List α} {bs : List β}
    (h : List.Forall₂ R as bs) (hfg : ∀ a b, R a b → Matched S (f a) (g b)) :
    Matched (List.Forall₂ S) (as.mapM f) (bs.mapM g) := by
  induction h with
  | nil => exact .ok .nil
  | cons hhead _ ih =>
      rw [List.mapM_cons, List.mapM_cons]
      refine (hfg _ _ hhead).bind fun c d hcd => ih.bind fun cs ds hrest => ?_
      exact .ok (.cons hcd hrest)

/-- Outcomes go on in the same way if related results do. -/
theorem bind_eq {x : Outcome α} {y : Outcome β} {f : α → Outcome γ} {g : β → Outcome γ}
    (h : Matched R x y) (hfg : ∀ a b, R a b → f a = g b) : (x >>= f) = (y >>= g) := by
  cases h with
  | ok hab => exact hfg _ _ hab
  | error e => rfl

end Matched

/-! ## Steps of a query -/

section

variable {P Q : Scope → Scope → Prop} {scopes scopes' : List Scope}

private theorem keepTrue_matched {condition : Scope → Outcome Value}
    (hcondition : ∀ s t, P s t → condition s = condition t)
    (h : List.Forall₂ P scopes scopes') :
    Matched (List.Forall₂ P) (keepTrue condition scopes) (keepTrue condition scopes') := by
  induction h with
  | nil => exact .ok .nil
  | cons hhead _ ih =>
      rw [keepTrue, keepTrue, hcondition _ _ hhead]
      refine .bind_same fun v => ih.bind fun kept kept' hkept => ?_
      cases v.isTrue with
      | true => exact .ok (.cons hhead hkept)
      | false => exact .ok hkept

private theorem joinScopes_matched {name : String} {items : Scope → Outcome (List Value)}
    {condition : Scope → Outcome Value} (hitems : ∀ s t, P s t → items s = items t)
    (hnext : ∀ s t item, P s t → Q ((name, item) :: s) ((name, item) :: t))
    (hcondition : ∀ s t, Q s t → condition s = condition t)
    (h : List.Forall₂ P scopes scopes') :
    Matched (List.Forall₂ Q) (joinScopes name items condition scopes)
      (joinScopes name items condition scopes') := by
  induction h with
  | nil => exact .ok .nil
  | @cons s t _ _ hhead _ ih =>
      rw [joinScopes, joinScopes, hitems s t hhead]
      refine .bind_same fun here => ?_
      have hhere : List.Forall₂ Q (here.map fun item => (name, item) :: s)
          (here.map fun item => (name, item) :: t) := by
        rw [List.forall₂_map_left_iff, List.forall₂_map_right_iff, List.forall₂_same]
        exact fun item _ => hnext s t item hhead
      refine (keepTrue_matched hcondition hhere).bind fun kept kept' hkept => ?_
      exact ih.bind fun joined joined' hjoined => .ok (List.rel_append hkept hjoined)

/-- Sorting by a comparison that sees the keys only keeps entries with the same keys at the
same place. -/
theorem forall₂_mergeSort {κ α β : Type} {R : α → β → Prop} (before : κ → κ → Bool)
    {as : List (κ × α)} {bs : List (κ × β)}
    (h : List.Forall₂ (fun a b => a.1 = b.1 ∧ R a.2 b.2) as bs) :
    List.Forall₂ (fun a b => a.1 = b.1 ∧ R a.2 b.2) (as.mergeSort fun a a' => before a.1 a'.1)
      (bs.mergeSort fun b b' => before b.1 b'.1) := by
  -- both lists are images of one list, in which an entry of each stands beside the key
  have hzipped : ∃ zipped : List (κ × α × β), (∀ entry ∈ zipped, R entry.2.1 entry.2.2) ∧
      as = zipped.map (fun entry => (entry.1, entry.2.1)) ∧
      bs = zipped.map (fun entry => (entry.1, entry.2.2)) := by
    induction h with
    | nil => exact ⟨[], by simp, rfl, rfl⟩
    | @cons a b _ _ hhead _ ih =>
        obtain ⟨zipped, hzipped, rfl, rfl⟩ := ih
        obtain ⟨key, a⟩ := a
        obtain ⟨key', b⟩ := b
        obtain ⟨rfl, hab⟩ : key = key' ∧ R a b := hhead
        exact ⟨(key, a, b) :: zipped, List.forall_mem_cons.mpr ⟨hab, hzipped⟩, rfl, rfl⟩
  obtain ⟨zipped, hzipped, rfl, rfl⟩ := hzipped
  rw [← List.map_mergeSort (r := fun entry entry' => before entry.1 entry'.1) (by simp),
    ← List.map_mergeSort (r := fun entry entry' => before entry.1 entry'.1) (by simp),
    List.forall₂_map_left_iff, List.forall₂_map_right_iff, List.forall₂_same]
  exact fun entry hentry => ⟨rfl, hzipped entry (List.mem_mergeSort.mp hentry)⟩

private theorem sortScopes_matched {keys : Scope → Outcome (List Value)}
    (directions : List Direction)
    (hkeys : ∀ s t, P s t → keys s = keys t) (h : List.Forall₂ P scopes scopes') :
    Matched (List.Forall₂ P) (sortScopes directions keys scopes)
      (sortScopes directions keys scopes') := by
  unfold sortScopes
  refine Matched.bind (R := List.Forall₂ fun a b => a.1 = b.1 ∧ P a.2 b.2) ?_ ?_
  · refine Matched.mapM h fun s t hst => ?_
    rw [hkeys s t hst]
    exact .bind_same fun ks => .ok ⟨rfl, hst⟩
  · intro keyed keyed' hkeyed
    refine .ok ?_
    rw [List.forall₂_map_left_iff, List.forall₂_map_right_iff]
    have hsorted := forall₂_mergeSort
      (fun ks ks' => Value.compareKeys directions ks ks' != .gt) hkeyed
    exact hsorted.imp fun _ _ hentry => hentry.2

/-- Two rows with the same value, from scopes that are related. -/
def Row.Matched (P : Scope → Scope → Prop) (a b : Row) : Prop :=
  a.value = b.value ∧ P a.scope b.scope

private theorem selectRows_matched {select : Scope → Outcome Value}
    (hselect : ∀ s t, P s t → select s = select t) (h : List.Forall₂ P scopes scopes') :
    Matched (List.Forall₂ (Row.Matched P)) (selectRows select scopes)
      (selectRows select scopes') := by
  refine Matched.mapM h fun s t hst => ?_
  rw [hselect s t hst]
  exact .bind_same fun v => .ok ⟨rfl, hst⟩

variable {rows rows' : List Row}

private theorem values_eq (h : List.Forall₂ (Row.Matched P) rows rows') :
    rows.map Row.value = rows'.map Row.value := by
  induction h with
  | nil => rfl
  | cons hhead _ ih => rw [List.map_cons, List.map_cons, hhead.1, ih]

private theorem distinctBy_matched (seen : List Value)
    (h : List.Forall₂ (Row.Matched P) rows rows') :
    List.Forall₂ (Row.Matched P) (Value.distinctBy Row.value seen rows)
      (Value.distinctBy Row.value seen rows') := by
  induction h generalizing seen with
  | nil => exact .nil
  | @cons row row' _ _ hhead _ ih =>
      rw [Value.distinctBy, Value.distinctBy, hhead.1]
      split
      · exact ih seen
      · exact .cons hhead (ih _)

private theorem allTrue_eq {condition : Scope → Outcome Value}
    (hcondition : ∀ s t, P s t → condition s = condition t)
    (h : List.Forall₂ (Row.Matched P) rows rows') :
    allTrue condition rows = allTrue condition rows' := by
  induction h with
  | nil => rfl
  | cons hhead _ ih => rw [allTrue, allTrue, hcondition _ _ hhead.2, ih]

end

namespace Hql

/-! ## Free names -/

mutual

/-- The names that a node uses and no query in it has bound. -/
def Node.freeNames : Node → List String
  | .constant _ | .parameter _ | .entity _ => []
  | .ident name => [name]
  | .dot operand _ | .not operand | .negate operand | .cast operand _ | .isNull operand
  | .isNotNull operand => operand.freeNames
  | .binary _ left right | .coalesce left right | .like left right _ | .among left right =>
    left.freeNames ++ right.freeNames
  | .choice whens otherwise => whensFreeNames whens ++ optionFreeNames otherwise
  | .function _ arguments => allFreeNames arguments
  | .nonempty query | .subquery query => query.freeNames

/-- The free names of several nodes. -/
def allFreeNames : List Node → List String
  | [] => []
  | node :: rest => node.freeNames ++ allFreeNames rest

/-- The free names of a node that may be absent. -/
def optionFreeNames : Option Node → List String
  | none => []
  | some node => node.freeNames

/-- The free names of conditions and of the values beside them. -/
def whensFreeNames : List (Node × Node) → List String
  | [] => []
  | (condition, value) :: rest =>
    condition.freeNames ++ (value.freeNames ++ whensFreeNames rest)

/-- The free names of joins and of the clauses after them, which use the names `later`. A
join binds its name for its condition and for all that comes after it. -/
def joinsFreeNames (later : List String) : List Join → List String
  | [] => later
  | ⟨source, name, on⟩ :: rest =>
    source.freeNames ++ (on.freeNames ++ joinsFreeNames later rest).filter (· ≠ name)

/-- The free names of ordering keys. -/
def orderFreeNames : List OrderKey → List String
  | [] => []
  | ⟨key, _⟩ :: rest => key.freeNames ++ orderFreeNames rest

/-- The names that a projection uses, or that of the item selected without one. -/
def projectionFreeNames (name : String) : Option Node → List String
  | none => [name]
  | some node => node.freeNames

/-- The names that an aggregate uses in the rows of its query. -/
def testFreeNames : Option Aggregate → List String
  | some (.all predicate) => predicate.freeNames
  | _ => []

/-- The names that an aggregate uses outside of its query. -/
def soughtFreeNames : Option Aggregate → List String
  | some (.contains item) => item.freeNames
  | _ => []

/-- The names that a query uses and has not bound. The source, the numbers of rows to skip
and to take and the item whose presence is tested belong to the scope around it. -/
def Query.freeNames : Query → List String
  | ⟨source, name, joins, filter, having, order, select, _, skip, take, aggregate⟩ =>
    source.freeNames ++
      ((joinsFreeNames
          (optionFreeNames filter ++ (optionFreeNames having ++ (orderFreeNames order ++
            (projectionFreeNames name select ++ testFreeNames aggregate)))) joins).filter
          (· ≠ name) ++
        (optionFreeNames skip ++ (optionFreeNames take ++ soughtFreeNames aggregate)))

end

/-! ## Runs in scopes that agree -/

section

variable {env : Environment} {s t : Scope}

open Scope.Agree (append_iff)

mutual

theorem Node.eval_eq : ∀ (n : Node) {s t : Scope}, Scope.Agree n.freeNames s t →
    n.eval env s = n.eval env t
  | .constant value, s, t, h => by
      cases value with
      | queryable entity => rw [Node.eval, Node.eval]
      | _ => simp [Node.eval]
  | .parameter name, s, t, h => by
      rw [Node.eval, Node.eval]
  | .entity name, s, t, h => by
      rw [Node.eval, Node.eval]
  | .ident name, s, t, h => by
      rw [Node.eval, Node.eval]
      exact h.item_eq (List.mem_singleton_self name)
  | .dot operand property, s, t, h => by
      rw [Node.eval, Node.eval, Node.eval_eq operand h]
  | .not operand, s, t, h => by
      rw [Node.eval, Node.eval, Node.eval_eq operand h]
  | .negate operand, s, t, h => by
      rw [Node.eval, Node.eval, Node.eval_eq operand h]
  | .cast operand type, s, t, h => by
      rw [Node.eval, Node.eval, Node.eval_eq operand h]
  | .isNull operand, s, t, h => by
      rw [Node.eval, Node.eval, Node.eval_eq operand h]
  | .isNotNull operand, s, t, h => by
      rw [Node.eval, Node.eval, Node.eval_eq operand h]
  | .binary operator left right, s, t, h => by
      obtain ⟨hleft, hright⟩ := append_iff.mp h
      rw [Node.eval, Node.eval, Node.eval_eq left hleft, Node.eval_eq right hright]
  | .coalesce left right, s, t, h => by
      obtain ⟨hleft, hright⟩ := append_iff.mp h
      rw [Node.eval, Node.eval, Node.eval_eq left hleft, Node.eval_eq right hright]
  | .like operand pattern escape, s, t, h => by
      obtain ⟨hoperand, hpattern⟩ := append_iff.mp h
      rw [Node.eval, Node.eval, Node.eval_eq operand hoperand, Node.eval_eq pattern hpattern]
  | .among item collection, s, t, h => by
      obtain ⟨hitem, hcollection⟩ := append_iff.mp h
      rw [Node.eval, Node.eval, Node.eval_eq item hitem, Node.eval_eq collection hcollection]
  | .choice whens otherwise, s, t, h => by
      obtain ⟨hwhens, hotherwise⟩ := append_iff.mp h
      rw [Node.eval, Node.eval, evalWhens_eq whens hwhens, evalOption_eq otherwise hotherwise]
  | .function name arguments, s, t, h => by
      rw [Node.eval, Node.eval, evalAll_eq arguments h]
  | .nonempty query, s, t, h => by
      rw [Node.eval, Node.eval, Query.run_eq_of_agree query h]
  | .subquery query, s, t, h => by
      rw [Node.eval, Node.eval, Query.run_eq_of_agree query h]

theorem evalAll_eq : ∀ (ns : List Node) {s t : Scope}, Scope.Agree (allFreeNames ns) s t →
    evalAll env ns s = evalAll env ns t
  | [], s, t, h => by
      rw [evalAll, evalAll]
  | node :: rest, s, t, h => by
      obtain ⟨hnode, hrest⟩ := append_iff.mp h
      rw [evalAll, evalAll, Node.eval_eq node hnode, evalAll_eq rest hrest]

theorem evalOption_eq : ∀ (o : Option Node) {s t : Scope}, Scope.Agree (optionFreeNames o) s t →
    evalOption env o s = evalOption env o t
  | none, s, t, h => by
      rw [evalOption, evalOption]
  | some node, s, t, h => by
      rw [evalOption, evalOption, Node.eval_eq node h]

theorem evalWhens_eq : ∀ (whens : List (Node × Node)) {s t : Scope},
    Scope.Agree (whensFreeNames whens) s t → evalWhens env whens s = evalWhens env whens t
  | [], s, t, h => by
      rw [evalWhens, evalWhens]
  | (condition, value) :: rest, s, t, h => by
      obtain ⟨hcondition, hmore⟩ := append_iff.mp h
      obtain ⟨hvalue, hrest⟩ := append_iff.mp hmore
      rw [evalWhens, evalWhens, Node.eval_eq condition hcondition, Node.eval_eq value hvalue,
        evalWhens_eq rest hrest]

theorem runJoins_matched : ∀ (joins : List Join) {later : List String}
    {scopes scopes' : List Scope},
    List.Forall₂ (Scope.Agree (joinsFreeNames later joins)) scopes scopes' →
      Matched (List.Forall₂ (Scope.Agree later)) (runJoins env joins scopes)
        (runJoins env joins scopes')
  | [], later, scopes, scopes', h => by
      rw [runJoins, runJoins]
      exact .ok h
  | ⟨source, name, on⟩ :: rest, later, scopes, scopes', h => by
      rw [runJoins, runJoins]
      refine Matched.bind
        (R := List.Forall₂ (Scope.Agree (on.freeNames ++ joinsFreeNames later rest)))
        ?_ fun joined joined' hjoined => ?_
      · refine joinScopes_matched (fun s t hst => ?_) (fun s t item hst => ?_)
          (fun s t hst => ?_) h
        · rw [Node.eval_eq source (append_iff.mp hst).1]
        · exact .cons (append_iff.mp hst).2 item
        · exact Node.eval_eq on (append_iff.mp hst).1
      · exact runJoins_matched rest (hjoined.imp fun _ _ hst => (append_iff.mp hst).2)

theorem runFilter_matched : ∀ (filter : Option Node) {later : List String}
    {scopes scopes' : List Scope},
    List.Forall₂ (Scope.Agree (optionFreeNames filter ++ later)) scopes scopes' →
      Matched (List.Forall₂ (Scope.Agree later)) (runFilter env filter scopes)
        (runFilter env filter scopes')
  | none, later, scopes, scopes', h => by
      rw [runFilter, runFilter]
      exact .ok h
  | some condition, later, scopes, scopes', h => by
      rw [runFilter, runFilter]
      refine (keepTrue_matched (fun s t hst => ?_) h).mono fun kept kept' hkept => ?_
      · exact Node.eval_eq condition (append_iff.mp hst).1
      · exact hkept.imp fun _ _ hst => (append_iff.mp hst).2

theorem evalKeys_eq : ∀ (order : List OrderKey) {s t : Scope},
    Scope.Agree (orderFreeNames order) s t → evalKeys env order s = evalKeys env order t
  | [], s, t, h => by
      rw [evalKeys, evalKeys]
  | ⟨key, direction⟩ :: rest, s, t, h => by
      obtain ⟨hkey, hrest⟩ := append_iff.mp h
      rw [evalKeys, evalKeys, Node.eval_eq key hkey, evalKeys_eq rest hrest]

theorem evalCount_eq : ∀ (count : Option Node) {s t : Scope},
    Scope.Agree (optionFreeNames count) s t → evalCount env count s = evalCount env count t
  | none, s, t, h => by
      rw [evalCount, evalCount]
  | some node, s, t, h => by
      rw [evalCount, evalCount, Node.eval_eq node h]

theorem runAggregate_eq : ∀ (aggregate : Option Aggregate) {rows rows' : List Row} {s t : Scope},
    List.Forall₂ (Row.Matched (Scope.Agree (testFreeNames aggregate))) rows rows' →
      Scope.Agree (soughtFreeNames aggregate) s t →
        runAggregate env aggregate rows s = runAggregate env aggregate rows' t
  | some (.all predicate), rows, rows', s, t, hrows, h => by
      rw [runAggregate, runAggregate]
      rw [allTrue_eq (fun s t hst => Node.eval_eq predicate hst) hrows]
  | some (.contains item), rows, rows', s, t, hrows, h => by
      rw [runAggregate, runAggregate, Node.eval_eq item h, values_eq hrows]
  | none, rows, rows', s, t, hrows, h | some .first, rows, rows', s, t, hrows, h
  | some .single, rows, rows', s, t, hrows, h | some .sum, rows, rows', s, t, hrows, h
  | some .average, rows, rows', s, t, hrows, h | some .min, rows, rows', s, t, hrows, h
  | some .max, rows, rows', s, t, hrows, h => by
      simp only [runAggregate, values_eq hrows]
  | some .count, rows, rows', s, t, hrows, h => by
      rw [runAggregate, runAggregate, hrows.length_eq]
  | some .any, rows, rows', s, t, hrows, h => by
      cases hrows <;> rfl

/-- A query runs alike in scopes that agree on its free names. -/
theorem Query.run_eq_of_agree : ∀ (q : Query) {s t : Scope}, Scope.Agree q.freeNames s t →
    q.run env s = q.run env t
  | ⟨source, name, joins, filter, having, order, select, distinct, skip, take, aggregate⟩,
      s, t, h => by
      obtain ⟨hsource, hmore⟩ := append_iff.mp h
      obtain ⟨hinside, houtside⟩ := append_iff.mp hmore
      obtain ⟨hskip, hpaged⟩ := append_iff.mp houtside
      obtain ⟨htake, hsought⟩ := append_iff.mp hpaged
      rw [Query.run_eq, Query.run_eq]
      dsimp only
      rw [Node.eval_eq source hsource]
      congr 1
      funext items
      refine Matched.bind_eq
        (R := List.Forall₂ (Row.Matched (Scope.Agree (testFreeNames aggregate))))
        ?_ fun rows rows' hrows => ?_
      · unfold Query.selected
        refine (runJoins_matched joins (hinside.cons_all items)).bind
          fun scopes scopes' hscopes => ?_
        refine (runFilter_matched filter hscopes).bind fun scopes scopes' hscopes => ?_
        refine (runFilter_matched having hscopes).bind fun scopes scopes' hscopes => ?_
        refine (sortScopes_matched _ (fun s t hst => ?_) hscopes).bind
          fun scopes scopes' hscopes => ?_
        · exact evalKeys_eq order (append_iff.mp hst).1
        refine (selectRows_matched (fun s t hst => ?_) hscopes).mono fun rows rows' hrows => ?_
        · have hprojection := (append_iff.mp (append_iff.mp hst).2).1
          cases select with
          | none => exact hprojection.item_eq (List.mem_singleton_self name)
          | some node => exact Node.eval_eq node hprojection
        · refine hrows.imp fun row row' hrow => ⟨hrow.1, ?_⟩
          exact (append_iff.mp (append_iff.mp hrow.2).2).2
      · unfold Query.finish Query.distinctRows
        dsimp only
        have hdistinct : List.Forall₂ (Row.Matched (Scope.Agree (testFreeNames aggregate)))
            (if distinct then Value.distinctBy Row.value [] rows else rows)
            (if distinct then Value.distinctBy Row.value [] rows' else rows') := by
          cases distinct with
          | true => exact distinctBy_matched [] hrows
          | false => exact hrows
        rw [evalCount_eq skip hskip, evalCount_eq take htake]
        congr 1
        funext skipped
        congr 1
        funext taken
        have hdropped := List.forall₂_drop (skipped.getD 0) hdistinct
        rw [hdropped.length_eq]
        exact runAggregate_eq aggregate (List.forall₂_take _ hdropped) hsought

end

end

/-- The result of a node or a query, be it a value or an error, is the same in any two scopes
that agree on its free names. Scopes agree on any names if they differ in a binding that is
shadowed or asked for by none of the names, or in the order of two bindings of different
names. -/
theorem eval_eq_of_freeNames (env : Environment) :
    (∀ (n : Node) (s t : Scope), Scope.Agree n.freeNames s t → n.eval env s = n.eval env t) ∧
    (∀ (q : Query) (s t : Scope), Scope.Agree q.freeNames s t → q.run env s = q.run env t) ∧
    (∀ (names : List String) (front back : Scope) (name : String) (item : Value),
      name ∈ front.names ∨ name ∉ names →
        Scope.Agree names (front ++ (name, item) :: back) (front ++ back)) ∧
    ∀ (names : List String) (front back : Scope) (a b : String) (x y : Value), a ≠ b →
      Scope.Agree names (front ++ (a, x) :: (b, y) :: back)
        (front ++ (b, y) :: (a, x) :: back) :=
  ⟨fun n _ _ h => n.eval_eq h, fun q _ _ h => q.run_eq_of_agree h,
    fun _ _ _ _ item h => .of_unseen item h, fun _ _ _ _ _ x y h => .of_swap x y h⟩

/-- The prices of the lines of an order that are above a limit, as many as the order says. The
lines go by the name of the order, which is still the order in the source and behind `take`. -/
def pricesAbove : Query :=
  { Query.ofSource (.dot (.ident "o") "Lines") "o" with
    filter := some (.binary .greaterThan (.dot (.ident "o") "Price") (.ident "limit"))
    select := some (.dot (.ident "o") "Price")
    take := some (.dot (.ident "o") "Shown") }

/-- An order with three lines, two of which are shown. -/
def orderOfThree : Value :=
  .row [("Lines", .array [.object [("Price", .integer 7)], .object [("Price", .integer 2)],
    .object [("Price", .integer 9)]]), ("Shown", .integer 2)]

/-- Neither an item of another name, nor an order hidden by the nearer one, nor the order of
the bindings matters. Where the limit is not bound, both scopes give that error. -/
theorem pricesAbove_run (env : Environment) :
    pricesAbove.freeNames = ["o", "limit", "o"] ∧
      pricesAbove.run env [("o", orderOfThree), ("limit", .integer 5)] =
        .ok (.list [.integer 7, .integer 9]) ∧
      pricesAbove.run env [("limit", .integer 5), ("x", .null), ("o", orderOfThree),
        ("o", .null)] = .ok (.list [.integer 7, .integer 9]) ∧
      (Node.subquery pricesAbove).eval env [("x", .null), ("o", orderOfThree)] =
        .error (.unboundName "limit") := by
  have hfree : pricesAbove.freeNames = ["o", "limit", "o"] := by decide
  obtain ⟨hnode, hquery, -, -⟩ := eval_eq_of_freeNames env
  have hrun : pricesAbove.run env [("o", orderOfThree), ("limit", .integer 5)] =
      .ok (.list [.integer 7, .integer 9]) := by
    rw [Query.run_eq]
    simp only [Query.selected, pricesAbove, Query.ofSource, sortScopes_nil]
    rfl
  have hunbound : (Node.subquery pricesAbove).eval env [("o", orderOfThree)] =
      .error (.unboundName "limit") := by
    rw [Node.eval, Query.run_eq]
    simp only [Query.selected, pricesAbove, Query.ofSource, sortScopes_nil]
    rfl
  refine ⟨hfree, hrun, ?_, ?_⟩
  · rw [← hrun]
    apply hquery
    rw [hfree]
    simp [Scope.Agree, lookup_cons_ite]
  · rw [← hunbound]
    apply hnode
    show Scope.Agree pricesAbove.freeNames _ _
    rw [hfree]
    simp [Scope.Agree, lookup_cons_ite]

end Hql

end ObjectQuery
