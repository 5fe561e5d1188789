import ObjectQuery.Proofs.Lowering.Existence
import ObjectQuery.Proofs.Value.SortCompare

/-!
# Membership

Whether an item is among several elements can be asked in three ways: by a
test of membership, by the aggregate that looks for an item, and by a
disjunction that equates the item with one element after the other. Equality with
null is unknown, and so is a disjunction without a true side and with an unknown
one.

A filter cannot tell the three apart, since they are true in the same cases. They
differ where nothing is found. The aggregate then is false in any case. The test
of membership is unknown if the item is null, whatever the elements are, and
otherwise false. The disjunction is unknown if the item or an element is null, but
of no elements it is false whatever the item is.

## Main definitions

* `Value.eitherTrue` — the disjunction of truth values, known or not.
* `Hql.Node.disjunction` — an item equated with one element after the other.

## Main results

* `Value.foldl_eitherTrue` — what a disjunction of several truth values says.
* `Hql.Node.membership_eval` — when the three ways give one value.
-/

namespace ObjectQuery

/-! ## Equality -/

namespace Value

/-- Whether a value is neither a row nor a list. -/
def isPlain : Value → Bool
  | .row _ | .list _ => false
  | _ => true

variable {item element : Value} {elements : List Value}

private theorem equals?_comm (h : element.isPlain = true) (item : Value) :
    element.equals? item = item.equals? element := by
  cases element <;> cases item <;>
    first
    | rfl
    | exact congrArg some BEq.comm
    | exact congrArg some (Decimal.beq_comm _ _)
    | cases h

private theorem equals?_eq_none_iff :
    item.equals? element = none ↔ item.isNull = true ∨ element.isNull = true := by
  rw [← Bool.or_eq_true]
  unfold equals?
  split
  · next h => exact iff_of_true rfl h
  · next h =>
      refine iff_of_false ?_ h
      split
      · nofun
      · split <;> nofun

/-- Elements do not equal null. -/
theorem isAmong_of_isNull (h : item.isNull = true) : item.isAmong elements = false := by
  have hunknown : ∀ element : Value, element.equals? item = none := fun element =>
    equals?_eq_none_iff.mpr (.inr h)
  simp [isAmong, hunknown]

/-! ## Disjunctions of truth values -/

/-- The disjunction of two truth values, either of which may be unknown. -/
def eitherTrue (a b : Option Bool) : Option Bool :=
  if a = some true ∨ b = some true then some true
  else if a = none ∨ b = none then none
  else some false

private theorem connective_or (a b : Option Bool) :
    connective .or true (ofTruth a) (ofTruth b) = .ok (ofTruth (eitherTrue a b)) := by
  rcases a with _ | _ | _ <;> rcases b with _ | _ | _ <;> rfl

/-- A disjunction is true if one side is, and otherwise unknown if one side is. -/
theorem foldl_eitherTrue (truth : Option Bool) (truths : List (Option Bool)) :
    truths.foldl eitherTrue truth =
      if some true ∈ truth :: truths then some true
      else if none ∈ truth :: truths then none
      else some false := by
  induction truths generalizing truth with
  | nil => rcases truth with _ | _ | _ <;> rfl
  | cons next rest ih =>
      rw [List.foldl_cons, ih]
      rcases truth with _ | _ | _ <;> rcases next with _ | _ | _ <;> simp [eitherTrue]

/-- A disjunction of equalities is true if an element equals the item. Otherwise it is unknown
if an element is null, or if the item is and there are elements. -/
theorem foldl_equals? (h : ∀ element ∈ elements, element.isPlain = true) :
    (elements.map item.equals?).foldl eitherTrue (some false) =
      if item.isAmong elements then some true
      else if item.isNull && !elements.isEmpty || elements.any isNull then none
      else some false := by
  have htrue : some true ∈ some false :: elements.map item.equals? ↔
      item.isAmong elements = true := by
    simp only [isAmong, List.any_eq_true, beq_iff_eq, List.mem_cons, Option.some.injEq,
      Bool.true_eq_false, false_or, List.mem_map]
    exact exists_congr fun element => and_congr_right fun helement => by
      rw [equals?_comm (h element helement)]
  have hunknown : none ∈ some false :: elements.map item.equals? ↔
      (item.isNull && !elements.isEmpty || elements.any isNull) = true := by
    simp only [List.mem_cons, reduceCtorEq, false_or, List.mem_map, equals?_eq_none_iff]
    cases item.isNull with
    | false => simp
    | true => cases elements <;> simp
  rw [foldl_eitherTrue]
  simp only [htrue, hunknown]

end Value

namespace Hql

variable {env : Environment} {scope : Scope} {v : Value} {vs : List Value}

/-- A query with nothing but a source lists the items of the source. -/
theorem Query.ofSource_run {source : Node} (name : String)
    (hsource : (source.eval env scope >>= sourceItems) = .ok vs) :
    (Query.ofSource source name).run env scope = .ok (.list vs) := by
  have hrow : ∀ item : Value, (do return ⟨← Scope.item ((name, item) :: scope) name,
      (name, item) :: scope⟩ : Outcome Row) = pure ⟨item, (name, item) :: scope⟩ := by
    intro item
    rw [Scope.item, List.lookup_cons_self]
    rfl
  have hselected : (Query.ofSource source name).selected env scope vs =
      .ok (vs.map fun item => ⟨item, (name, item) :: scope⟩) := by
    simp only [Query.selected, Query.ofSource, runJoins, runFilter, ok_bind, sortScopes_nil,
      selectRows, List.mapM_map, Function.comp_def, hrow]
    exact List.mapM_pure
  rw [run_eq]
  show ((source.eval env scope >>= sourceItems) >>= _) = _
  rw [hsource, ok_bind, hselected]
  simp only [Query.finish, Query.distinctRows, Query.ofSource, evalCount, ok_bind, runAggregate,
    Bool.false_eq_true, if_false, Option.getD_none, List.drop_zero, List.take_length, List.map_map,
    Function.comp_def, List.map_id']

namespace Node

/-- An item equated with one element after the other. -/
def disjunction (item : Node) (elements : List Node) : Node :=
  elements.foldl (fun sides element => .binary .or sides (.binary .equal item element))
    (.constant (.boolean false))

variable {item collection : Node} {elements : List Node}

private theorem among_eval (hitem : item.eval env scope = .ok v)
    (hcollection : (collection.eval env scope >>= sourceItems) = .ok vs) :
    (among item collection).eval env scope =
      .ok (if v.isNull then .null else .boolean (v.isAmong vs)) := by
  rw [eval, hitem, ok_bind, ← bind_assoc, hcollection]
  rfl

private theorem subquery_items {q : Query} (hrun : q.run env scope = .ok (.list vs)) :
    ((subquery q).eval env scope >>= sourceItems) = .ok vs := by
  rw [eval, hrun]
  rfl

/-- The aggregate looks at the values that the query would list. -/
theorem contains_eval (hitem : item.eval env scope = .ok v) {q : Query}
    (haggregate : q.aggregate = none) (hrun : q.run env scope = .ok (.list vs)) :
    (subquery { q with aggregate := some (.contains item) }).eval env scope =
      .ok (.boolean (v.isAmong vs)) := by
  obtain ⟨rows, hpage, rfl⟩ := (Query.run_list_iff haggregate).mp hrun
  have hpage : ({ q with aggregate := some (.contains item) } : Query).page env scope =
    .ok rows := hpage
  rw [eval, Query.run_eq_page, hpage, ok_bind, runAggregate, hitem]
  rfl

/-- Each further side is evaluated to the equality with its element. -/
theorem foldl_eval (hitem : item.eval env scope = .ok v)
    (helements : List.Forall₂ (fun element w => element.eval env scope = .ok w) elements vs)
    {sides : Node} {truth : Option Bool} (hsides : sides.eval env scope = .ok (.ofTruth truth)) :
    (elements.foldl (fun sides element => .binary .or sides (.binary .equal item element))
      sides).eval env scope =
        .ok (.ofTruth ((vs.map v.equals?).foldl Value.eitherTrue truth)) := by
  induction helements generalizing sides truth with
  | nil => exact hsides
  | @cons element w elements vs helement _ ih =>
      refine ih ?_
      rw [eval, hsides, eval, hitem, helement]
      exact Value.connective_or truth (v.equals? w)

private theorem disjunction_eval (hitem : item.eval env scope = .ok v)
    (helements : List.Forall₂ (fun element w => element.eval env scope = .ok w) elements vs)
    (hplain : ∀ w ∈ vs, w.isPlain = true) :
    (disjunction item elements).eval env scope = .ok (.ofTruth
      (if v.isAmong vs then some true
      else if v.isNull && !vs.isEmpty || vs.any Value.isNull then none
      else some false)) := by
  rw [← Value.foldl_equals? hplain]
  exact foldl_eval hitem helements rfl

/-- The three ways to ask for membership are true in the same cases, but do not always give the same
value. For the test of membership to agree with the disjunction, there have to be elements if the
item is null; if it is not, it has to be among them, or none of them may be null. For the
aggregate to agree with the test of membership, the item must not be null. -/
theorem membership_eval (hitem : item.eval env scope = .ok v)
    (hcollection : (collection.eval env scope >>= sourceItems) = .ok vs)
    (helements : List.Forall₂ (fun element w => element.eval env scope = .ok w) elements vs)
    (hplain : ∀ w ∈ vs, w.isPlain = true) :
    ((among item collection).eval env scope = (disjunction item elements).eval env scope ↔
      (v.isNull = true → vs ≠ []) ∧
        (v.isNull = false → v.isAmong vs = true ∨ ∀ w ∈ vs, w.isNull = false)) ∧
    (Except.map Value.isTrue ((among item collection).eval env scope) =
      Except.map Value.isTrue ((disjunction item elements).eval env scope)) ∧
    ∀ q : Query, q.aggregate = none → q.run env scope = .ok (.list vs) →
      ((subquery { q with aggregate := some (.contains item) }).eval env scope =
        (among item (.subquery q)).eval env scope ↔ v.isNull = false) ∧
      Except.map Value.isTrue
          ((subquery { q with aggregate := some (.contains item) }).eval env scope) =
        Except.map Value.isTrue ((among item (.subquery q)).eval env scope) := by
  refine ⟨?_, ?_, fun q haggregate hrun => ?_⟩
  · rw [among_eval hitem hcollection, disjunction_eval hitem helements hplain, Except.ok.injEq]
    cases hnull : v.isNull with
    | true =>
        rw [Value.isAmong_of_isNull hnull]
        cases vs <;> simp [Value.ofTruth]
    | false =>
        have hknown : (∀ w ∈ vs, w.isNull = false) ↔ vs.any Value.isNull = false := by simp
        rw [hknown]
        cases v.isAmong vs <;> cases vs.any Value.isNull <;> simp [Value.ofTruth]
  · rw [among_eval hitem hcollection, disjunction_eval hitem helements hplain]
    cases hnull : v.isNull with
    | true =>
        rw [Value.isAmong_of_isNull hnull]
        cases vs <;> rfl
    | false => cases v.isAmong vs <;> cases vs.any Value.isNull <;> rfl
  · rw [contains_eval hitem haggregate hrun, among_eval hitem (subquery_items hrun),
      Except.ok.injEq]
    cases hnull : v.isNull with
    | true => simp [Value.isAmong_of_isNull hnull, Except.map, Value.isTrue]
    | false => simp

/-! ## Elements supplied by a parameter -/

/-- An environment with the given elements. -/
def givenElements (vs : List Value) : Environment :=
  ⟨⟨[]⟩, [("elements", .list vs)]⟩

/-- The query that lists the given elements. -/
def elementsQuery : Query :=
  Query.ofSource (.parameter "elements") "x"

/-- One is not known to be absent from two and null, but the test of membership says so. Null in no
elements is unknown to the test of membership, and absent to the disjunction and to the
aggregate. -/
theorem oneAmong_ne :
    ((among (.constant (.integer 1)) (.parameter "elements")).eval
          (givenElements [.integer 2, .null]) [] = .ok (.boolean false) ∧
      (disjunction (.constant (.integer 1)) [.constant (.integer 2), .constant .null]).eval
          (givenElements [.integer 2, .null]) [] = .ok .null) ∧
    ((among (.constant .null) (.subquery elementsQuery)).eval (givenElements []) [] = .ok .null ∧
      (disjunction (.constant .null) []).eval (givenElements []) [] = .ok (.boolean false) ∧
      (subquery { elementsQuery with aggregate := some (.contains (.constant .null)) }).eval
          (givenElements []) [] = .ok (.boolean false)) := by
  have hrun : elementsQuery.run (givenElements []) [] = .ok (.list []) :=
    Query.ofSource_run "x" rfl
  exact ⟨⟨rfl, rfl⟩, among_eval (v := .null) rfl (subquery_items hrun), rfl,
    contains_eval (v := .null) rfl rfl hrun⟩

/-- One equals neither two nor null. The disjunction leaves it open, and the others do not. -/
theorem oneAmong_eval :
    (among (.constant (.integer 1)) (.parameter "elements")).eval
        (givenElements [.integer 2, .null]) [] ≠
      (disjunction (.constant (.integer 1)) [.constant (.integer 2), .constant .null]).eval
        (givenElements [.integer 2, .null]) [] ∧
    (subquery { elementsQuery with aggregate := some (.contains (.constant (.integer 1))) }).eval
        (givenElements [.integer 2, .null]) [] =
      (among (.constant (.integer 1)) (.subquery elementsQuery)).eval
        (givenElements [.integer 2, .null]) [] := by
  obtain ⟨hsame, -, hcontains⟩ := @membership_eval (givenElements [.integer 2, .null]) []
    (.integer 1) [.integer 2, .null] (.constant (.integer 1)) (.parameter "elements")
    [.constant (.integer 2), .constant .null] rfl rfl (.cons rfl (.cons rfl .nil)) (by decide)
  have hrun : elementsQuery.run (givenElements [.integer 2, .null]) [] =
      .ok (.list [.integer 2, .null]) :=
    Query.ofSource_run "x" rfl
  exact ⟨mt hsame.mp (by decide), (hcontains elementsQuery rfl hrun).1.mpr rfl⟩

end Node

end Hql

end ObjectQuery
