import ObjectQuery.Proofs.Engine.Provenance

/-!
# Dropping repeated values

A query may drop rows whose values it has seen before. It compares every value
with those that it has kept so far. Since sameness is transitive, this is as
good as comparing it with all values before it: what is kept are the first
occurrences, in the order of the rows.

The sameness of values is an equality where no name repeats in a row, and where
no value has a decimal in it, as a decimal may be NaN. Names do not repeat in the
records of a data set, since they are merged when it is read, and a query makes
up no rows. So no two values that are kept are equal, and every value is equal
to one that is kept.

## Main definitions

* `Value.IsProper`, `Value.HoldsDecimal` — no name repeats in a value, and a value has a
  decimal in it.
* `Value.firstOccurrences` — the entries whose value is the same as none before it.
* `KeepsFirst` — what is left of rows without the repeated values.

## Main results

* `Value.distinctBy_eq_firstOccurrences` — what is kept are the first occurrences.
* `DataSet.isProper_of_ofJson?` — no name repeats in a data set that was read.
* `Hql.Query.distinct_keepsFirst` — what a query drops.
-/

namespace ObjectQuery

/-! ## Equality of values -/

namespace Value

/-- No row in the value repeats a name. -/
inductive IsProper : Value → Prop
  | plain {v : Value} (h : v.isPlain = true) : IsProper v
  | row {record : Record} (h : (Json.object record).IsProper) : IsProper (.row record)
  | list {items : List Value} (h : ∀ item ∈ items, IsProper item) : IsProper (.list items)

/-- There is a decimal in the value. -/
inductive HoldsDecimal : Value → Prop
  | decimal (x : Float) : HoldsDecimal (.decimal x)
  | row {record : Record} (h : (Json.object record).HoldsFloat) : HoldsDecimal (.row record)
  | list {items : List Value} {item : Value} (hitem : item ∈ items) (h : HoldsDecimal item) :
    HoldsDecimal (.list items)

private theorem ofJsonItems_eq_map (items : List Json) : ofJsonItems items = items.map ofJson := by
  induction items with
  | nil => rfl
  | cons item rest ih => rw [ofJsonItems, ih, List.map_cons]

private theorem isProper_ofJson {j : Json} (h : j.IsProper) : (ofJson j).IsProper := by
  induction h with
  | null | bool | float | string => exact .plain rfl
  | integer n =>
      rw [ofJson]
      split <;> exact .plain rfl
  | array _ ih =>
      rw [ofJson, ofJsonItems_eq_map]
      exact .list (List.forall_mem_map.mpr ih)
  | object hdistinct h =>
      rw [ofJson]
      exact .row (.object hdistinct h)

private theorem isProper_row_iff {record : Record} :
    (row record).IsProper ↔ (Json.object record).IsProper := by
  refine ⟨fun h => ?_, .row⟩
  cases h with
  | plain h => cases h
  | row h => exact h

/-- Values in which no name repeats have only such values in them. -/
theorem isClosed_isProper : IsClosed IsProper where
  plain := .plain
  list_iff := by
    intro items
    refine ⟨fun h => ?_, .list⟩
    cases h with
    | plain h => cases h
    | list h => exact h
  member := by
    intro record name j h hlookup
    cases isProper_row_iff.mp h with
    | object _ h => exact isProper_ofJson (h _ (Json.mem_of_lookup hlookup))

variable {a b c : Value} {as bs : List Value} {record other : Record}

private theorem same_row (record other : Record) :
    (row record).same (.row other) = (Json.object record).same (.object other) := by
  rw [same, Json.same]

private theorem sameItems_iff :
    sameItems as bs = true ↔ List.Forall₂ (fun a b => a.same b = true) as bs := by
  induction as generalizing bs with
  | nil => cases bs <;> simp [sameItems]
  | cons a as ih => cases bs <;> simp [sameItems, ih]

/-- Plain values other than decimals are the same only if they are equal. -/
theorem same_iff_eq (hplain : a.isPlain = true) (hexact : ¬a.HoldsDecimal) :
    a.same b = true ↔ a = b := by
  cases a with
  | null => cases b <;> simp [same]
  | boolean | integer | string => cases b <;> simp [same]
  | decimal x => exact absurd (.decimal x) hexact
  | row | list => cases hplain

/-- A value without decimals is the same as itself. -/
theorem same_refl (hproper : a.IsProper) (hexact : ¬a.HoldsDecimal) : a.same a = true := by
  induction hproper with
  | @plain v h =>
      cases v with
      | null => rfl
      | boolean | integer | string => simp [same]
      | decimal x => exact absurd (.decimal x) hexact
      | row | list => cases h
  | row h =>
      rw [same_row]
      exact Json.same_refl h fun hfloat => hexact (.row hfloat)
  | list _ ih =>
      rw [same, sameItems_iff]
      exact List.forall₂_same.mpr fun item hitem => ih item hitem fun h => hexact (.list hitem h)

private theorem same_symm (ha : a.IsProper) (hb : b.IsProper) (h : a.same b = true) :
    b.same a = true := by
  induction ha generalizing b with
  | @plain v hplain =>
      cases v with
      | null => cases b <;> first | rfl | cases h
      | boolean | integer | string => cases b <;> simp_all [same]
      | decimal x =>
          cases b with
          | decimal y => exact (Decimal.beq_comm y x).trans h
          | _ => cases h
      | row | list => cases hplain
  | row ha =>
      cases b with
      | row other =>
          rw [same_row] at h ⊢
          exact Json.same_symm ha (isProper_row_iff.mp hb) h
      | _ => cases h
  | list _ ih =>
      cases b with
      | list bs =>
          rw [same, sameItems_iff] at h ⊢
          exact forall₂_symm h fun a ha b hb' => ih a ha (isClosed_isProper.list_iff.mp hb b hb')
      | _ => cases h

/-- Sameness is transitive, also where a name repeats. -/
theorem same_trans {a b c : Value} (hab : a.same b = true) (hbc : b.same c = true) :
    a.same c = true := by
  cases a with
  | null =>
      cases b with
      | null => exact hbc
      | _ => cases hab
  | boolean x =>
      cases b with
      | boolean y =>
          obtain rfl : x = y := eq_of_beq hab
          exact hbc
      | _ => cases hab
  | integer m =>
      cases b with
      | integer n =>
          obtain rfl : m = n := eq_of_beq hab
          exact hbc
      | _ => cases hab
  | string s =>
      cases b with
      | string t =>
          obtain rfl : s = t := eq_of_beq hab
          exact hbc
      | _ => cases hab
  | decimal x =>
      cases b with
      | decimal y =>
          cases c with
          | decimal z => exact Decimal.beq_trans hab hbc
          | _ => cases hbc
      | _ => cases hab
  | row record =>
      cases b with
      | row other =>
          cases c with
          | row third =>
              rw [same_row] at hab hbc ⊢
              exact Json.same_trans hab hbc
          | _ => cases hbc
      | _ => cases hab
  | list as =>
      cases b with
      | list bs =>
          cases c with
          | list cs =>
              rw [same, sameItems_iff] at hab hbc ⊢
              refine forall₂_trans hab hbc fun a ha b c hab hbc => ?_
              have := List.sizeOf_lt_of_mem ha
              exact same_trans hab hbc
          | _ => cases hbc
      | _ => cases hab
termination_by sizeOf a

/-! ## First occurrences -/

section

variable {α : Type} {value : α → Value}

/-- The entries whose value is the same as that of none before. -/
def firstOccurrences (value : α → Value) (entries : List α) : List α :=
  (entries.zipIdx.filter fun (entry, n) =>
    (entries.take n).all fun earlier => !(value earlier).same (value entry)).map Prod.fst

/-- A scan that compares with the values it has kept finds the first occurrences, since what it
has dropped is the same as something kept. -/
theorem distinctBy_eq_filter {before rest : List α} {seen : List Value}
    (hseen : ∀ v : Value,
      seen.any (·.same v) = before.any fun earlier => (value earlier).same v) :
    distinctBy value seen rest =
      ((rest.zipIdx before.length).filter fun (entry, n) =>
        ((before ++ rest).take n).all fun earlier =>
          !(value earlier).same (value entry)).map Prod.fst := by
  induction rest generalizing before seen with
  | nil => rfl
  | cons entry rest ih =>
      have hnext : before ++ entry :: rest = (before ++ [entry]) ++ rest := by
        rw [List.append_assoc, List.singleton_append]
      have hlength : before.length + 1 = (before ++ [entry]).length := by
        rw [List.length_append, List.length_singleton]
      have hfresh : (((before ++ entry :: rest).take before.length).all fun earlier =>
          !(value earlier).same (value entry)) = !seen.any (·.same (value entry)) := by
        rw [List.take_left, hseen, List.not_any_eq_all_not]
      rw [distinctBy, List.zipIdx_cons, List.filter_cons]
      simp only [hfresh]
      rw [hnext, hlength]
      cases hrepeats : seen.any (·.same (value entry)) with
      | true =>
          rw [if_pos rfl, if_neg (by decide)]
          refine ih fun v => ?_
          rw [List.any_append, ← hseen, List.any_cons, List.any_nil, Bool.or_false]
          cases hsame : (value entry).same v with
          | false => rw [Bool.or_false]
          | true =>
              obtain ⟨kept, hkept, hkeptSame⟩ := List.any_eq_true.mp hrepeats
              rw [Bool.or_true]
              exact List.any_eq_true.mpr ⟨kept, hkept, same_trans hkeptSame hsame⟩
      | false =>
          rw [if_neg Bool.false_ne_true, if_pos (by decide), List.map_cons]
          refine congrArg _ (ih fun v => ?_)
          rw [List.any_append, List.any_append, hseen]
          rfl

/-- What is kept are the first occurrences. -/
theorem distinctBy_eq_firstOccurrences (value : α → Value) (entries : List α) :
    distinctBy value [] entries = firstOccurrences value entries :=
  @distinctBy_eq_filter α value [] entries [] fun _ => rfl

end

/-- Among these values sameness is an equality. Plain values are the same if they are equal, lists
if their items are the same one by one, and rows if every name has the same value in both,
whatever the order of their members. -/
structure SameIsEquality (values : List Value) : Prop where
  refl : ∀ v ∈ values, v.same v = true
  symm : ∀ v ∈ values, ∀ w ∈ values, v.same w = w.same v
  trans : ∀ u ∈ values, ∀ v ∈ values, ∀ w ∈ values,
    u.same v = true → v.same w = true → u.same w = true
  plain : ∀ v ∈ values, ∀ w ∈ values, v.isPlain = true → (v.same w = true ↔ v = w)
  lists : ∀ items others, list items ∈ values → list others ∈ values →
    ((list items).same (list others) = true ↔
      List.Forall₂ (fun a b => a.same b = true) items others)
  rows : ∀ record other, row record ∈ values → row other ∈ values →
    ((row record).same (row other) = true ↔ ∀ name,
      Option.Rel (fun a b => a.same b = true) (record.lookup name) (other.lookup name))

private theorem sameIsEquality {values : List Value} (hproper : ∀ v ∈ values, v.IsProper)
    (hexact : ∀ v ∈ values, ¬v.HoldsDecimal) : SameIsEquality values where
  refl v hv := same_refl (hproper v hv) (hexact v hv)
  symm v hv w hw := Bool.eq_iff_iff.mpr
    ⟨same_symm (hproper v hv) (hproper w hw), same_symm (hproper w hw) (hproper v hv)⟩
  trans u _ v _ w _ := same_trans
  plain v hv w _ hplain := same_iff_eq hplain (hexact v hv)
  lists items others _ _ := by
    rw [same, sameItems_iff]
  rows record other hrecord hother := by
    rw [same_row]
    cases isProper_row_iff.mp (hproper _ hrecord) with
    | object hdistinct _ =>
        cases isProper_row_iff.mp (hproper _ hother) with
        | object hothers _ => exact Json.same_object_iff hdistinct hothers

end Value

/-! ## Data sets -/

/-- No name repeats in a record that was read. -/
theorem DataSet.isProper_of_recordOfJson? {j : Json} {record : Record}
    (h : recordOfJson? j = some record) : (Value.row record).IsProper := by
  have hproper := Json.isProper_merged j
  unfold recordOfJson? at h
  split at h
  · next members hmembers =>
      obtain rfl := Option.some.inj h
      exact .row (hmembers ▸ hproper)
  · cases h

/-- No name repeats in a record of a data set that was read. -/
theorem DataSet.isProper_of_ofJson? {j : Json} {data : DataSet} (h : ofJson? j = some data) :
    ∀ entry ∈ data.entities, ∀ record ∈ entry.2, (Value.row record).IsProper := by
  cases j with
  | object members =>
      obtain ⟨entities, hentities, h⟩ := Option.bind_eq_some_iff.mp h
      obtain rfl := Option.some.inj h
      intro entry hentry record hrecord
      obtain ⟨member, -, hmember⟩ :=
        exists_of_mem_mapM hentities (List.mem_reverse.mp hentry)
      obtain ⟨records, hrecords, hmember⟩ := Option.bind_eq_some_iff.mp hmember
      obtain rfl := Option.some.inj hmember
      obtain ⟨parts, -, hread⟩ := Option.bind_eq_some_iff.mp hrecords
      obtain ⟨part, -, hpart⟩ := exists_of_mem_mapM hread hrecord
      exact isProper_of_recordOfJson? hpart
  | _ => cases h

/-! ## Queries -/

/-- What is left of rows without those that repeat the value of another one. -/
structure KeepsFirst (rows kept : List Row) : Prop where
  eq_firsts : kept = Value.firstOccurrences Row.value rows
  sublist : kept.Sublist rows
  apart : kept.Pairwise fun a b => a.value.same b.value = false ∧ b.value.same a.value = false
  covers : ∀ row ∈ rows, ∃ other ∈ kept, other.value.same row.value = true
  again : Value.distinctBy Row.value [] kept = kept

private theorem keepsFirst_distinctBy {rows : List Row}
    (hequality : Value.SameIsEquality (rows.map Row.value)) :
    KeepsFirst rows (Value.distinctBy Row.value [] rows) where
  eq_firsts := Value.distinctBy_eq_firstOccurrences Row.value rows
  sublist := Value.distinctBy_sublist Row.value [] rows
  apart := by
    refine (Value.pairwise_distinctBy [] rows).imp_of_mem fun ha hb h => ⟨h, ?_⟩
    rw [← h]
    exact hequality.symm _ (List.mem_map_of_mem (Value.mem_of_mem_distinctBy hb)) _
      (List.mem_map_of_mem (Value.mem_of_mem_distinctBy ha))
  covers := by
    intro row hrow
    rcases Value.mem_distinctBy_or_exists_same Row.value hrow with hkept | hsame
    · exact ⟨row, hkept, hequality.refl _ (List.mem_map_of_mem hrow)⟩
    · exact hsame
  again := Value.distinctBy_idem rows

namespace Hql.Query

variable {env : Environment} {outer : Scope} {q : Query} {rows : List Row}

/-- A query that drops repeated values goes on with the first occurrences of its rows, as if it
had selected no others, and in the order that its keys have put them in. In an environment
without repeated names, and where no decimals are selected, sameness is an equality; so no two
values that are kept are equal, and every value is equal to one that is kept. -/
theorem distinct_keepsFirst (hdistinct : q.distinct = true) (henv : env.LiesIn Value.IsProper)
    (houter : outer.LiesIn Value.IsProper) (hrows : q.rows env outer = .ok rows)
    (hexact : ∀ row ∈ rows, ¬row.value.HoldsDecimal) :
    q.run env outer = { q with distinct := false }.finish env outer (q.distinctRows rows) ∧
      KeepsFirst rows (q.distinctRows rows) ∧
      (∃ items filtered sorted, (q.source.eval env outer >>= sourceItems) = .ok items ∧
        q.filtered env outer items = .ok filtered ∧
        sortScopes (q.order.map OrderKey.direction) (evalKeys env q.order) filtered = .ok sorted ∧
        rows.map Row.scope = sorted ∧ ((q.distinctRows rows).map Row.scope).Sublist sorted) ∧
      Value.SameIsEquality (rows.map Row.value) := by
  have hproper : ∀ v ∈ rows.map Row.value, v.IsProper :=
    List.forall_mem_map.mpr (rows_gives Value.isClosed_isProper henv q houter rows hrows)
  have hequality := Value.sameIsEquality hproper (List.forall_mem_map.mpr hexact)
  have hkept : q.distinctRows rows = Value.distinctBy Row.value [] rows := by
    rw [distinctRows, hdistinct, if_pos rfl]
  refine ⟨?_, hkept ▸ keepsFirst_distinctBy hequality, ?_, hequality⟩
  · have hrun : q.run env outer = q.rows env outer >>= q.finish env outer := by
      rw [Query.run_eq, Query.rows]
      simp only [bind_assoc]
    rw [hrun, hrows, ok_bind]
    rfl
  · obtain ⟨items, hitems, hselected⟩ := bind_eq_ok.mp hrows
    rw [selected_eq_project] at hselected
    obtain ⟨filtered, hfiltered, hselected⟩ := bind_eq_ok.mp hselected
    obtain ⟨sorted, hsorted, hselected⟩ := bind_eq_ok.mp hselected
    obtain ⟨-, rfl⟩ := selectRows_eq_ok_iff.mp hselected
    have hscopes : (sorted.map (rowIn (q.project env))).map Row.scope = sorted := by
      rw [List.map_map]
      exact List.map_id sorted
    refine ⟨items, filtered, sorted, hitems, hfiltered, hsorted, hscopes, ?_⟩
    rw [hkept]
    have hsublist := (Value.distinctBy_sublist Row.value []
      (sorted.map (rowIn (q.project env)))).map Row.scope
    rwa [hscopes] at hsublist

/-- Visits of places. One of the places is read with its members in two orders, and one is not
known. -/
def placesJson : Json :=
  .object [("Visit", .array
    [.object [("Place", .object [("City", .string "Oslo"), ("Zip", .integer 150)])],
      .object [("Place", .null)],
      .object [("Place", .object [("Zip", .integer 150), ("City", .string "Oslo")])],
      .object [("Place", .object [("City", .string "Oslo"), ("Zip", .integer 250)])],
      .object [("Place", .null)]])]

/-- The places of the visits. -/
def placeValues : List Value :=
  [.row [("City", .string "Oslo"), ("Zip", .integer 150)], .null,
    .row [("Zip", .integer 150), ("City", .string "Oslo")],
    .row [("City", .string "Oslo"), ("Zip", .integer 250)], .null]

private theorem placeValues_exact : ∀ v ∈ placeValues, ¬v.HoldsDecimal := by
  have hrow : ∀ {record : Record}, (∀ member ∈ record, ¬member.2.HoldsFloat) →
      ¬(Value.row record).HoldsDecimal := by
    rintro record hrecord (_ | h)
    cases h with
    | object hmember h => exact hrecord _ hmember h
  simp only [placeValues, List.forall_mem_cons]
  refine ⟨hrow ?_, nofun, hrow ?_, hrow ?_, nofun, List.forall_mem_nil _⟩ <;>
    simp only [List.forall_mem_cons] <;> exact ⟨nofun, nofun, List.forall_mem_nil _⟩

/-- The environment with the visits of places. -/
def places : Environment :=
  ⟨((DataSet.ofJson? placesJson).getD .empty), []⟩

/-- The records of the visits. -/
def placeRecords : List Record :=
  places.data.entities.flatMap Prod.snd

/-- The places that were visited, each of them once. -/
def distinctPlaces : Query :=
  { Query.ofSource (.entity "Visit") "v" with
    select := some (.dot (.ident "v") "Place")
    distinct := true }

/-- The place with its members in another order is dropped, as is the second one that is not
known. -/
theorem distinctPlaces_run :
    ∃ rows, distinctPlaces.rows places [] = .ok rows ∧ rows.map Row.value = placeValues ∧
      distinctPlaces.run places [] = .ok (.list
        [.row [("City", .string "Oslo"), ("Zip", .integer 150)], .null,
          .row [("City", .string "Oslo"), ("Zip", .integer 250)]]) ∧
      KeepsFirst rows (distinctPlaces.distinctRows rows) := by
  have hrows : distinctPlaces.rows places [] = .ok (placeRecords.map (visitRow "Place")) := by
    refine bind_eq_ok.mpr ⟨placeRecords.map .row, rfl, ?_⟩
    rw [selected_eq_project]
    refine bind_eq_ok.mpr ⟨placeRecords.map fun record => [("v", .row record)], rfl, ?_⟩
    show sortScopes ([].map OrderKey.direction) (evalKeys places []) _ >>= _ = _
    rw [sortScopes_nil]
    rfl
  have henv : places.LiesIn Value.IsProper :=
    ⟨@DataSet.isProper_of_ofJson? placesJson _ rfl, List.forall_mem_nil _⟩
  have hvalues : (placeRecords.map (visitRow "Place")).map Row.value = placeValues := rfl
  obtain ⟨hrun, hkeeps, -⟩ := distinct_keepsFirst (q := distinctPlaces) rfl henv
    (List.forall_mem_nil _) hrows fun row hrow =>
      placeValues_exact row.value (hvalues ▸ List.mem_map_of_mem hrow)
  exact ⟨_, hrows, hvalues, hrun.trans rfl, hkeeps⟩

end Hql.Query

end ObjectQuery
