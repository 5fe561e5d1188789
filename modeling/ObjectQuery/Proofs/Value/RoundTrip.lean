import ObjectQuery.Proofs.Json.Reading
import ObjectQuery.Proofs.Value.Arithmetic
import ObjectQuery.Value.Basic

/-!
# Values survive JSON

A value that is written as JSON and taken from it again is the same value, and
JSON that is taken as a value and written again is the same JSON, down to the
order of members and the sign of a zero. Each direction has exceptions of its
own. JSON has neither infinities nor NaN, so a decimal that is not finite becomes
null. Values have no integers beyond words, so a whole number that fits into no
word becomes a decimal, and this is written as a double.

The exceptions reach as deep as lists do. A row keeps its members as they are in
JSON, so nothing is lost in an object, whatever numbers it holds. And whether a
number is whole does not hang on its value: `1` and `1.0` are different JSON and
different values, and neither becomes the other.

Of JSON that a text is read as, only whole numbers can be lost, since no text
writes a double that is not finite.

## Main definitions

* `Json.ListPart`, `Value.ListPart` — the parts outside objects and rows.
* `Value.DecimalsFinite`, `Json.WholeNumbersFit`, `Json.DoublesFinite` — none of
  these parts is an exception.

## Main results

* `Value.ofJson_toJson_iff` — which values are the values of their JSON.
* `Value.toJson_ofJson_iff` — which JSON is the JSON of its value.
* `Value.json_roundTrip` — both directions, and what of a text survives.
-/

namespace ObjectQuery

/-! ## Parts outside objects -/

/-- The parts of a JSON value outside objects: the value itself, and the parts of
the items of an array. -/
inductive Json.ListPart : (whole part : Json) → Prop
  | self {j : Json} : ListPart j j
  | item {items : List Json} {item part : Json} (hitem : item ∈ items) (h : ListPart item part) :
    ListPart (.array items) part

/-- The parts of a value outside rows: the value itself, and the parts of the
items of a list. -/
inductive Value.ListPart : (whole part : Value) → Prop
  | self {v : Value} : ListPart v v
  | item {items : List Value} {item part : Value} (hitem : item ∈ items) (h : ListPart item part) :
    ListPart (.list items) part

/-- Every whole number outside objects is the value of a word. -/
def Json.WholeNumbersFit (j : Json) : Prop :=
  ∀ n, j.ListPart (.integer n) → Word64.Fits n

/-- Every double outside objects is finite. -/
def Json.DoublesFinite (j : Json) : Prop :=
  ∀ x, j.ListPart (.float x) → x.isFinite = true

/-- Every decimal outside rows is finite. -/
def Value.DecimalsFinite (v : Value) : Prop :=
  ∀ x, v.ListPart (.decimal x) → x.isFinite = true

namespace Json

variable {j part : Json} {items : List Json}

private theorem listPart_array_iff :
    (array items).ListPart part ↔ part = array items ∨ ∃ item ∈ items, item.ListPart part := by
  constructor
  · intro h
    cases h with
    | self => exact .inl rfl
    | item hitem h => exact .inr ⟨_, hitem, h⟩
  · rintro (rfl | ⟨item, hitem, h⟩)
    · exact .self
    · exact .item hitem h

/-- What is no array has no parts but itself. -/
theorem ListPart.eq_of_not_array (h : j.ListPart part) (hj : ∀ items, j ≠ array items) :
    part = j := by
  cases h with
  | self => rfl
  | item => exact absurd rfl (hj _)

private theorem wholeNumbersFit_array_iff :
    (array items).WholeNumbersFit ↔ ∀ item ∈ items, item.WholeNumbersFit := by
  simp only [WholeNumbersFit, listPart_array_iff, reduceCtorEq, false_or]
  exact ⟨fun h item hitem n hn => h n ⟨item, hitem, hn⟩,
    fun h n ⟨item, hitem, hn⟩ => h item hitem n hn⟩

private theorem doublesFinite_array_iff :
    (array items).DoublesFinite ↔ ∀ item ∈ items, item.DoublesFinite := by
  simp only [DoublesFinite, listPart_array_iff, reduceCtorEq, false_or]
  exact ⟨fun h item hitem x hx => h x ⟨item, hitem, hx⟩,
    fun h x ⟨item, hitem, hx⟩ => h item hitem x hx⟩

private theorem wholeNumbersFit_integer_iff {n : Int} :
    (integer n).WholeNumbersFit ↔ Word64.Fits n := by
  refine ⟨fun h => h n .self, fun h m hm => ?_⟩
  obtain ⟨rfl⟩ := hm.eq_of_not_array nofun
  exact h

private theorem doublesFinite_float_iff {x : Float} :
    (float x).DoublesFinite ↔ x.isFinite = true := by
  refine ⟨fun h => h x .self, fun h y hy => ?_⟩
  obtain ⟨rfl⟩ := hy.eq_of_not_array nofun
  exact h

private theorem wholeNumbersFit_of_ne (hinteger : ∀ n, j ≠ integer n)
    (harray : ∀ items, j ≠ array items) :
    j.WholeNumbersFit :=
  fun n h => absurd (h.eq_of_not_array harray).symm (hinteger n)

private theorem doublesFinite_of_ne (hfloat : ∀ x, j ≠ float x)
    (harray : ∀ items, j ≠ array items) :
    j.DoublesFinite :=
  fun x h => absurd (h.eq_of_not_array harray).symm (hfloat x)

private theorem doublesFinite_of_isFinite (h : j.IsFinite) : j.DoublesFinite := by
  induction h with
  | null | bool | integer | string | object => exact doublesFinite_of_ne nofun nofun
  | float h => exact doublesFinite_float_iff.mpr h
  | array _ ih => exact doublesFinite_array_iff.mpr ih

end Json

namespace Value

open Json (wholeNumbersFit_array_iff wholeNumbersFit_integer_iff wholeNumbersFit_of_ne
  doublesFinite_array_iff doublesFinite_float_iff doublesFinite_of_ne)

variable {v part : Value} {items : List Value}

private theorem listPart_list_iff :
    (list items).ListPart part ↔ part = list items ∨ ∃ item ∈ items, item.ListPart part := by
  constructor
  · intro h
    cases h with
    | self => exact .inl rfl
    | item hitem h => exact .inr ⟨_, hitem, h⟩
  · rintro (rfl | ⟨item, hitem, h⟩)
    · exact .self
    · exact .item hitem h

/-- What is no list has no parts but itself. -/
theorem ListPart.eq_of_not_list (h : v.ListPart part) (hv : ∀ items, v ≠ list items) :
    part = v := by
  cases h with
  | self => rfl
  | item => exact absurd rfl (hv _)

private theorem decimalsFinite_list_iff :
    (list items).DecimalsFinite ↔ ∀ item ∈ items, item.DecimalsFinite := by
  simp only [DecimalsFinite, listPart_list_iff, reduceCtorEq, false_or]
  exact ⟨fun h item hitem x hx => h x ⟨item, hitem, hx⟩,
    fun h x ⟨item, hitem, hx⟩ => h item hitem x hx⟩

private theorem decimalsFinite_decimal_iff {x : Float} :
    (decimal x).DecimalsFinite ↔ x.isFinite = true := by
  refine ⟨fun h => h x .self, fun h y hy => ?_⟩
  obtain ⟨rfl⟩ := hy.eq_of_not_list nofun
  exact h

private theorem decimalsFinite_of_ne (hdecimal : ∀ x, v ≠ decimal x)
    (hlist : ∀ items, v ≠ list items) :
    v.DecimalsFinite :=
  fun x h => absurd (h.eq_of_not_list hlist).symm (hdecimal x)

/-! ## There and back -/

mutual

/-- A value is the value of its JSON, unless a decimal outside rows is not finite. -/
theorem ofJson_toJson_iff : ∀ v : Value, ofJson v.toJson = v ↔ v.DecimalsFinite
  | .null | .boolean _ | .string _ | .row _ => iff_of_true rfl (decimalsFinite_of_ne nofun nofun)
  | .integer n => by
      have hword : Word64.exactly? n.toInt = some n := Word64.exactly?_eq_some_iff.mpr rfl
      refine iff_of_true ?_ (decimalsFinite_of_ne nofun nofun)
      simp only [toJson, ofJson, hword]
  | .decimal x => by
      rw [decimalsFinite_decimal_iff, toJson]
      split
      · next hfinite => exact iff_of_true rfl hfinite
      · next hinfinite => exact iff_of_false nofun hinfinite
  | .list items => by
      rw [toJson, ofJson, list.injEq, ofJsonItems_toJsonItems_iff, decimalsFinite_list_iff]

theorem ofJsonItems_toJsonItems_iff : ∀ items : List Value,
    ofJsonItems (toJsonItems items) = items ↔ ∀ item ∈ items, item.DecimalsFinite
  | [] => iff_of_true rfl nofun
  | item :: rest => by
      rw [toJsonItems, ofJsonItems, List.cons.injEq, ofJson_toJson_iff, ofJsonItems_toJsonItems_iff,
        List.forall_mem_cons]

end

/-- A decimal that is not finite is lost. -/
example : ofJson (toJson (.list [.decimal (0.0 / 0.0)])) = .list [.null] := rfl

mutual

/-- JSON is the JSON of its value, unless a number outside objects is whole and fits into no
word, or is not finite. -/
theorem toJson_ofJson_iff : ∀ j : Json,
    (ofJson j).toJson = j ↔ j.WholeNumbersFit ∧ j.DoublesFinite
  | .null | .bool _ | .string _ | .object _ =>
      iff_of_true rfl ⟨wholeNumbersFit_of_ne nofun nofun, doublesFinite_of_ne nofun nofun⟩
  | .integer n => by
      have hdoubles : (Json.integer n).DoublesFinite := doublesFinite_of_ne nofun nofun
      rw [wholeNumbersFit_integer_iff, and_iff_left hdoubles, ofJson]
      by_cases hn : Word64.Fits n
      · obtain ⟨w, hword, rfl⟩ := Word64.exactly?_of_fits hn
        rw [hword]
        exact iff_of_true rfl hn
      · -- the nearest double is not whole in JSON, and beyond the doubles there is only null
        rw [Word64.exactly?_of_not_fits hn]
        refine iff_of_false ?_ hn
        simp only [toJson]
        split <;> nofun
  | .float x => by
      have hwhole : (Json.float x).WholeNumbersFit := wholeNumbersFit_of_ne nofun nofun
      rw [doublesFinite_float_iff, and_iff_right hwhole, ofJson, toJson]
      split
      · next hfinite => exact iff_of_true rfl hfinite
      · next hinfinite => exact iff_of_false nofun hinfinite
  | .array items => by
      rw [ofJson, toJson, Json.array.injEq, toJsonItems_ofJsonItems_iff,
        wholeNumbersFit_array_iff, doublesFinite_array_iff]

theorem toJsonItems_ofJsonItems_iff : ∀ items : List Json,
    toJsonItems (ofJsonItems items) = items ↔
      (∀ item ∈ items, item.WholeNumbersFit) ∧ ∀ item ∈ items, item.DoublesFinite
  | [] => iff_of_true rfl ⟨nofun, nofun⟩
  | item :: rest => by
      rw [ofJsonItems, toJsonItems, List.cons.injEq, toJson_ofJson_iff, toJsonItems_ofJsonItems_iff,
        List.forall_mem_cons, List.forall_mem_cons]
      exact and_and_and_comm

end

/-- Beyond words, a whole number is no longer whole. -/
example : (ofJson (.integer 9223372036854775808)).toJson = .float 9223372036854775808.0 := rfl

/-- Values without infinite decimals survive JSON, and JSON whose whole numbers fit into words,
or stand in objects, survives being a value. Nothing else does. -/
theorem json_roundTrip :
    (∀ v : Value, ofJson v.toJson = v ↔ v.DecimalsFinite) ∧
      (∀ j : Json, (ofJson j).toJson = j ↔ j.WholeNumbersFit ∧ j.DoublesFinite) ∧
      ∀ reading text j, Json.readWith? reading text = some j →
        ((ofJson j).toJson = j ↔ j.WholeNumbersFit) := by
  refine ⟨ofJson_toJson_iff, toJson_ofJson_iff, fun reading text j hread => ?_⟩
  have hfinite : j.IsFinite := Json.isFinite_of_readWith? hread
  rw [toJson_ofJson_iff, and_iff_left (Json.doublesFinite_of_isFinite hfinite)]

/-- A list with a row, in which there is a number beyond words, and a list. -/
def mixed : Value :=
  .list [.row [("Id", .integer 9223372036854775808)], .integer (-1), .list [.decimal 2.5, .null]]

/-- The text of a list of the least word and a list. -/
def nestedText : String :=
  "[-9223372036854775808,[2.5,\x7b\x7d]]"

/-- What this text is read as. -/
def nested : Json :=
  .array [.integer (-9223372036854775808), .array [.float 2.5, .object []]]

private theorem nestedText_read : Json.readWith? ⟨none, true⟩ nestedText = some nested := by
  have hinteger : Json.Numeral.value? ⟨true, "9223372036854775808".toList, none, none⟩ =
      some (.integer (-9223372036854775808)) := rfl
  have hfloat : Json.Numeral.value? ⟨false, ['2'], some ['5'], none⟩ = some (.float 2.5) := rfl
  have htokens : Json.tokenize nestedText.toList = some [.openArray,
      .scalar (some (.integer (-9223372036854775808))), .comma, .openArray,
      .scalar (some (.float 2.5)), .comma, .openObject, .closeObject, .closeArray,
      .closeArray] := by
    rw [← hinteger, ← hfloat]
    simp [nestedText, Json.tokenize, Json.isSeparator, Json.bracket?, Json.isNumeralChar,
      Json.Numeral.ofChars?, Json.isWholePart, Json.readScale]
  show (Json.tokenize nestedText.toList).bind _ = _
  rw [htokens]
  rfl

theorem mixed_nested_roundTrip :
    mixed.DecimalsFinite ∧ ofJson mixed.toJson = mixed ∧
      Json.readWith? ⟨none, true⟩ nestedText = some nested ∧ nested.WholeNumbersFit ∧
        (ofJson nested).toJson = nested := by
  have hfinite : mixed.DecimalsFinite := by
    simp only [mixed, decimalsFinite_list_iff, List.forall_mem_cons, decimalsFinite_decimal_iff]
    exact ⟨decimalsFinite_of_ne nofun nofun, decimalsFinite_of_ne nofun nofun,
      ⟨by decide, decimalsFinite_of_ne nofun nofun, nofun⟩, nofun⟩
  have hfit : nested.WholeNumbersFit := by
    simp only [nested, wholeNumbersFit_array_iff, List.forall_mem_cons, wholeNumbersFit_integer_iff]
    exact ⟨by decide,
      ⟨wholeNumbersFit_of_ne nofun nofun, wholeNumbersFit_of_ne nofun nofun, nofun⟩, nofun⟩
  exact ⟨hfinite, (json_roundTrip.1 mixed).mpr hfinite, nestedText_read, hfit,
    (json_roundTrip.2.2 _ _ _ nestedText_read).mpr hfit⟩

end Value

end ObjectQuery
