import Mathlib.Data.List.Forall2
import ObjectQuery.Json.Shape

/-!
# Objects whose members are moved or left out

Who reads an object asks for its members by name. What the object says is
therefore the set of its members, as long as no name repeats: their order
does not matter, and neither do members that need not be there.

The members of a query model other than its main source need not be there
when they say nothing, that is, when they are null or an empty list. One
JSON value is an *abridgement* of another if it comes from it by leaving
out any number of such members, at any depth, and by writing the members of
any objects in another order.

## Main definitions

* `Json.Abridged` — a value and an abridgement of it.

## Main results

* `Json.record?_object` — a record in an object is read by the names of its
  members.
* `Json.Abridged.members_of_model`, `Json.Abridged.fields` — what becomes of
  the members of an object.
* `Json.Abridged.refl` — every value abridges itself.
-/

namespace ObjectQuery.Json

/-! ## Members by name -/

section

variable {α : Type} {members : List (String × α)} {name : String} {value : α}

/-- No name repeats. -/
def Distinct (members : List (String × α)) : Prop := (members.map Prod.fst).Nodup

private theorem findMember_eq_none (h : name ∉ members.map Prod.fst) :
    findMember members name = some none := by
  have hnone : members.filter (·.1 = name) = [] := by
    rw [List.filter_eq_nil_iff]
    intro member hmember heq
    exact h (List.mem_map.mpr ⟨member, hmember, of_decide_eq_true heq⟩)
  rw [findMember, hnone]

private theorem findMember_eq_some (hdistinct : Distinct members) (h : (name, value) ∈ members) :
    findMember members name = some (some value) := by
  have hone : members.filter (·.1 = name) = [(name, value)] := by
    induction members with
    | nil => cases h
    | cons member rest ih =>
        obtain ⟨hfresh, hrest⟩ := List.nodup_cons.mp hdistinct
        rcases List.mem_cons.mp h with rfl | h
        · rw [List.filter_cons_of_pos (by simp), List.filter_eq_nil_iff.mpr]
          intro other hother heq
          exact hfresh (List.mem_map.mpr ⟨other, hother, of_decide_eq_true heq⟩)
        · have hne : member.1 ≠ name := fun heq =>
            hfresh (List.mem_map.mpr ⟨_, h, heq.symm⟩)
          rw [List.filter_cons_of_neg (by simpa using hne), ih hrest h]
  rw [findMember, hone]

end

/-! ## Records -/

/-- The members of an object with the proofs that they are smaller. -/
def parts (members : List (String × Json)) : List (String × (Json.object members).Part) :=
  members.attach.map fun ⟨(name, value), h⟩ => (name, ⟨value, sizeOf_lt_of_mem_members h⟩)

/-- The member of that name in an object in which no name repeats. -/
def field? (members : List (String × Json)) (name : String) :
    Option (Json.object members).Part :=
  (findMember (parts members) name).join

section

variable {members : List (String × Json)} {name : String} {value : Json}

private theorem parts_keys : (parts members).map Prod.fst = members.map Prod.fst := by
  rw [parts, List.map_map]
  exact List.attach_map_val (f := Prod.fst)

private theorem mem_parts (h : (name, value) ∈ members) :
    (name, ⟨value, sizeOf_lt_of_mem_members h⟩) ∈ parts members :=
  List.mem_map.mpr ⟨⟨(name, value), h⟩, List.mem_attach _ _, rfl⟩

theorem field?_of_mem (hdistinct : Distinct members) (h : (name, value) ∈ members) :
    field? members name = some ⟨value, sizeOf_lt_of_mem_members h⟩ := by
  have hparts : Distinct (parts members) := by rwa [Distinct, parts_keys]
  rw [field?, findMember_eq_some hparts (mem_parts h)]
  rfl

theorem field?_of_not_mem (h : name ∉ members.map Prod.fst) : field? members name = none := by
  rw [field?, findMember_eq_none (by rwa [parts_keys])]
  rfl

/-- A record that is written as an object in which no name repeats is read
member by member. -/
theorem record?_object (hdistinct : Distinct members) (required trailing : List String) :
    (Json.object members).record? required trailing =
      some ((required ++ trailing).map (field? members)) := by
  have hfind : ∀ name, findMember (parts members) name = some (field? members name) := by
    intro name
    by_cases hname : name ∈ members.map Prod.fst
    · obtain ⟨⟨_, value⟩, hmem, rfl⟩ := List.mem_map.mp hname
      have hparts : Distinct (parts members) := by rwa [Distinct, parts_keys]
      rw [field?, findMember_eq_some hparts (mem_parts hmem)]
      rfl
    · rw [field?, findMember_eq_none (by rwa [parts_keys])]
      rfl
  have hfields : (Json.object members).fields? (required ++ trailing) =
      some ((required ++ trailing).map (field? members)) := by
    change (required ++ trailing).mapM (findMember (parts members)) = _
    rw [funext hfind]
    exact List.mapM_pure
  rw [record?, hfields]

end

/-! ## Lists -/

/-- The items of a list with the proofs that they are smaller. -/
def itemParts (items : List Json) : List (Json.array items).Part :=
  items.attach.map fun ⟨item, h⟩ => ⟨item, sizeOf_lt_of_mem_items h⟩

theorem items?_array (items : List Json) : (Json.array items).items? = some (itemParts items) :=
  rfl

private theorem mapM_itemParts {α : Type} (items : List Json) (read : Json → Option α) :
    ((itemParts items).mapM fun part => read part.1) = items.mapM read := by
  have hparts : ((itemParts items).map fun part => part.1) = items := by
    rw [itemParts, List.map_map]
    exact List.attach_map_subtype_val items
  conv_rhs => rw [← hparts, List.mapM_map]
  rfl

/-! ## Abridgements -/

/-- The members of a model that need not be there. -/
def dispensable : List String :=
  ["joins", "where_clause", "having", "orderings", "select", "result_operators"]

/-- Whether a value is null or an empty list. -/
def saysNothing : Json → Bool
  | .null | .array [] => true
  | _ => false

/-- Whether an object with these members is a query model, which alone has a
main source. -/
def isModel (members : List (String × Json)) : Bool :=
  (members.map Prod.fst).contains "main_from"

mutual

/-- The second value is the first one without some members of models that
say nothing, and with the members of objects in any order. -/
inductive Abridged : Json → Json → Prop
  | null : Abridged .null .null
  | bool (b : Bool) : Abridged (.bool b) (.bool b)
  | integer (n : Int) : Abridged (.integer n) (.integer n)
  | float (x : Float) : Abridged (.float x) (.float x)
  | string (s : String) : Abridged (.string s) (.string s)
  | array {items items' : List Json} : AbridgedItems items items' →
    Abridged (.array items) (.array items')
  | object {members kept members' : List (String × Json)} :
    AbridgedMembers (isModel members) members kept → kept.Perm members' →
    Abridged (.object members) (.object members')

/-- The items of a list, abridged one by one. -/
inductive AbridgedItems : List Json → List Json → Prop
  | nil : AbridgedItems [] []
  | cons {item item' : Json} {rest rest' : List Json} : Abridged item item' →
    AbridgedItems rest rest' → AbridgedItems (item :: rest) (item' :: rest')

/-- The members of an object, abridged one by one or, in a model, left
out. -/
inductive AbridgedMembers : Bool → List (String × Json) → List (String × Json) → Prop
  | nil {model : Bool} : AbridgedMembers model [] []
  | keep {model : Bool} {name : String} {value value' : Json}
    {rest rest' : List (String × Json)} : Abridged value value' →
    AbridgedMembers model rest rest' →
    AbridgedMembers model ((name, value) :: rest) ((name, value') :: rest')
  | leaveOut {model : Bool} {name : String} {value : Json}
    {rest rest' : List (String × Json)} : model = true → name ∈ dispensable →
    value.saysNothing = true → AbridgedMembers model rest rest' →
    AbridgedMembers model ((name, value) :: rest) rest'

end

mutual

/-- Every value abridges itself. -/
theorem Abridged.refl : ∀ j : Json, Abridged j j
  | .null => .null
  | .bool b => .bool b
  | .integer n => .integer n
  | .float x => .float x
  | .string s => .string s
  | .array items => .array (AbridgedItems.refl items)
  | .object members => .object (AbridgedMembers.refl _ members) (.refl members)

theorem AbridgedItems.refl : ∀ items : List Json, AbridgedItems items items
  | [] => .nil
  | item :: rest => .cons (Abridged.refl item) (AbridgedItems.refl rest)

theorem AbridgedMembers.refl (model : Bool) :
    ∀ members : List (String × Json), AbridgedMembers model members members
  | [] => .nil
  | (_, value) :: rest => .keep (Abridged.refl value) (AbridgedMembers.refl model rest)

end

/-- A list whose items are read back from their abridgements is read back
from its own. -/
theorem AbridgedItems.mapM {α : Type} {encode : α → Json} {read : Json → Option α}
    {values : List α} {items : List Json}
    (hread : ∀ value ∈ values, ∀ j, Abridged (encode value) j → read j = some value)
    (h : AbridgedItems (values.map encode) items) : items.mapM read = some values := by
  induction values generalizing items with
  | nil => cases h; rfl
  | cons value rest ih =>
      obtain ⟨hfirst, hrest⟩ := List.forall_mem_cons.mp hread
      cases h with
      | cons hitem h =>
          rw [List.mapM_cons, hfirst _ hitem, ih hrest h]
          rfl

/-- Among these members is one of that name that abridges the value. -/
def Remains (members : List (String × Json)) (name : String) (value : Json) : Prop :=
  ∃ value', (name, value') ∈ members ∧ Abridged value value'

/-- A member of an object is still there in an abridgement, abridged itself,
unless it is one that a model need not have. -/
theorem AbridgedMembers.cases {model : Bool} {members kept : List (String × Json)}
    (h : AbridgedMembers model members kept) (hdistinct : Distinct members) :
    (kept.map Prod.fst).Sublist (members.map Prod.fst) ∧
      ∀ name value, (name, value) ∈ members →
        Remains kept name value ∨
          model = true ∧ name ∈ dispensable ∧ value.saysNothing = true ∧
            name ∉ kept.map Prod.fst := by
  induction members generalizing kept with
  | nil => cases h; exact ⟨.slnil, nofun⟩
  | cons member rest ih =>
      obtain ⟨hfresh, hrest⟩ := List.nodup_cons.mp hdistinct
      cases h with
      | @keep _ name value value' _ rest' hvalue h =>
          obtain ⟨hsub, hmembers⟩ := ih h hrest
          refine ⟨hsub.cons_cons name, fun other otherValue hmem => ?_⟩
          rcases List.mem_cons.mp hmem with heq | hmem
          · obtain ⟨rfl, rfl⟩ := Prod.mk.inj heq
            exact .inl ⟨value', List.mem_cons_self, hvalue⟩
          · have hne : other ≠ name := fun heq => hfresh (List.mem_map.mpr ⟨_, hmem, heq⟩)
            rcases hmembers other otherValue hmem with
              ⟨value', hkept, hvalue'⟩ | ⟨hmodel, hname, hnothing, hgone⟩
            · exact .inl ⟨value', List.mem_cons_of_mem _ hkept, hvalue'⟩
            · exact .inr ⟨hmodel, hname, hnothing, by simpa [hne] using hgone⟩
      | leaveOut hmodel hname hnothing h =>
          obtain ⟨hsub, hmembers⟩ := ih h hrest
          refine ⟨hsub.cons _, fun other otherValue hmem => ?_⟩
          rcases List.mem_cons.mp hmem with heq | hmem
          · obtain ⟨rfl, rfl⟩ := Prod.mk.inj heq
            exact .inr ⟨hmodel, hname, hnothing, fun hkept => hfresh (hsub.subset hkept)⟩
          · exact hmembers other otherValue hmem

/-- Members that an object has, abridged, are found in it by their names. -/
theorem map_field? {members' wanted : List (String × Json)} (hdistinct : Distinct members')
    (h : ∀ name value, (name, value) ∈ wanted → Remains members' name value) :
    ∃ (values : List Json) (hsmall : ∀ value ∈ values, sizeOf value < sizeOf (object members')),
      (wanted.map Prod.fst).map (field? members') =
          values.pmap (fun value hless => some ⟨value, hless⟩) hsmall ∧
        List.Forall₂ Abridged (wanted.map Prod.snd) values := by
  induction wanted with
  | nil => exact ⟨[], nofun, rfl, .nil⟩
  | cons member rest ih =>
      obtain ⟨name, value⟩ := member
      obtain ⟨value', hmem, hvalue⟩ := h name value List.mem_cons_self
      obtain ⟨values, hsmall, hfields, hvalues⟩ :=
        ih fun name value hrest => h name value (List.mem_cons_of_mem _ hrest)
      refine ⟨value' :: values, List.forall_mem_cons.mpr ⟨sizeOf_lt_of_mem_members hmem, hsmall⟩,
        ?_, .cons hvalue hvalues⟩
      rw [List.map_cons, List.map_cons, hfields, field?_of_mem hdistinct hmem, List.pmap_cons]

namespace Abridged

variable {members : List (String × Json)} {j : Json}

/-- What becomes of the members of an object in an abridgement: each is
still there, abridged itself, unless it is one that a model need not have. -/
theorem members_of_model (h : Abridged (.object members) j) (hdistinct : Distinct members) :
    ∃ members', j = .object members' ∧ Distinct members' ∧
      ∀ name value, (name, value) ∈ members →
        Remains members' name value ∨
          isModel members = true ∧ name ∈ dispensable ∧ value.saysNothing = true ∧
            name ∉ members'.map Prod.fst := by
  cases h with
  | @object _ kept members' h hperm =>
      obtain ⟨hsub, hmembers⟩ := h.cases hdistinct
      have hnames := hperm.map Prod.fst
      refine ⟨members', rfl, hnames.nodup_iff.mp (hdistinct.sublist hsub), ?_⟩
      simpa only [Remains, hperm.mem_iff, hnames.mem_iff] using hmembers

/-- A record that is no model is read with all its members, each of them
abridged. -/
theorem record (h : Abridged (.object members) j) (names : List String)
    (hnames : members.map Prod.fst = names) (hdistinct : names.Nodup)
    (hmodel : "main_from" ∉ names) :
    ∃ (values : List Json) (hsmall : ∀ value ∈ values, sizeOf value < sizeOf j),
      j.record? names [] =
          some (values.pmap (fun value hless => some ⟨value, hless⟩) hsmall) ∧
        List.Forall₂ Abridged (members.map Prod.snd) values := by
  subst hnames
  have hother : isModel members = false := by
    simpa only [isModel, List.contains_eq_mem, decide_eq_false_iff_not] using hmodel
  obtain ⟨members', rfl, hdistinct', hmembers⟩ := h.members_of_model hdistinct
  have hkept : ∀ name value, (name, value) ∈ members → Remains members' name value := by
    intro name value hmem
    simpa only [hother, Bool.false_eq_true, false_and, or_false] using hmembers name value hmem
  obtain ⟨values, hsmall, hfields, hvalues⟩ := map_field? hdistinct' hkept
  rw [record?_object hdistinct', List.append_nil, hfields]
  exact ⟨values, hsmall, rfl, hvalues⟩

/-- A case with content stays that case. -/
theorem variant {name : String} {content : Json} (h : Abridged (.object [(name, content)]) j)
    (hmodel : name ≠ "main_from") :
    ∃ content', j = .object [(name, content')] ∧ Abridged content content' := by
  cases h with
  | object h hperm =>
      cases h with
      | keep hcontent h =>
          cases h
          obtain rfl := List.perm_singleton.mp hperm.symm
          exact ⟨_, rfl, hcontent⟩
      | leaveOut hmain =>
          have hname : "main_from" = name := by simpa [isModel] using hmain
          exact absurd hname.symm hmodel

/-- A list stays a list, and is read back if its items are. -/
theorem list {α : Type} {encode : α → Json} {read : Json → Option α} {values : List α}
    (h : Abridged (.array (values.map encode)) j)
    (hread : ∀ value ∈ values, ∀ j, Abridged (encode value) j → read j = some value) :
    ∃ items, j = .array items ∧
      ((itemParts items).mapM fun part => read part.1) = some values := by
  cases h with
  | @array _ items h =>
      exact ⟨items, rfl, (mapM_itemParts items read).trans (h.mapM hread)⟩

/-- A case whose content is a record stays that case. -/
theorem recordCase {name : String} (h : Abridged (.object [(name, .object members)]) j)
    (names : List String) (hnames : members.map Prod.fst = names) (hdistinct : names.Nodup)
    (hmodel : "main_from" ∉ name :: names) :
    ∃ (content : Json) (values : List Json)
      (hsmall : ∀ value ∈ values, sizeOf value < sizeOf content),
      j = .object [(name, content)] ∧
        content.record? names [] =
            some (values.pmap (fun value hless => some ⟨value, hless⟩) hsmall) ∧
          List.Forall₂ Abridged (members.map Prod.snd) values := by
  obtain ⟨hname, hmodel⟩ := not_or.mp (mt List.mem_cons.mpr hmodel)
  obtain ⟨content, rfl, hcontent⟩ := h.variant (Ne.symm hname)
  obtain ⟨values, hsmall, hrecord, hvalues⟩ := hcontent.record names hnames hdistinct hmodel
  exact ⟨content, values, hsmall, rfl, hrecord, hvalues⟩

end Abridged

end ObjectQuery.Json
