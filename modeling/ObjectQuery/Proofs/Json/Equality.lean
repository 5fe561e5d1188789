import Mathlib.Data.List.Perm.Subperm
import Mathlib.Data.List.Nodup
import ObjectQuery.Proofs.Decimal.Order
import ObjectQuery.Proofs.Json.Abridged
import ObjectQuery.Proofs.Success

/-!
# Equality of JSON values

Two objects are the same when they have the same members, whatever the order of
these. The comparison looks up the members of one side by their names in the
other, after it has counted both. Where a name repeats, a member may so be
passed over; but where none does, the objects are the same exactly if each name
has the same value in both, or none in either.

So sameness is transitive on all values. It is symmetric where no name repeats,
and it is reflexive if there is no double inside either, since NaN is not equal
to itself.

## Main definitions

* `Json.IsProper` — no object in a value repeats a name.
* `Json.HoldsFloat` — there is a double in a value.

## Main results

* `Json.same_object_iff` — when two objects are the same.
* `Json.same_refl`, `Json.same_symm`, `Json.same_trans` — sameness is an equality.
* `Json.isProper_merged` — merging repeated members leaves no name repeated.
-/

namespace ObjectQuery.Json

/-- No object in the value repeats a name. -/
inductive IsProper : Json → Prop
  | null : IsProper .null
  | bool (b : Bool) : IsProper (.bool b)
  | integer (n : Int) : IsProper (.integer n)
  | float (x : Float) : IsProper (.float x)
  | string (s : String) : IsProper (.string s)
  | array {items : List Json} (h : ∀ item ∈ items, IsProper item) : IsProper (.array items)
  | object {members : List (String × Json)} (hdistinct : Distinct members)
    (h : ∀ member ∈ members, IsProper member.2) : IsProper (.object members)

/-- There is a double in the value. -/
inductive HoldsFloat : Json → Prop
  | float (x : Float) : HoldsFloat (.float x)
  | array {items : List Json} {item : Json} (hitem : item ∈ items) (h : HoldsFloat item) :
    HoldsFloat (.array items)
  | object {members : List (String × Json)} {member : String × Json} (hmember : member ∈ members)
    (h : HoldsFloat member.2) : HoldsFloat (.object members)

/-! ## Members by name -/

section

variable {α : Type} {members others : List (String × α)} {name : String} {value : α}

theorem mem_of_lookup (h : members.lookup name = some value) : (name, value) ∈ members := by
  induction members with
  | nil => cases h
  | cons member rest ih =>
      obtain ⟨key, other⟩ := member
      rw [List.lookup_cons] at h
      cases hkey : name == key with
      | true =>
          rw [hkey] at h
          obtain rfl := eq_of_beq hkey
          obtain rfl := Option.some.inj h
          exact List.mem_cons_self
      | false =>
          rw [hkey] at h
          exact List.mem_cons_of_mem _ (ih h)

private theorem lookup_eq_none_iff : members.lookup name = none ↔ name ∉ members.map Prod.fst := by
  rw [List.lookup_eq_none_iff, List.mem_map]
  constructor
  · rintro h ⟨member, hmember, rfl⟩
    exact bne_iff_ne.mp (h member hmember) rfl
  · intro h member hmember
    exact bne_iff_ne.mpr fun heq => h ⟨member, hmember, heq.symm⟩

/-- Where no name repeats, every member is found. -/
theorem Distinct.lookup_eq_some_iff (hdistinct : Distinct members) :
    members.lookup name = some value ↔ (name, value) ∈ members := by
  refine ⟨mem_of_lookup, fun h => ?_⟩
  induction members with
  | nil => cases h
  | cons member rest ih =>
      obtain ⟨hfresh, hrest⟩ := List.nodup_cons.mp hdistinct
      obtain ⟨key, other⟩ := member
      rw [List.lookup_cons]
      rcases List.mem_cons.mp h with hfirst | hmember
      · obtain ⟨rfl, rfl⟩ := Prod.mk.inj hfirst
        rw [beq_self_eq_true]
      · have hne : (name == key) = false := by
          rw [beq_eq_false_iff_ne]
          rintro rfl
          exact hfresh (List.mem_map.mpr ⟨_, hmember, rfl⟩)
        rw [hne]
        exact ih hrest hmember

end

/-! ## Lists and objects -/

variable {a b c : Json} {as bs : List Json} {members others : List (String × Json)}

private theorem sameItems_iff :
    sameItems as bs = true ↔ List.Forall₂ (fun a b => a.same b = true) as bs := by
  induction as generalizing bs with
  | nil => cases bs <;> simp [sameItems]
  | cons a as ih => cases bs <;> simp [sameItems, ih]

private theorem sameMembers_iff :
    sameMembers members others = true ↔
      ∀ member ∈ members, ∃ other, others.lookup member.1 = some other ∧
        member.2.same other = true := by
  induction members with
  | nil => simp [sameMembers]
  | cons member rest ih =>
      obtain ⟨name, value⟩ := member
      rw [sameMembers, Bool.and_eq_true, ih, List.forall_mem_cons]
      refine and_congr_left fun _ => ?_
      cases others.lookup name <;> simp

/-- Objects in which no name repeats are the same exactly if they have the same members,
whatever the order of these. -/
theorem same_object_iff (hmembers : Distinct members) (hothers : Distinct others) :
    (object members).same (.object others) = true ↔
      ∀ name, Option.Rel (fun a b => a.same b = true) (members.lookup name)
        (others.lookup name) := by
  rw [same, Bool.and_eq_true, beq_iff_eq, sameMembers_iff]
  constructor
  · rintro ⟨hlength, hsame⟩ name
    -- there are as many names on both sides, so none is missing on the first one
    have hnames : members.map Prod.fst ⊆ others.map Prod.fst := by
      refine List.forall_mem_map.mpr fun member hmember => ?_
      obtain ⟨other, hother, -⟩ := hsame member hmember
      exact List.mem_map.mpr ⟨_, mem_of_lookup hother, rfl⟩
    have hperm : (members.map Prod.fst).Perm (others.map Prod.fst) := by
      refine (List.subperm_of_subset hmembers hnames).perm_of_length_le ?_
      simp only [List.length_map, hlength, Nat.le_refl]
    cases hfound : members.lookup name with
    | some value =>
        obtain ⟨other, hother, hvalue⟩ := hsame _ (mem_of_lookup hfound)
        rw [hother]
        exact .some hvalue
    | none =>
        have hother : others.lookup name = none := by
          rw [lookup_eq_none_iff, ← hperm.mem_iff]
          exact lookup_eq_none_iff.mp hfound
        rw [hother]
        exact .none
  · intro h
    have hnames : ∀ name, name ∈ members.map Prod.fst ↔ name ∈ others.map Prod.fst := by
      intro name
      rw [← not_iff_not, ← lookup_eq_none_iff, ← lookup_eq_none_iff]
      have hname := h name
      generalize members.lookup name = found, others.lookup name = other at hname
      cases hname <;> simp
    constructor
    · have hperm := (List.perm_ext_iff_of_nodup hmembers hothers).mpr hnames
      rw [← List.length_map Prod.fst, hperm.length_eq, List.length_map]
    · intro member hmember
      have hname := h member.1
      rw [hmembers.lookup_eq_some_iff.mpr hmember] at hname
      generalize others.lookup member.1 = found at hname
      cases hname with
      | some hvalue => exact ⟨_, rfl, hvalue⟩

/-! ## An equality -/

/-- A value without doubles is the same as itself. -/
theorem same_refl (hproper : a.IsProper) (hexact : ¬a.HoldsFloat) : a.same a = true := by
  induction hproper with
  | null => rfl
  | bool | integer | string => simp [same]
  | float x => exact absurd (.float x) hexact
  | array _ ih =>
      rw [same, sameItems_iff]
      exact List.forall₂_same.mpr fun item hitem => ih item hitem fun h => hexact (.array hitem h)
  | object hdistinct _ ih =>
      rw [same, beq_self_eq_true, Bool.true_and, sameMembers_iff]
      refine fun member hmember => ⟨member.2, hdistinct.lookup_eq_some_iff.mpr hmember, ?_⟩
      exact ih member hmember fun h => hexact (.object hmember h)

theorem same_symm (ha : a.IsProper) (hb : b.IsProper) (h : a.same b = true) :
    b.same a = true := by
  induction ha generalizing b with
  | null => cases b <;> first | rfl | cases h
  | bool | integer | string => cases b <;> simp_all [same]
  | float x =>
      cases b with
      | float y => exact (Decimal.beq_comm y x).trans h
      | _ => cases h
  | @array as _ ih =>
      cases hb with
      | @array bs hbs =>
          rw [same, sameItems_iff] at h ⊢
          exact forall₂_symm h fun a ha b hb => ih a ha (hbs b hb)
      | _ => cases h
  | @object members hdistinct _ ih =>
      cases hb with
      | @object others hothers hvalues =>
          rw [same_object_iff hdistinct hothers] at h
          rw [same_object_iff hothers hdistinct]
          intro name
          have hname := h name
          generalize hfound : members.lookup name = found,
            hother : others.lookup name = other at hname
          cases hname with
          | none => exact .none
          | some hvalue =>
              exact .some (ih _ (mem_of_lookup hfound) (hvalues _ (mem_of_lookup hother)) hvalue)
      | _ => cases h

/-- Sameness is transitive, also where a name repeats. -/
theorem same_trans {a b c : Json} (hab : a.same b = true) (hbc : b.same c = true) :
    a.same c = true := by
  cases a with
  | null =>
      cases b with
      | null => exact hbc
      | _ => cases hab
  | bool x =>
      cases b with
      | bool y =>
          obtain rfl : x = y := eq_of_beq hab
          exact hbc
      | _ => cases hab
  | integer m =>
      cases b with
      | integer n =>
          obtain rfl : m = n := eq_of_beq hab
          exact hbc
      | _ => cases hab
  | string s =>
      cases b with
      | string t =>
          obtain rfl : s = t := eq_of_beq hab
          exact hbc
      | _ => cases hab
  | float x =>
      cases b with
      | float y =>
          cases c with
          | float z => exact Decimal.beq_trans hab hbc
          | _ => cases hbc
      | _ => cases hab
  | array as =>
      cases b with
      | array bs =>
          cases c with
          | array cs =>
              rw [same, sameItems_iff] at hab hbc ⊢
              refine forall₂_trans hab hbc fun a ha b c hab hbc => ?_
              have := sizeOf_lt_of_mem_items ha
              exact same_trans hab hbc
          | _ => cases hbc
      | _ => cases hab
  | object members =>
      cases b with
      | object others =>
          cases c with
          | object third =>
              rw [same, Bool.and_eq_true, beq_iff_eq, sameMembers_iff] at hab hbc ⊢
              refine ⟨hab.1.trans hbc.1, fun member hmember => ?_⟩
              obtain ⟨other, hother, hsame⟩ := hab.2 member hmember
              obtain ⟨last, hlast, hsame'⟩ := hbc.2 _ (mem_of_lookup hother)
              have := sizeOf_lt_of_mem_members hmember
              exact ⟨last, hlast, same_trans hsame hsame'⟩
          | _ => cases hbc
      | _ => cases hab
termination_by sizeOf a

/-! ## Merging -/

private theorem mem_setMember {name : String} {value : Json} {member : String × Json}
    (h : member ∈ setMember name value members) : member.2 = value ∨ member ∈ members := by
  induction members with
  | nil => exact .inl (congrArg Prod.snd (List.mem_singleton.mp h))
  | cons first rest ih =>
      obtain ⟨key, old⟩ := first
      rw [setMember] at h
      split at h
      · rcases List.mem_cons.mp h with rfl | h
        · exact .inl rfl
        · exact .inr (List.mem_cons_of_mem _ h)
      · rcases List.mem_cons.mp h with rfl | h
        · exact .inr List.mem_cons_self
        · exact (ih h).imp_right (List.mem_cons_of_mem _)

private theorem keys_setMember (name : String) (value : Json) (members : List (String × Json)) :
    (setMember name value members).map Prod.fst =
      if name ∈ members.map Prod.fst then members.map Prod.fst
      else members.map Prod.fst ++ [name] := by
  induction members with
  | nil => rfl
  | cons first rest ih =>
      obtain ⟨key, old⟩ := first
      rw [setMember]
      by_cases hkey : key = name
      · simp [hkey]
      · rw [if_neg hkey, List.map_cons, ih]
        by_cases hname : name ∈ rest.map Prod.fst
        · simp [hname]
        · simp [hname, Ne.symm hkey]

private theorem Distinct.setMember (hdistinct : Distinct members) (name : String) (value : Json) :
    Distinct (setMember name value members) := by
  unfold Distinct
  rw [keys_setMember]
  split
  · exact hdistinct
  · next hfresh =>
      rw [← List.concat_eq_append]
      exact List.Nodup.concat hfresh hdistinct

/-- Where proper values are merged, no name repeats afterwards. -/
theorem isProper_mergeMembers (h : ∀ member ∈ members, member.2.IsProper) :
    (object (mergeMembers members)).IsProper := by
  have hfold : ∀ done : List (String × Json),
      Distinct done → (∀ member ∈ done, member.2.IsProper) →
        (object (members.foldl (fun done member =>
          setMember member.1 member.2 done) done)).IsProper := by
    induction members with
    | nil => exact fun done hdistinct hdone => .object hdistinct hdone
    | cons first rest ih =>
        intro done hdistinct hdone
        obtain ⟨hfirst, hrest⟩ := List.forall_mem_cons.mp h
        refine ih hrest _ (hdistinct.setMember first.1 first.2) fun member hmember => ?_
        rcases mem_setMember hmember with hvalue | hmember
        · rw [hvalue]
          exact hfirst
        · exact hdone member hmember
  exact hfold [] List.nodup_nil fun _ hmember => nomatch hmember

mutual

/-- Once repeated members are merged, no name repeats. -/
theorem isProper_merged : ∀ j : Json, j.merged.IsProper
  | .null => .null
  | .bool b => .bool b
  | .integer n => .integer n
  | .float x => .float x
  | .string s => .string s
  | .array items => .array (isProper_mergedItems items)
  | .object members => isProper_mergeMembers (isProper_mergedMembers members)

theorem isProper_mergedItems : ∀ items : List Json, ∀ item ∈ mergedItems items, item.IsProper
  | [], _, h => nomatch h
  | item :: rest, other, h => by
      rcases List.mem_cons.mp h with rfl | h
      · exact isProper_merged item
      · exact isProper_mergedItems rest other h

theorem isProper_mergedMembers :
    ∀ members : List (String × Json), ∀ member ∈ mergedMembers members, member.2.IsProper
  | [], _, h => nomatch h
  | (name, value) :: rest, other, h => by
      rcases List.mem_cons.mp h with rfl | h
      · exact isProper_merged value
      · exact isProper_mergedMembers rest other h

end

end ObjectQuery.Json
