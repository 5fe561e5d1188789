import ObjectQuery.Proofs.Decimal.Finite
import ObjectQuery.Json.Reader

/-!
# What a text is read as

A text is read as a value that is built from what its tokens stand for: words,
numbers and strings, put together to arrays and objects. So a class of values
has every value that is read, if it has these and, with some values, also the
array and the object of them. The machine that puts tokens together starts
with nothing at hand, and a step adds only what is built from what the machine
holds and from the token.

One such class are the values whose doubles are all finite. A numeral beyond the
doubles has no value, and no numeral stands for NaN.

## Main definitions

* `ClosedUnderReading` — a class of values of this kind.
* `IsFinite` — every double in a value is finite.

## Main results

* `ClosedUnderReading.holds` — what is read is of the class.
* `isFinite_of_readWith?` — no double that is read is infinite or NaN.
-/

namespace ObjectQuery.Json

/-- A class of values that has what words, numerals and strings stand for, and with some values
also the array and the object of them. -/
structure ClosedUnderReading (P : Json → Prop) : Prop where
  null : P .null
  bool (b : Bool) : P (.bool b)
  number {numeral : Numeral} {value : Json} (h : numeral.value? = some value) : P value
  string (s : String) : P (.string s)
  array {items : List Json} (h : ∀ item ∈ items, P item) : P (.array items)
  object {members : List (String × Json)} (h : ∀ member ∈ members, P member.2) :
    P (.object members)

section

variable {P : Json → Prop}

/-! ## Tokens -/

/-- The value of a token is of the class, if the token has one. -/
def Token.LiesIn (P : Json → Prop) (token : Token) : Prop :=
  ∀ value, token = .scalar (some value) → P value

private theorem liesIn_of_bracket? {c : Char} {token : Token} (h : bracket? c = some token) :
    token.LiesIn P := by
  rintro value rfl
  unfold bracket? at h
  split at h <;> cases h

namespace ClosedUnderReading

variable (hP : ClosedUnderReading P)
include hP

private theorem of_word? {letters : List Char} {value : Json} (h : word? letters = some value) :
    P value := by
  unfold word? at h
  split at h
  · exact Option.some.inj h ▸ hP.null
  split at h
  · exact Option.some.inj h ▸ hP.bool true
  split at h
  · exact Option.some.inj h ▸ hP.bool false
  · cases h

private theorem of_tokenize {cs : List Char} {tokens : List Token} (h : tokenize cs = some tokens) :
    ∀ token ∈ tokens, token.LiesIn P := by
  fun_induction tokenize cs generalizing tokens with
  | case1 =>
      obtain rfl := Option.some.inj h
      nofun
  | case2 c cs _ ih => exact ih h
  | case3 c cs _ token hbracket ih =>
      obtain ⟨rest, hrest, rfl⟩ := Option.map_eq_some_iff.mp h
      exact List.forall_mem_cons.mpr ⟨liesIn_of_bracket? hbracket, ih hrest⟩
  | case4 => cases h
  | case5 cs units rest _ _ _ ih =>
      obtain ⟨others, hothers, h⟩ := Option.bind_eq_some_iff.mp h
      obtain rfl := Option.some.inj h
      exact List.forall_mem_cons.mpr ⟨nofun, ih hothers⟩
  | case6 c cs _ _ _ _ ih =>
      obtain ⟨numeral, -, h⟩ := Option.bind_eq_some_iff.mp h
      obtain ⟨others, hothers, h⟩ := Option.bind_eq_some_iff.mp h
      obtain rfl := Option.some.inj h
      have hnumber : (Token.scalar numeral.value?).LiesIn P :=
        fun _ hvalue => hP.number (Token.scalar.inj hvalue)
      exact List.forall_mem_cons.mpr ⟨hnumber, ih hothers⟩
  | case7 c cs _ _ _ _ ih =>
      obtain ⟨value, hword, h⟩ := Option.bind_eq_some_iff.mp h
      obtain ⟨others, hothers, h⟩ := Option.bind_eq_some_iff.mp h
      obtain rfl := Option.some.inj h
      have hvalue : (Token.scalar (some value)).LiesIn P := by
        rintro _ ⟨rfl⟩
        exact hP.of_word? hword
      exact List.forall_mem_cons.mpr ⟨hvalue, ih hothers⟩

end ClosedUnderReading

/-! ## The machine -/

/-- The items of an array are of the class, if the array is not out of reach. -/
def Items.LieIn (P : Json → Prop) (items : Items) : Prop :=
  ∀ found, items = some found → ∀ item ∈ found, P item

/-- The members of an object are of the class, if the object is not out of reach. -/
def Members.LieIn (P : Json → Prop) (members : Members) : Prop :=
  ∀ found, members = some found → ∀ member ∈ found, P member.2

/-- What an open array or object holds so far is of the class. -/
def Open.LiesIn (P : Json → Prop) : Open → Prop
  | .array items => items.LieIn P
  | .object members _ => members.LieIn P

/-- What the machine has at hand is of the class. -/
def Expecting.LiesIn (P : Json → Prop) : Expecting → Prop
  | .value | .itemOrEnd | .nameOrEnd => True
  | .name members | .colon members _ => members.LieIn P
  | .after found => ∀ j, found = some j → P j

/-- All that the machine holds is of the class. -/
structure Progress.LiesIn (P : Json → Prop) (p : Progress) : Prop where
  stack : ∀ opened ∈ p.stack, opened.LiesIn P
  expecting : p.expecting.LiesIn P

variable {reading : Reading} {members : Members} {items : Items} {value : Option Json}

private theorem Items.LieIn.add (h : items.LieIn P) (hvalue : ∀ j, value = some j → P j) :
    (items.add value).LieIn P := by
  intro found hfound
  obtain ⟨item, hitem, hfound⟩ := Option.bind_eq_some_iff.mp hfound
  obtain ⟨others, hothers, hfound⟩ := Option.bind_eq_some_iff.mp hfound
  obtain rfl := Option.some.inj hfound
  exact List.forall_mem_cons.mpr ⟨hvalue item hitem, h others hothers⟩

private theorem eq_nil_of_opened {α : Type} {stack : List Open} {found : List α}
    (h : reading.opened stack = some found) : found = [] := by
  unfold Reading.opened at h
  split at h
  · exact (Option.some.inj h).symm
  · cases h

namespace ClosedUnderReading

variable (hP : ClosedUnderReading P)
include hP

private theorem add (h : members.LieIn P) (hvalue : ∀ j, value = some j → P j)
    (name : Option String) :
    (members.add reading name value).LieIn P := by
  intro found hfound
  obtain ⟨others, hothers, hfound⟩ := Option.bind_eq_some_iff.mp hfound
  obtain ⟨name, -, hfound⟩ := Option.bind_eq_some_iff.mp hfound
  have hrest := h others hothers
  split at hfound
  · obtain rfl := Option.some.inj hfound
    exact List.forall_mem_cons.mpr ⟨hvalue _ rfl, hrest⟩
  · -- a value out of reach leaves two members behind that are null
    split at hfound
    · cases hfound
    · obtain rfl := Option.some.inj hfound
      exact List.forall_mem_cons.mpr ⟨hP.null, List.forall_mem_cons.mpr ⟨hP.null, hrest⟩⟩

private theorem closeArray (h : items.LieIn P) {order : List Json → List Json}
    (horder : ∀ found, order found ⊆ found) :
    ∀ j, (items.map fun found => .array (order found)) = some j → P j := by
  intro j hj
  obtain ⟨found, hfound, rfl⟩ := Option.map_eq_some_iff.mp hj
  exact hP.array fun item hitem => h found hfound item (horder found hitem)

private theorem closeObject (h : members.LieIn P)
    {order : List (String × Json) → List (String × Json)} (horder : ∀ found, order found ⊆ found) :
    ∀ j, (members.map fun found => .object (order found)) = some j → P j := by
  intro j hj
  obtain ⟨found, hfound, rfl⟩ := Option.map_eq_some_iff.mp hj
  exact hP.object fun member hmember => h found hfound member (horder found hmember)

private theorem of_beginValue {stack : List Open} {token : Token} {p : Progress}
    (hstack : ∀ opened ∈ stack, opened.LiesIn P) (htoken : token.LiesIn P)
    (h : Progress.beginValue reading stack token = some p) : p.LiesIn P := by
  unfold Progress.beginValue at h
  split at h
  · obtain rfl := Option.some.inj h
    refine ⟨hstack, fun j hj => ?_⟩
    obtain ⟨s, -, rfl⟩ := Option.map_eq_some_iff.mp hj
    exact hP.string s
  · obtain rfl := Option.some.inj h
    exact ⟨hstack, fun j hj => htoken j (congrArg _ hj)⟩
  · obtain rfl := Option.some.inj h
    refine ⟨List.forall_mem_cons.mpr ⟨fun found hfound => ?_, hstack⟩, trivial⟩
    rw [eq_nil_of_opened hfound]
    nofun
  · obtain rfl := Option.some.inj h
    refine ⟨List.forall_mem_cons.mpr ⟨fun found hfound => ?_, hstack⟩, trivial⟩
    rw [eq_nil_of_opened hfound]
    nofun
  · cases h

/-- A step keeps all of the class that the machine holds. -/
theorem step {p p' : Progress} {token : Token} (hp : p.LiesIn P) (htoken : token.LiesIn P)
    (h : p.step reading token = some p') : p'.LiesIn P := by
  obtain ⟨stack, expecting⟩ := p
  obtain ⟨hstack, hexpecting⟩ := hp
  dsimp only at hstack hexpecting
  have hitems : ∀ found : List Json, found.reverse ⊆ found := fun _ _ => List.mem_reverse.mp
  have hmembers : ∀ found : List (String × Json), found.reverse ⊆ found :=
    fun _ _ => List.mem_reverse.mp
  unfold Progress.step at h
  dsimp only at h
  split at h
  · exact hP.of_beginValue hstack htoken h
  · -- the end of an array without items
    obtain rfl := Option.some.inj h
    obtain ⟨hopened, hrest⟩ := List.forall_mem_cons.mp hstack
    exact ⟨hrest, hP.closeArray hopened fun _ => List.Subset.refl _⟩
  · exact hP.of_beginValue hstack htoken h
  · -- the end of an object without members
    obtain rfl := Option.some.inj h
    obtain ⟨hopened, hrest⟩ := List.forall_mem_cons.mp hstack
    exact ⟨hrest, hP.closeObject hopened fun _ => List.Subset.refl _⟩
  · -- the names of a first and of a later member, and the colon after a name
    obtain rfl := Option.some.inj h
    obtain ⟨hopened, hrest⟩ := List.forall_mem_cons.mp hstack
    exact ⟨hrest, hopened⟩
  · obtain rfl := Option.some.inj h
    exact ⟨hstack, hexpecting⟩
  · obtain rfl := Option.some.inj h
    exact ⟨List.forall_mem_cons.mpr ⟨hexpecting, hstack⟩, trivial⟩
  · -- the comma or the end after an item
    obtain rfl := Option.some.inj h
    obtain ⟨hopened, hrest⟩ := List.forall_mem_cons.mp hstack
    exact ⟨List.forall_mem_cons.mpr ⟨Items.LieIn.add hopened hexpecting, hrest⟩, trivial⟩
  · obtain rfl := Option.some.inj h
    obtain ⟨hopened, hrest⟩ := List.forall_mem_cons.mp hstack
    exact ⟨hrest, hP.closeArray (Items.LieIn.add hopened hexpecting) hitems⟩
  · -- the comma or the end after a member
    obtain rfl := Option.some.inj h
    obtain ⟨hopened, hrest⟩ := List.forall_mem_cons.mp hstack
    exact ⟨hrest, hP.add hopened hexpecting _⟩
  · obtain rfl := Option.some.inj h
    obtain ⟨hopened, hrest⟩ := List.forall_mem_cons.mp hstack
    exact ⟨hrest, hP.closeObject (hP.add hopened hexpecting _) hmembers⟩
  · cases h

private theorem run {tokens : List Token} {p p' : Progress} (hp : p.LiesIn P)
    (htokens : ∀ token ∈ tokens, token.LiesIn P)
    (h : tokens.foldlM (Progress.step reading) p = some p') : p'.LiesIn P := by
  induction tokens generalizing p with
  | nil =>
      obtain rfl := Option.some.inj h
      exact hp
  | cons token rest ih =>
      obtain ⟨htoken, hrest⟩ := List.forall_mem_cons.mp htokens
      rw [List.foldlM_cons] at h
      obtain ⟨next, hnext, h⟩ := Option.bind_eq_some_iff.mp h
      exact ih (hP.step hp htoken hnext) hrest h

/-- What is read is of the class. -/
theorem holds {text : String} {j : Json} (h : readWith? reading text = some j) : P j := by
  obtain ⟨tokens, htokens, h⟩ := Option.bind_eq_some_iff.mp h
  obtain ⟨p, hrun, h⟩ := Option.bind_eq_some_iff.mp h
  have hstart : Progress.start.LiesIn P := ⟨nofun, trivial⟩
  obtain ⟨-, hexpecting⟩ := hP.run hstart (hP.of_tokenize htokens) hrun
  unfold Progress.result? at h
  split at h
  · exact hexpecting j h
  · cases h

end ClosedUnderReading

end

/-! ## Finite values -/

/-- Every double in the value is finite. -/
inductive IsFinite : Json → Prop
  | null : IsFinite .null
  | bool (b : Bool) : IsFinite (.bool b)
  | integer (n : Int) : IsFinite (.integer n)
  | float {x : Float} (h : x.isFinite = true) : IsFinite (.float x)
  | string (s : String) : IsFinite (.string s)
  | array {items : List Json} (h : ∀ item ∈ items, IsFinite item) : IsFinite (.array items)
  | object {members : List (String × Json)} (h : ∀ member ∈ members, IsFinite member.2) :
    IsFinite (.object members)

private theorem takeDigits_le {significand : Nat} (h : significand ≤ maxSignificand)
    (digits : List Char) :
    (takeDigits significand digits).1 ≤ maxSignificand := by
  induction digits generalizing significand with
  | nil => exact h
  | cons c rest ih =>
      rw [takeDigits]
      dsimp only
      split
      · next hnext => exact ih hnext
      · exact h

private theorem Numeral.isFinite_of_float? {numeral : Numeral} {x : Float}
    (h : numeral.float? = some x) : x.isFinite = true := by
  have hwhole := takeDigits_le (Nat.zero_le maxSignificand) numeral.whole
  have hsignificand := takeDigits_le hwhole (numeral.fraction.getD [])
  obtain ⟨magnitude, hscale, rfl⟩ := Option.map_eq_some_iff.mp h
  have hmagnitude := Decimal.isFinite_scale hsignificand hscale
  split
  · exact Decimal.isFinite_neg hmagnitude
  · exact hmagnitude

private theorem closedUnderReading_isFinite : ClosedUnderReading IsFinite where
  null := .null
  bool := .bool
  number := by
    intro numeral value h
    unfold Numeral.value? at h
    split at h
    · obtain rfl := Option.some.inj h
      exact .integer _
    · obtain ⟨x, hx, rfl⟩ := Option.map_eq_some_iff.mp h
      exact .float (Numeral.isFinite_of_float? hx)
  string := .string
  array := .array
  object := .object

/-- No double in a value that was read is infinite or NaN. -/
theorem isFinite_of_readWith? {reading : Reading} {text : String} {j : Json}
    (h : readWith? reading text = some j) : j.IsFinite :=
  closedUnderReading_isFinite.holds h

end ObjectQuery.Json
