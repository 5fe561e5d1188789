import ObjectQuery.Method.Defaults
import ObjectQuery.Proofs.Engine.Follows

/-!
# What a call means

Except for custom ones, a generator looks at two things only: how many
operands it is given, and of each operand whether it is a constant. The node
that it makes is strict in all operands. So the value of a call is a function
of what is *seen* of the operands, their values and the constants among them,
and this function is the meaning of the generator. It does not matter from
which nodes the values come, nor in which order they are found.

## Main definitions

* `Seen` — what is seen of an operand.
* `Generator.meaning` — the value of a call from what is seen of its operands.

## Main results

* `emit_eq_ok_iff`, `emit_meaning` — when a call can be made, and its value.
* `withDefaults_isPlain` — no default handler is a custom one.
-/

namespace ObjectQuery

open Hql (Node)

/-! ## Operands -/

/-- What is seen of an operand: the constant that it is, if it is one, and
its value. -/
structure Seen where
  constant? : Option Literal
  value : Value

/-- What is seen of a node, if it has a value. -/
def Hql.Node.seen? (env : Environment) (scope : Scope) (n : Node) : Option Seen :=
  (n.eval env scope).toOption.map fun v => ⟨n.constant?, v⟩

theorem seen?_bind {α : Type} (env : Environment) (scope : Scope) (n : Node)
    (f : Seen → Option α) :
    (n.seen? env scope >>= f) =
      (n.eval env scope).toOption >>= fun v => f ⟨n.constant?, v⟩ := by
  unfold Hql.Node.seen?
  cases (n.eval env scope).toOption <;> rfl

theorem Hql.Node.Follows.seen? {lax : Bool} {n n' : Node} (h : n.Follows lax n')
    (env : Environment) (scope : Scope) :
    Preserved lax (n.seen? env scope) (n'.seen? env scope) := by
  unfold Hql.Node.seen?
  rw [← h.constant?_eq]
  exact Preserved.map (h.eval env scope) _

namespace Seen

/-- Whether the operand is the null constant. -/
def isNullConstant (s : Seen) : Bool :=
  s.constant?.any Literal.isNull

/-- A text with one special character escaped. -/
def escaped? (text : Value) (special : Char) : Option Value :=
  (Value.call "replace" [text, .string (String.singleton special),
    .string (String.ofList [patternEscape, special])]).toOption

/-- The pattern that matches the operand literally. -/
def pattern? (s : Seen) : Option Value :=
  match s.constant? with
  | some (.string t) => some (.string (String.ofList (escapePattern t.toList)))
  | _ => patternSpecials.foldlM escaped? s.value

/-- Whether one operand matches a pattern made of the other one. -/
def matches? (subject part : Seen) (around : Value → List Value) : Option Value := do
  let pattern ← part.pattern?
  (Value.like (some patternEscape) subject.value (Value.concat (around pattern))).toOption

/-- The equality of two operands, or a test for null where one of them is the
null constant. -/
def equality? (a b : Seen) : Option Value :=
  if a.isNullConstant then some (.boolean b.value.isNull)
  else if b.isNullConstant then some (.boolean a.value.isNull)
  else (Value.binary .equal a.value b.value).toOption

/-- Whether an operand is an element of a collection. -/
def among? (collection item : Seen) : Option Value := do
  let items ← (sourceItems collection.value).toOption
  return if item.value.isNull then .null else .boolean (item.value.isAmong items)

end Seen

/-- Any run of characters, as a part of a pattern. -/
def anyRun : Value := .string "%"

namespace Generator

/-- The number of operands that a generator takes, if it takes a fixed
number. -/
def arity? : Generator → Option Nat
  | .function _ | .custom _ => none
  | .collectionAny | .collectionCount => some 1
  | _ => some 2

/-- Whether a generator can be given so many operands. -/
def Accepts (generator : Generator) (count : Nat) : Prop :=
  ∀ n, generator.arity? = some n → count = n

/-- Whether a generator makes a node of some call with so many operands. -/
def EmitsFor (generator : Generator) (count : Nat) : Prop :=
  ∃ (site : CallSite) (node : Node), site.operands.length = count ∧
    generator.emit site = .ok node

/-- Whether a generator judges a call by the number of its operands: if it makes
a node of some call, it makes one of every call with as many. -/
def JudgesByCount (generator : Generator) : Prop :=
  ∀ site : CallSite, generator.EmitsFor site.operands.length →
    ∃ node, generator.emit site = .ok node

/-- Whether a generator is one of the fixed ones. -/
def isPlain : Generator → Bool
  | .custom _ => false
  | _ => true

/-- The value of a call. -/
def meaning : Generator → List Seen → Option Value
  | .equality, [a, b] => a.equality? b
  | .function name, operands => (Value.call name (operands.map Seen.value)).toOption
  | .startsWith, [a, b] => a.matches? b fun p => [p, anyRun]
  | .endsWith, [a, b] => a.matches? b fun p => [anyRun, p]
  | .stringContains, [a, b] => a.matches? b fun p => [anyRun, p, anyRun]
  | .collectionContains, [a, b] => a.among? b
  | .collectionAny, [a] => (Value.call "exists" [a.value]).toOption
  | .collectionCount, [a] => (Value.call "size" [a.value]).toOption
  | .binary operator, [a, b] => (Value.binary operator a.value b.value).toOption
  | _, _ => none

end Generator

/-! ## Values of nodes -/

section

variable (env : Environment) (scope : Scope)

private theorem Hql.Node.equality_seen (a b : Node) :
    ((a.equality b).eval env scope).toOption =
      a.seen? env scope >>= fun x => b.seen? env scope >>= fun y => x.equality? y := by
  have hnull : ∀ n : Node, n.isNullConstant = true → n.eval env scope = .ok .null := by
    intro n hn
    rw [Hql.Node.isNullConstant_iff.mp hn, Hql.Node.null_eval]
  simp only [seen?_bind, Seen.equality?, Seen.isNullConstant, Hql.Node.equality_eq]
  by_cases ha : a.isNullConstant = true
  · rw [if_pos ha, hnull a ha, Hql.Node.eval]
    have ha' : a.constant?.any Literal.isNull = true := ha
    simp only [ha', toOption_bind, if_true]
    rfl
  · rw [if_neg ha]
    have ha' : a.constant?.any Literal.isNull = false := Bool.eq_false_iff.mpr ha
    simp only [ha', Bool.false_eq_true, if_false]
    by_cases hb : b.isNullConstant = true
    · have hb' : b.constant?.any Literal.isNull = true := hb
      rw [if_pos hb, hnull b hb, Hql.Node.eval]
      simp only [hb', toOption_bind, if_true]
      rfl
    · have hb' : b.constant?.any Literal.isNull = false := Bool.eq_false_iff.mpr hb
      rw [if_neg hb, Hql.Node.eval]
      simp only [hb', toOption_bind, Bool.false_eq_true, if_false]

private theorem Hql.evalAll_toOption (ns : List Node) :
    (Hql.evalAll env ns scope).toOption = ns.mapM fun n => (n.eval env scope).toOption := by
  induction ns with
  | nil => rfl
  | cons n ns ih =>
      rw [Hql.evalAll, List.mapM_cons, toOption_bind, ← ih]
      simp only [toOption_bind, toOption_pure]
      rfl

private theorem mapM_seen?_bind {α : Type} (ns : List Node) (f : List Value → Option α) :
    (ns.mapM (Hql.Node.seen? env scope) >>= fun operands => f (operands.map Seen.value)) =
      (ns.mapM fun n => (n.eval env scope).toOption) >>= f := by
  induction ns generalizing f with
  | nil => rfl
  | cons n ns ih =>
      simp only [List.mapM_cons, bind_assoc, pure_bind, seen?_bind, List.map_cons]
      congr 1
      funext v
      exact ih fun vs => f (v :: vs)

private theorem Hql.Node.function_seen (name : String) (ns : List Node) :
    ((Hql.Node.function name ns).eval env scope).toOption =
      ns.mapM (Hql.Node.seen? env scope) >>= fun operands =>
        (Value.call name (operands.map Seen.value)).toOption := by
  rw [Hql.Node.eval, toOption_bind, Hql.evalAll_toOption]
  exact (mapM_seen?_bind env scope ns _).symm

/-- The pattern that is built for an operand has the value that is seen of
it. -/
theorem literalPattern_seen (n : Node) :
    ((literalPattern n).eval env scope).toOption = n.seen? env scope >>= Seen.pattern? := by
  have hfold : ∀ (specials : List Char) (n : Node),
      ((specials.foldl (fun escaped special =>
        .function "replace" [escaped, .string (String.singleton special),
          .string (String.ofList [patternEscape, special])]) n).eval env scope).toOption =
        (n.eval env scope).toOption >>= fun v => specials.foldlM Seen.escaped? v := by
    intro specials
    induction specials with
    | nil =>
        intro n
        simp
    | cons special specials ih =>
        intro n
        rw [List.foldl_cons, ih, Hql.Node.eval, toOption_bind, Hql.evalAll_toOption]
        simp only [List.mapM_cons, List.mapM_nil, List.foldlM_cons, bind_assoc, pure_bind]
        rfl
  rw [seen?_bind]
  unfold literalPattern
  split
  · rfl
  · next hstring =>
      rw [hfold]
      congr 1
      funext v
      unfold Seen.pattern?
      split
      · next t ht =>
          cases n with
          | constant value =>
              obtain rfl := Option.some.inj ht
              exact absurd rfl (hstring t)
          | _ => cases ht
      · rfl

@[simp] theorem anyRunPattern_eval : anyRunPattern.eval env scope = .ok anyRun := by
  rw [anyRunPattern, Hql.Node.string, Hql.Node.eval]
  · rfl
  · simp

/-- The value of a match against a pattern built for an operand. -/
theorem Hql.Node.like_seen (a b : Node) (parts : List Node) (around : Value → List Value)
    (h : (parts.mapM fun n => (n.eval env scope).toOption) =
      ((literalPattern b).eval env scope).toOption.map around) :
    ((Hql.Node.like a (.concat parts) (some patternEscape)).eval env scope).toOption =
      a.seen? env scope >>= fun x => b.seen? env scope >>= fun y => x.matches? y around := by
  have hpattern : ((Hql.Node.concat parts).eval env scope).toOption =
      (b.seen? env scope >>= Seen.pattern?).map fun p => Value.concat (around p) := by
    rw [Hql.Node.concat, Hql.Node.eval, toOption_bind, Hql.evalAll_toOption, h,
      literalPattern_seen]
    cases b.seen? env scope >>= Seen.pattern? <;> rfl
  rw [Hql.Node.eval]
  simp only [toOption_bind, hpattern, seen?_bind, Seen.matches?]
  congr 1
  funext v
  cases (b.eval env scope).toOption with
  | none => rfl
  | some w =>
      show (Option.map _ (Seen.pattern? _) >>= _) = (Seen.pattern? _ >>= _)
      cases Seen.pattern? ⟨b.constant?, w⟩ <;> rfl

private theorem Hql.Node.among_seen (a b : Node) :
    ((Hql.Node.among b a).eval env scope).toOption =
      a.seen? env scope >>= fun x => b.seen? env scope >>= fun y => x.among? y := by
  rw [Hql.Node.eval]
  simp only [toOption_bind, seen?_bind, Seen.among?]
  -- the node looks at the item first, the meaning at the collection
  cases (b.eval env scope).toOption with
  | none => cases (a.eval env scope).toOption <;> rfl
  | some w =>
      cases (a.eval env scope).toOption with
      | none => rfl
      | some v => rfl

private theorem Hql.Node.binary_seen (operator : BinaryOperator) (a b : Node) :
    ((Hql.Node.binary operator a b).eval env scope).toOption =
      a.seen? env scope >>= fun x => b.seen? env scope >>= fun y =>
        (Value.binary operator x.value y.value).toOption := by
  rw [Hql.Node.eval]
  simp only [toOption_bind, seen?_bind]

end

/-! ## Calls -/

namespace CallSite

variable {site : CallSite}

theorem sole_eq_ok_iff {a : Node} : site.sole = .ok a ↔ site.operands = [a] := by
  unfold sole
  split
  · next b h => simp [h]
  · next h =>
      constructor
      · intro herror
        cases herror
      · intro hone
        exact absurd hone (h a)

theorem pair_eq_ok_iff {a b : Node} : site.pair = .ok (a, b) ↔ site.operands = [a, b] := by
  unfold pair
  split
  · next c d h => simp [h]
  · next h =>
      constructor
      · intro herror
        cases herror
      · intro htwo
        exact absurd htwo (h a b)

end CallSite

/-- A generator makes its node of a single operand. -/
structure Generator.MakesOfOne (generator : Generator) (f : Node → Node) : Prop where
  arity?_eq : generator.arity? = some 1
  emit_eq : ∀ site, generator.emit site = do return f (← site.sole)
  constant?_eq : ∀ a, (f a).constant? = none
  value_eq : ∀ env scope a, ((f a).eval env scope).toOption =
    a.seen? env scope >>= fun x => generator.meaning [x]

/-- A generator makes its node of two operands. -/
structure Generator.MakesOfTwo (generator : Generator) (f : Node → Node → Node) : Prop where
  arity?_eq : generator.arity? = some 2
  emit_eq : ∀ site, generator.emit site = do
    let (a, b) ← site.pair
    return f a b
  constant?_eq : ∀ a b, (f a b).constant? = none
  value_eq : ∀ env scope a b, ((f a b).eval env scope).toOption =
    a.seen? env scope >>= fun x => b.seen? env scope >>= fun y => generator.meaning [x, y]

section

variable {generator : Generator} {site : CallSite}

/-- The function of one operand has the meaning of its generator. -/
theorem makesOfOne_function (name : String)
    (hmeaning : ∀ x, generator.meaning [x] = (Value.call name [x.value]).toOption)
    (harity : generator.arity? = some 1)
    (hemit : ∀ site, generator.emit site = do return .function name [← site.sole]) :
    generator.MakesOfOne fun a => .function name [a] := by
  refine ⟨harity, hemit, fun _ => rfl, fun env scope a => ?_⟩
  rw [Hql.Node.function_seen]
  simp only [hmeaning, List.mapM_cons, List.mapM_nil, bind_assoc, pure_bind, List.map_cons,
    List.map_nil]

/-- The match against a pattern has the meaning of its generator. -/
theorem makesOfTwo_like (parts : Node → List Node) (around : Value → List Value)
    (hmeaning : ∀ x y, generator.meaning [x, y] = x.matches? y around)
    (harity : generator.arity? = some 2)
    (hemit : ∀ site, generator.emit site = do
      let (a, b) ← site.pair
      return .like a (.concat (parts (literalPattern b))) (some patternEscape))
    (hparts : ∀ env scope n, ((parts n).mapM fun n => (n.eval env scope).toOption) =
      (n.eval env scope).toOption.map around) :
    generator.MakesOfTwo fun a b =>
      .like a (.concat (parts (literalPattern b))) (some patternEscape) := by
  refine ⟨harity, hemit, fun _ _ => rfl, fun env scope a b => ?_⟩
  rw [Hql.Node.like_seen env scope a b _ around (hparts env scope _)]
  simp only [hmeaning]

/-- A fixed generator makes a function of all operands or a node of one or of
two. -/
theorem isPlain_cases (hplain : generator.isPlain = true) :
    (∃ name, generator = .function name) ∨ (∃ f, generator.MakesOfOne f) ∨
      ∃ f, generator.MakesOfTwo f := by
  have hparts : ∀ {env : Environment} {scope : Scope} {n : Node} {v : Option Value},
      (n.eval env scope).toOption = v →
        ([n, anyRunPattern].mapM fun n => (n.eval env scope).toOption) =
            v.map (fun p => [p, anyRun]) ∧
          ([anyRunPattern, n].mapM fun n => (n.eval env scope).toOption) =
            v.map (fun p => [anyRun, p]) ∧
          ([anyRunPattern, n, anyRunPattern].mapM fun n => (n.eval env scope).toOption) =
            v.map fun p => [anyRun, p, anyRun] := by
    intro env scope n v hv
    simp only [List.mapM_cons, List.mapM_nil, hv, anyRunPattern_eval, toOption_ok]
    cases v <;> exact ⟨rfl, rfl, rfl⟩
  cases generator with
  | function name => exact .inl ⟨name, rfl⟩
  | custom emit => cases hplain
  | collectionAny =>
      exact .inr (.inl ⟨_, makesOfOne_function "exists" (fun _ => rfl) rfl fun _ => rfl⟩)
  | collectionCount =>
      exact .inr (.inl ⟨_, makesOfOne_function "size" (fun _ => rfl) rfl fun _ => rfl⟩)
  | equality =>
      refine .inr (.inr ⟨.equality, rfl, fun _ => rfl, fun a b => ?_, fun env scope a b => ?_⟩)
      · rw [Hql.Node.equality_eq]
        split
        · rfl
        · split <;> rfl
      · exact Hql.Node.equality_seen env scope a b
  | collectionContains =>
      exact .inr (.inr ⟨fun a b => .among b a, rfl, fun _ => rfl, fun _ _ => rfl,
        fun env scope a b => Hql.Node.among_seen env scope a b⟩)
  | binary operator =>
      exact .inr (.inr ⟨.binary operator, rfl, fun _ => rfl, fun _ _ => rfl,
        fun env scope a b => Hql.Node.binary_seen env scope operator a b⟩)
  | startsWith =>
      exact .inr (.inr ⟨_, makesOfTwo_like (fun n => [n, anyRunPattern]) (fun p => [p, anyRun])
        (fun _ _ => rfl) rfl (fun _ => rfl) fun _ _ _ => (hparts rfl).1⟩)
  | endsWith =>
      exact .inr (.inr ⟨_, makesOfTwo_like (fun n => [anyRunPattern, n]) (fun p => [anyRun, p])
        (fun _ _ => rfl) rfl (fun _ => rfl) fun _ _ _ => (hparts rfl).2.1⟩)
  | stringContains =>
      exact .inr (.inr ⟨_, makesOfTwo_like (fun n => [anyRunPattern, n, anyRunPattern])
        (fun p => [anyRun, p, anyRun]) (fun _ _ => rfl) rfl (fun _ => rfl)
        fun _ _ _ => (hparts rfl).2.2⟩)

/-- A call that can be made has a number of operands that the generator
takes. -/
theorem accepts_of_emit (hplain : generator.isPlain = true) {node : Node}
    (h : generator.emit site = .ok node) : generator.Accepts site.operands.length := by
  intro n hn
  rcases isPlain_cases hplain with ⟨name, rfl⟩ | ⟨f, hone⟩ | ⟨f, htwo⟩
  · cases hn
  · obtain rfl : 1 = n := Option.some.inj (hone.arity?_eq.symm.trans hn)
    rw [hone.emit_eq] at h
    obtain ⟨a, ha, -⟩ := bind_eq_ok.mp h
    rw [CallSite.sole_eq_ok_iff.mp ha]
    rfl
  · obtain rfl : 2 = n := Option.some.inj (htwo.arity?_eq.symm.trans hn)
    rw [htwo.emit_eq] at h
    obtain ⟨⟨a, b⟩, hab, -⟩ := bind_eq_ok.mp h
    rw [CallSite.pair_eq_ok_iff.mp hab]
    rfl

theorem Generator.EmitsFor.accepts (hplain : generator.isPlain = true) {count : Nat}
    (h : generator.EmitsFor count) : generator.Accepts count := by
  obtain ⟨site, node, rfl, hemit⟩ := h
  exact accepts_of_emit hplain hemit

/-- A call with a number of operands that the generator takes can be made,
and its value is what the generator means. -/
theorem emit_meaning (hplain : generator.isPlain = true)
    (haccepts : generator.Accepts site.operands.length) :
    ∃ node, generator.emit site = .ok node ∧ node.constant? = none ∧
      ∀ env scope, (node.eval env scope).toOption =
        site.operands.mapM (Hql.Node.seen? env scope) >>= generator.meaning := by
  rcases isPlain_cases hplain with ⟨name, rfl⟩ | ⟨f, hone⟩ | ⟨f, htwo⟩
  · exact ⟨_, rfl, rfl, fun env scope => Hql.Node.function_seen env scope name _⟩
  · obtain ⟨a, ha⟩ := List.length_eq_one_iff.mp (haccepts 1 hone.arity?_eq)
    refine ⟨f a, ?_, hone.constant?_eq a, fun env scope => ?_⟩
    · rw [hone.emit_eq, CallSite.sole_eq_ok_iff.mpr ha]
      rfl
    · rw [hone.value_eq, ha]
      simp only [List.mapM_cons, List.mapM_nil, bind_assoc, pure_bind]
  · obtain ⟨a, b, hab⟩ := List.length_eq_two.mp (haccepts 2 htwo.arity?_eq)
    refine ⟨f a b, ?_, htwo.constant?_eq a b, fun env scope => ?_⟩
    · rw [htwo.emit_eq, CallSite.pair_eq_ok_iff.mpr hab]
      rfl
    · rw [htwo.value_eq, hab]
      simp only [List.mapM_cons, List.mapM_nil, bind_assoc, pure_bind]

/-- The fixed generators ask for nothing but the number of operands. -/
theorem Generator.judgesByCount (hplain : generator.isPlain = true) : generator.JudgesByCount := by
  intro site hemits
  obtain ⟨node, hnode, -⟩ := @emit_meaning _ site hplain (hemits.accepts hplain)
  exact ⟨node, hnode⟩

end

/-! ## Registries -/

/-- No handler of a registry is a custom one. -/
def Registry.IsPlain (registry : Registry) : Prop :=
  ∀ method handler, registry.lookup method = some handler → handler.generator.isPlain = true

/-- Every handler of a registry judges a call by the number of its operands. -/
def Registry.JudgesByCount (registry : Registry) : Prop :=
  ∀ method handler, registry.lookup method = some handler → handler.generator.JudgesByCount

namespace Registry

theorem IsPlain.judgesByCount {registry : Registry} (h : registry.IsPlain) :
    registry.JudgesByCount := fun method handler hlookup =>
  Generator.judgesByCount (h method handler hlookup)

/-- A registry is plain where each of its layers is. -/
theorem isPlain_of_layers {registry : Registry}
    (h : ∀ layer ∈ registry.layers, ∀ entry ∈ layer.entries,
      entry.2.generator.isPlain = true) : registry.IsPlain := by
  intro method handler hlookup
  obtain ⟨layer, hlayer, hfind⟩ := List.exists_of_findSome?_eq_some hlookup
  obtain ⟨before, after, hentries, -⟩ := List.lookup_eq_some_iff.mp hfind
  exact h layer hlayer (method, handler) (by rw [hentries]; simp)

theorem builtin_isPlain : builtin.IsPlain := by
  refine isPlain_of_layers ?_
  decide +kernel

theorem withDefaults_isPlain : withDefaults.IsPlain := by
  refine isPlain_of_layers ?_
  decide +kernel

end Registry

end ObjectQuery
