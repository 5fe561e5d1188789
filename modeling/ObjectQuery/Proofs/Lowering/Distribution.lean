import ObjectQuery.Proofs.Lowering.Succeeds

/-!
# What the distribution of a call does to its value

A call that is distributed over a decision among its operands becomes a
decision between calls. Left whole, the same decision would have become a
node of its own, and the call would have seen that. Both have the same values
to work on, so the call has the same value either way, as long as its handler
looks at nothing but values.

The handlers for collections do so. The one for equality also asks whether an
operand is the null constant, and compares with it by a test for null. A
decision is no null constant, but a branch of it may be one. Where such a
branch is selected, the distributed call tests for null and tells true from
false, while the call left whole compares with null and gives null.

## Main definitions

* `CallSite.IsWhole` — a call site with every operand lowered as it is written.
* `SelectsNull` — of operands, one selects a branch that is the null constant.

## Main results

* `selected?_value` — the selected branch has the value of the operand.
* `withDefaults_call_eval` — when a distributed call keeps its value, and what
  becomes of it otherwise.
-/

namespace ObjectQuery

open Hql (Node)

/-! ## What handlers look at -/

/-- Whether a generator looks at texts among its operands, not only at values and
at the null constant. -/
def Generator.looksAtTexts : Generator → Bool
  | .startsWith | .endsWith | .stringContains => true
  | _ => false

/-- A generator that asks for neither texts nor the null constant makes the same of
the same values. -/
theorem Generator.meaning_of_values {generator : Generator}
    (htexts : generator.looksAtTexts = false) (hequality : generator ≠ .equality)
    {operands operands' : List Seen} (h : operands.map Seen.value = operands'.map Seen.value) :
    generator.meaning operands = generator.meaning operands' := by
  have hlength : operands.length = operands'.length := by
    rw [← List.length_map Seen.value, h, List.length_map]
  match operands, operands', hlength with
  | [], [], _ => rfl
  | [a], [b], _ =>
      obtain ⟨hab, -⟩ := List.cons.inj h
      cases generator <;> simp only [meaning, List.map_cons, List.map_nil, hab]
  | [a, b], [c, d], _ =>
      obtain ⟨hac, hrest⟩ := List.cons.inj h
      obtain ⟨hbd, -⟩ := List.cons.inj hrest
      cases generator with
      | equality => exact absurd rfl hequality
      | startsWith | endsWith | stringContains => cases htexts
      | _ => simp only [meaning, Seen.among?, List.map_cons, List.map_nil, hac, hbd]
  | a :: b :: c :: rest, a' :: b' :: c' :: rest', _ =>
      cases generator with
      | function name => simp only [meaning, h]
      | _ => rfl

namespace Registry

/-- No default handler that lets a call be distributed looks at texts. -/
theorem withDefaults_looksAtTexts {method : MethodSignature} {handler : Handler}
    (hlookup : withDefaults.lookup method = some handler)
    (hexpansion : handler.expansion = .bareBranching) :
    handler.generator.looksAtTexts = false := by
  have hlayers : ∀ layer ∈ withDefaults.layers, ∀ entry ∈ layer.entries,
      entry.2.expansion = .bareBranching → entry.2.generator.looksAtTexts = false := by
    decide +kernel
  obtain ⟨layer, hlayer, hfind⟩ := List.exists_of_findSome?_eq_some hlookup
  obtain ⟨before, after, hentries, -⟩ := List.lookup_eq_some_iff.mp hfind
  exact hlayers layer hlayer (method, handler) (by rw [hentries]; simp) hexpansion

end Registry

/-! ## What operands select -/

section

variable {registry : Registry} {limit depth : Nat} {env : Environment} {scope : Scope}

private theorem Expr.seen?_value (e : Expr) :
    (e.seen? registry limit depth env scope).map Seen.value =
      e.value? registry limit depth env scope := by
  unfold seen? value?
  cases (e.lower registry limit depth).outcome.toOption with
  | none => rfl
  | some n =>
      show (n.seen? env scope).map Seen.value = (n.eval env scope).toOption
      unfold Node.seen?
      cases (n.eval env scope).toOption <;> rfl

/-- The branch that an operand selects has the value of the operand. The induction
is on the branches. -/
theorem Expr.selected?_value {e : Expr} (h : e.Lowers registry limit depth) (env : Environment)
    (scope : Scope) :
    (e.selected? registry limit depth env scope).map Seen.value =
      e.value? registry limit depth env scope := by
  have hwhole : ∀ {e : Expr}, e.isExpandable = false →
      (e.selected? registry limit depth env scope).map Seen.value =
        e.value? registry limit depth env scope := by
    intro e hexpandable
    rw [selected?_of_not_isExpandable hexpandable, seen?_value]
  induction e using operandInduction with
  | conditional test whenTrue whenFalse _ ihTrue ihFalse =>
      obtain ⟨n, hn⟩ := h
      obtain ⟨a, b, rfl, rfl, -, nt, na, nb, hnt, hna, hnb, rfl⟩ := lowersTo_conditional.mp hn
      by_cases hexpandable : (conditional test (some a) (some b)).isExpandable = true
      · rw [selected?_conditional hexpandable, hn.value?_eq, Node.ifThenElse_eval, toOption_bind,
          hnt.value?_eq]
        cases (nt.eval env scope).toOption with
        | none => rfl
        | some v =>
            simp only [Option.bind_eq_bind, Option.bind_some]
            cases v.isTrue with
            | true => exact (ihTrue a rfl ⟨na, hna⟩).trans (hna.value?_eq env scope)
            | false => exact (ihFalse b rfl ⟨nb, hnb⟩).trans (hnb.value?_eq env scope)
      · exact hwhole (Bool.eq_false_iff.mpr hexpandable)
  | coalesce left right ihLeft ihRight =>
      obtain ⟨n, hn⟩ := h
      obtain ⟨a, b, rfl, rfl, -, na, nb, hna, hnb, rfl⟩ := lowersTo_coalesce.mp hn
      by_cases hexpandable : (coalesce (some a) (some b)).isExpandable = true
      · have hleft := (ihLeft a rfl ⟨na, hna⟩).trans (hna.value?_eq env scope)
        rw [selected?_coalesce hexpandable, hn.value?_eq, Node.eval, toOption_bind,
          hna.value?_eq]
        cases hvalue : (na.eval env scope).toOption with
        | none => rfl
        | some v =>
            simp only [Option.bind_eq_bind, Option.bind_some]
            cases v.isNull with
            | true => exact (ihRight b rfl ⟨nb, hnb⟩).trans (hnb.value?_eq env scope)
            | false => exact hleft.trans hvalue
      · exact hwhole (Bool.eq_false_iff.mpr hexpandable)
  | _ => exact hwhole rfl

/-- What an operand selects is seen of some expression, which is the operand itself
or a branch of it. -/
theorem Expr.exists_of_selected? {e : Expr} {s : Seen}
    (h : e.selected? registry limit depth env scope = some s) :
    ∃ leaf : Expr, leaf.seen? registry limit depth env scope = some s := by
  have hbranch : ∀ {o : Option Expr},
      (∀ e, o = some e → e.selected? registry limit depth env scope = some s →
        ∃ leaf : Expr, leaf.seen? registry limit depth env scope = some s) →
      branchSelected? registry limit depth env scope o = some s →
        ∃ leaf : Expr, leaf.seen? registry limit depth env scope = some s := by
    intro o ih hselected
    cases o with
    | none => cases hselected
    | some e => exact ih e rfl hselected
  induction e using operandInduction with
  | conditional test whenTrue whenFalse _ ihTrue ihFalse =>
      rw [selected?] at h
      split at h
      · obtain ⟨v, -, h⟩ := Option.bind_eq_some_iff.mp h
        split at h
        · exact hbranch ihTrue h
        · exact hbranch ihFalse h
      · exact ⟨_, h⟩
  | coalesce left right ihLeft ihRight =>
      rw [selected?] at h
      split at h
      · obtain ⟨v, -, h⟩ := Option.bind_eq_some_iff.mp h
        split at h
        · exact hbranch ihRight h
        · exact hbranch ihLeft h
      · exact ⟨_, h⟩
  | _ => exact ⟨_, h⟩

private theorem Expr.exists_node_of_seen? {e : Expr} {s : Seen}
    (h : e.seen? registry limit depth env scope = some s) :
    ∃ n, e.LowersTo registry limit depth n ∧ n.eval env scope = .ok s.value ∧
      n.constant? = s.constant? := by
  obtain ⟨n, hn, h⟩ := Option.bind_eq_some_iff.mp h
  obtain ⟨v, hv, rfl⟩ := Option.map_eq_some_iff.mp h
  exact ⟨n, toOption_eq_some.mp hn, toOption_eq_some.mp hv, rfl⟩

/-- What is seen as the null constant has the value null. -/
theorem Expr.value_of_isNullConstant {e : Expr} {s : Seen}
    (h : e.seen? registry limit depth env scope = some s) (hnull : s.isNullConstant = true) :
    s.value = .null := by
  obtain ⟨n, -, hvalue, hconstant⟩ := exists_node_of_seen? h
  have hn : n.isNullConstant = true := by
    unfold Node.isNullConstant
    rw [hconstant]
    exact hnull
  rw [Node.isNullConstant_iff.mp hn, Node.null_eval] at hvalue
  exact (Except.ok.inj hvalue).symm

/-- What is the null constant as a whole is not taken apart. -/
theorem Expr.isExpandable_of_isNullConstant {e : Expr} {s : Seen}
    (h : e.seen? registry limit depth env scope = some s) (hnull : s.isNullConstant = true) :
    e.isExpandable = false := by
  obtain ⟨n, hn, -, hconstant⟩ := exists_node_of_seen? h
  have hsome : n.constant? ≠ none := by
    intro hnone
    unfold Seen.isNullConstant at hnull
    rw [← hconstant, hnone] at hnull
    cases hnull
  cases e with
  | conditional test whenTrue whenFalse =>
      obtain ⟨a, b, -, -, -, nt, na, nb, -, -, -, rfl⟩ := lowersTo_conditional.mp hn
      exact absurd rfl hsome
  | coalesce left right =>
      obtain ⟨a, b, -, -, -, na, nb, -, -, rfl⟩ := lowersTo_coalesce.mp hn
      exact absurd rfl hsome
  | _ => rfl

/-! ## Operands selected and whole -/

/-- What is seen of the branch that an operand selects, and what is seen of the
operand as a whole. -/
structure Seen.Selects (selected whole : Seen) : Prop where
  value_eq : selected.value = whole.value
  /-- Either both are the null constant, or the whole is not. -/
  eq_of_isNullConstant : whole.isNullConstant = true → selected = whole
  value_of_isNullConstant : selected.isNullConstant = true → selected.value = .null

private theorem Seen.Selects.values_eq {selected whole : List Seen}
    (h : List.Forall₂ Seen.Selects selected whole) :
    selected.map Seen.value = whole.map Seen.value := by
  induction h with
  | nil => rfl
  | cons hhead _ ih => rw [List.map_cons, List.map_cons, hhead.value_eq, ih]

private theorem Expr.selects {e : Expr} (h : e.Lowers registry limit depth) :
    Option.Rel Seen.Selects (e.selected? registry limit depth env scope)
      (e.seen? registry limit depth env scope) := by
  have hvalue := (selected?_value h env scope).trans (seen?_value e).symm
  cases hselected : e.selected? registry limit depth env scope with
  | none =>
      rw [hselected] at hvalue
      rw [Option.map_eq_none_iff.mp hvalue.symm]
      exact .none
  | some s =>
      rw [hselected] at hvalue
      obtain ⟨whole, hwhole, hsame⟩ := Option.map_eq_some_iff.mp hvalue.symm
      rw [hwhole]
      refine .some ⟨hsame.symm, fun hnull => ?_, fun hnull => ?_⟩
      · have hexpandable := isExpandable_of_isNullConstant hwhole hnull
        rw [selected?_of_not_isExpandable hexpandable, hwhole] at hselected
        exact (Option.some.inj hselected).symm
      · obtain ⟨leaf, hleaf⟩ := exists_of_selected? hselected
        exact value_of_isNullConstant hleaf hnull

end

/-! ## Equality -/

namespace Seen

variable {a b c d : Seen}

private theorem binary_equal_null (a b : Value) (h : a = .null ∨ b = .null) :
    Value.binary .equal a b = .ok .null := by
  have hnull : (a.isNull || b.isNull) = true := by
    rcases h with rfl | rfl
    · rfl
    · exact Bool.or_true _
  unfold Value.binary Value.equals?
  rw [if_pos hnull]
  rfl

/-- Where an operand as a whole is the null constant, or no operand selects it, the
equality is that of the operands as a whole. -/
theorem Selects.equality?_eq (hac : a.Selects c) (hbd : b.Selects d)
    (h : (c.isNullConstant = true ∨ d.isNullConstant = true) ∨
      a.isNullConstant = false ∧ b.isNullConstant = false) :
    a.equality? b = c.equality? d := by
  unfold equality?
  by_cases hc : c.isNullConstant = true
  · rw [hac.eq_of_isNullConstant hc, if_pos hc, if_pos hc, hbd.value_eq]
  · rw [if_neg hc]
    by_cases hd : d.isNullConstant = true
    · obtain rfl := hbd.eq_of_isNullConstant hd
      rw [if_pos hd]
      by_cases ha : a.isNullConstant = true
      · -- both are tests for null, and both values are null
        rw [if_pos ha, if_pos hd, hbd.value_of_isNullConstant hd, ← hac.value_eq,
          hac.value_of_isNullConstant ha]
      · rw [if_neg ha, if_pos hd, hac.value_eq]
    · rw [if_neg hd]
      rcases h with (hnull | hnull) | ⟨ha, hb⟩
      · exact absurd hnull hc
      · exact absurd hnull hd
      · rw [if_neg (Bool.eq_false_iff.mp ha), if_neg (Bool.eq_false_iff.mp hb), hac.value_eq,
          hbd.value_eq]

/-- Where an operand selects the null constant that no operand is as a whole, the
one equality is a test for null, and the other one compares with null. -/
theorem Selects.equality?_null (hac : a.Selects c) (hbd : b.Selects d)
    (hc : c.isNullConstant = false) (hd : d.isNullConstant = false)
    (h : a.isNullConstant = true ∨ b.isNullConstant = true) :
    c.equality? d = some .null ∧ ∃ truth, a.equality? b = some (.boolean truth) := by
  have hvalue : c.value = .null ∨ d.value = .null := by
    rcases h with ha | hb
    · exact .inl (hac.value_eq.symm.trans (hac.value_of_isNullConstant ha))
    · exact .inr (hbd.value_eq.symm.trans (hbd.value_of_isNullConstant hb))
  constructor
  · unfold equality?
    rw [if_neg (Bool.eq_false_iff.mp hc), if_neg (Bool.eq_false_iff.mp hd),
      binary_equal_null _ _ hvalue]
    rfl
  · unfold equality?
    by_cases ha : a.isNullConstant = true
    · exact ⟨_, if_pos ha⟩
    · obtain hb := h.resolve_left ha
      exact ⟨_, by rw [if_neg ha, if_pos hb]⟩

end Seen

/-! ## Calls -/

section

variable {registry : Registry} {limit depth : Nat}

/-- The operands of the call site are lowered as they are written. -/
structure CallSite.IsWhole (registry : Registry) (limit depth : Nat) (site : CallSite) :
    Prop where
  target : Option.Rel (Expr.LowersTo registry limit depth) site.target site.loweredTarget
  arguments : List.Forall₂ (Expr.LowersTo registry limit depth) site.arguments
    site.loweredArguments

/-- The operands of the call site as they are written. -/
def CallSite.written (site : CallSite) : List Expr :=
  site.target.toList ++ site.arguments

/-- The operands have values. None of them is the null constant as a whole, but
one of them selects a branch that is. -/
def SelectsNull (registry : Registry) (limit depth : Nat) (env : Environment) (scope : Scope)
    (operands : List Expr) : Prop :=
  ∃ whole selected,
    operands.mapM (Expr.seen? registry limit depth env scope) = some whole ∧
    operands.mapM (Expr.selected? registry limit depth env scope) = some selected ∧
    (∀ s ∈ whole, s.isNullConstant = false) ∧ ∃ s ∈ selected, s.isNullConstant = true

namespace CallSite.IsWhole

variable {site : CallSite}

private theorem operands (h : site.IsWhole registry limit depth) :
    List.Forall₂ (Expr.LowersTo registry limit depth) site.written site.operands := by
  obtain ⟨method, target, arguments, loweredTarget, loweredArguments⟩ := site
  obtain ⟨htarget, harguments⟩ := h
  cases htarget with
  | none => exact harguments
  | some hn => exact .cons hn harguments

private theorem lowers (h : site.IsWhole registry limit depth) :
    ∀ e ∈ site.written, e.Lowers registry limit depth := by
  intro e he
  obtain ⟨n, -, hn⟩ := exists_right_of_forall₂ h.operands he
  exact ⟨n, hn⟩

/-- What is seen of the lowered operands is seen of the operands. -/
theorem mapM_seen? (h : site.IsWhole registry limit depth) (env : Environment) (scope : Scope) :
    site.operands.mapM (Node.seen? env scope) =
      site.written.mapM (Expr.seen? registry limit depth env scope) := by
  have hoperands := h.operands
  generalize site.operands = ns, site.written = es at hoperands
  induction hoperands with
  | nil => rfl
  | cons hn _ ih => rw [List.mapM_cons, List.mapM_cons, ih, hn.seen?_eq]

end CallSite.IsWhole

/-- Operands that can be lowered can be put into a call site as they are. -/
theorem exists_isWhole (method : MethodSignature) {target : Option Expr} {arguments : List Expr}
    (h : ∀ e ∈ target.toList ++ arguments, e.Lowers registry limit depth) :
    ∃ site : CallSite, site.method = method ∧ site.target = target ∧
      site.arguments = arguments ∧ site.IsWhole registry limit depth := by
  obtain ⟨ns, hns⟩ := exists_forall₂ (R := Expr.LowersTo registry limit depth)
    fun e he => h e (List.mem_append_right target.toList he)
  cases target with
  | none => exact ⟨⟨method, none, arguments, none, ns⟩, rfl, rfl, rfl, .none, hns⟩
  | some e =>
      obtain ⟨n, hn⟩ := h e (by simp)
      exact ⟨⟨method, some e, arguments, some n, ns⟩, rfl, rfl, rfl, .some hn, hns⟩

variable {site : CallSite} {handler : Handler} {type : StaticType} {n w : Node}

/-- The value of a distributed call and that of the call left whole come from
related operands. -/
theorem CallSite.IsWhole.eval_eq (hplain : registry.IsPlain)
    (hlookup : registry.lookup site.method = some handler)
    (hexpansion : handler.expansion = .bareBranching) (hwhole : site.IsWhole registry limit depth)
    (hw : handler.generator.emit site = .ok w)
    (hn : (Expr.call site.method site.target site.arguments type).LowersTo registry limit depth n)
    (env : Environment) (scope : Scope) :
    (n.eval env scope).toOption =
        (site.written.mapM (Expr.selected? registry limit depth env scope) >>=
          handler.generator.meaning) ∧
      (w.eval env scope).toOption =
        (site.written.mapM (Expr.seen? registry limit depth env scope) >>=
          handler.generator.meaning) := by
  have hgenerator := hplain site.method handler hlookup
  have haccepts := accepts_of_emit hgenerator hw
  constructor
  · have hlength : site.operands.length = (site.target.toList ++ site.arguments).length :=
      hwhole.operands.length_eq.symm
    rw [hlength] at haccepts
    obtain ⟨n', hn', -, hvalue⟩ := call_yields type hplain hlookup hwhole.lowers haccepts
    obtain rfl := hn.unique hn'
    rw [hvalue, hexpansion]
    rfl
  · obtain ⟨w', hw', -, hvalue⟩ := emit_meaning hgenerator haccepts
    obtain rfl := Except.ok.inj (hw.symm.trans hw')
    rw [hvalue, hwhole.mapM_seen?]

/-- A generator that looks at no texts makes the same of what operands select as of
the operands as a whole, unless it is the equality and the null constant is
selected where no operand is it. Then the one is a truth value and the other
one null. -/
theorem Generator.meaning_selects {generator : Generator}
    (htexts : generator.looksAtTexts = false) {selected whole : List Seen}
    (h : List.Forall₂ Seen.Selects selected whole)
    (hpair : generator = .equality → whole.length = 2) :
    (¬(generator = .equality ∧ (∀ s ∈ whole, s.isNullConstant = false) ∧
        ∃ s ∈ selected, s.isNullConstant = true) →
      generator.meaning selected = generator.meaning whole) ∧
    (generator = .equality ∧ (∀ s ∈ whole, s.isNullConstant = false) ∧
        (∃ s ∈ selected, s.isNullConstant = true) →
      generator.meaning whole = some .null ∧
        ∃ truth, generator.meaning selected = some (.boolean truth)) := by
  by_cases hequality : generator = .equality
  · obtain ⟨c, d, rfl⟩ := List.length_eq_two.mp (hpair hequality)
    subst hequality
    obtain ⟨a, tail, hac, htail, rfl⟩ := List.forall₂_cons_right_iff.mp h
    obtain ⟨b, last, hbd, hlast, rfl⟩ := List.forall₂_cons_right_iff.mp htail
    obtain rfl := List.forall₂_nil_right_iff.mp hlast
    simp only [List.forall_mem_cons, List.not_mem_nil, false_imp_iff, implies_true, and_true,
      true_and, List.exists_mem_cons_iff, exists_false, or_false, false_and]
    constructor
    · intro hnot
      apply hac.equality?_eq hbd
      by_contra hnone
      simp only [not_or, not_and, Bool.not_eq_true] at hnone
      refine hnot ⟨hnone.1, ?_⟩
      by_contra hselected
      simp only [not_or, Bool.not_eq_true] at hselected
      exact hnone.2 hselected.1 hselected.2
    · intro hnull
      exact hac.equality?_null hbd hnull.1.1 hnull.1.2 hnull.2
  · refine ⟨fun _ => ?_, fun hnull => absurd hnull.1 hequality⟩
    exact meaning_of_values htexts hequality (Seen.Selects.values_eq h)

/-- A call whose handler looks at no texts keeps its value when it is distributed,
unless it is an equality and selects the null constant. Then it tells true from
false, where the call left whole gives null. -/
theorem CallSite.IsWhole.call_eval (hplain : registry.IsPlain)
    (hlookup : registry.lookup site.method = some handler)
    (hexpansion : handler.expansion = .bareBranching)
    (htexts : handler.generator.looksAtTexts = false) (hwhole : site.IsWhole registry limit depth)
    (hw : handler.generator.emit site = .ok w)
    (hn : (Expr.call site.method site.target site.arguments type).LowersTo registry limit depth n)
    (env : Environment) (scope : Scope) :
    (¬(handler.generator = .equality ∧
        SelectsNull registry limit depth env scope site.written) →
      (n.eval env scope).toOption = (w.eval env scope).toOption) ∧
      (handler.generator = .equality ∧
          SelectsNull registry limit depth env scope site.written →
        (w.eval env scope).toOption = some .null ∧
          ∃ truth, (n.eval env scope).toOption = some (.boolean truth)) := by
  obtain ⟨hnValue, hwValue⟩ := hwhole.eval_eq hplain hlookup hexpansion hw hn env scope
  rw [hnValue, hwValue]
  have hselects := rel_mapM (f := Expr.selected? registry limit depth env scope)
    (g := Expr.seen? registry limit depth env scope)
    fun e he => Expr.selects (hwhole.lowers e he)
  have hpair : handler.generator = .equality → site.written.length = 2 := by
    intro hequality
    rw [hwhole.operands.length_eq]
    apply accepts_of_emit (hplain site.method handler hlookup) hw
    rw [hequality]
    rfl
  unfold SelectsNull
  generalize hselected : site.written.mapM (Expr.selected? registry limit depth env scope) = o,
    hseen : site.written.mapM (Expr.seen? registry limit depth env scope) = p at hselects
  cases hselects with
  | none => simp
  | @some selected whole hselects =>
      have hlength : handler.generator = .equality → whole.length = 2 := fun hequality =>
        (length_of_mapM hseen).trans (hpair hequality)
      simp only [Option.some.injEq, exists_eq_left', exists_and_left]
      exact handler.generator.meaning_selects htexts hselects hlength

end

/-- The node is what the handler makes of the call with every operand lowered as
it is written. -/
def Handler.MakesWhole (handler : Handler) (registry : Registry) (limit depth : Nat)
    (method : MethodSignature) (target : Option Expr) (arguments : List Expr) (w : Node) : Prop :=
  ∃ site : CallSite, site.method = method ∧ site.target = target ∧ site.arguments = arguments ∧
    site.IsWhole registry limit depth ∧ handler.generator.emit site = .ok w

section

variable {registry : Registry} {limit depth : Nat} {handler : Handler} {method : MethodSignature}
  {target : Option Expr} {arguments : List Expr} {type : StaticType}

/-- A call can be lowered exactly if its handler makes a node of it left whole. -/
theorem Expr.lowers_iff_makesWhole (hplain : registry.IsPlain)
    (hlookup : registry.lookup method = some handler) :
    (Expr.call method target arguments type).Lowers registry limit depth ↔
      ∃ w, handler.MakesWhole registry limit depth method target arguments w := by
  rw [lowers_call_iff hplain.judgesByCount]
  constructor
  · intro h
    obtain ⟨found, hfound, hoperands, hemits⟩ := h
    obtain rfl : handler = found := Option.some.inj (hlookup.symm.trans hfound)
    obtain ⟨site, rfl, rfl, rfl, hwhole⟩ := exists_isWhole method hoperands
    have hcount : (site.target.toList ++ site.arguments).length = site.operands.length :=
      hwhole.operands.length_eq
    rw [hcount] at hemits
    obtain ⟨w, hw⟩ := hplain.judgesByCount site.method handler hlookup site hemits
    exact ⟨w, site, rfl, rfl, rfl, hwhole, hw⟩
  · intro h
    obtain ⟨w, site, rfl, rfl, rfl, hwhole, hw⟩ := h
    exact ⟨handler, hlookup, hwhole.lowers, site, w, hwhole.operands.length_eq.symm, hw⟩

end

/-- With the default handlers, a call that may be distributed can be lowered
exactly if the handler makes a node of the call left whole. The two have the same
values, wherever they are evaluated, with one exception: the call is an equality,
its operands have values and none is the null constant as a whole, but one of them
selects a branch that is the null constant. Then the call left whole is null, and
the distributed one is true or false. -/
theorem withDefaults_call_eval {method : MethodSignature} {handler : Handler}
    (hlookup : Registry.withDefaults.lookup method = some handler)
    (hexpansion : handler.expansion = .bareBranching) (target : Option Expr)
    (arguments : List Expr) (type : StaticType) (limit depth : Nat) :
    ((Expr.call method target arguments type).Lowers .withDefaults limit depth ↔
      ∃ w, handler.MakesWhole .withDefaults limit depth method target arguments w) ∧
    ∀ n w, (Expr.call method target arguments type).LowersTo .withDefaults limit depth n →
      handler.MakesWhole .withDefaults limit depth method target arguments w →
      ∀ env scope,
        (¬(handler.generator = .equality ∧
            SelectsNull .withDefaults limit depth env scope (target.toList ++ arguments)) →
          ∀ v, n.eval env scope = .ok v ↔ w.eval env scope = .ok v) ∧
        (handler.generator = .equality ∧
            SelectsNull .withDefaults limit depth env scope (target.toList ++ arguments) →
          w.eval env scope = .ok .null ∧ ∃ truth, n.eval env scope = .ok (.boolean truth)) := by
  have hplain := Registry.withDefaults_isPlain
  refine ⟨Expr.lowers_iff_makesWhole hplain hlookup, ?_⟩
  intro n w hn hw env scope
  obtain ⟨site, rfl, rfl, rfl, hwhole, hw⟩ := hw
  have htexts := Registry.withDefaults_looksAtTexts hlookup hexpansion
  obtain ⟨hsame, hdiffer⟩ := hwhole.call_eval hplain hlookup hexpansion htexts hw hn env scope
  constructor
  · intro hnot v
    rw [← toOption_eq_some, ← toOption_eq_some, hsame hnot]
  · intro hnull
    obtain ⟨hwNull, truth, hnTruth⟩ := hdiffer hnull
    exact ⟨toOption_eq_some.mp hwNull, truth, toOption_eq_some.mp hnTruth⟩

/-- The customer of an order that is paid. -/
def customerIfPaid : Expr :=
  .conditional (orderProperty "Paid" .boolean)
    (some (orderProperty "Customer" (.entity "Customer"))) (some (.constant .null))

/-- The customer of an order that is paid, and its agent. -/
def payingCustomerAndAgent : List Expr :=
  [customerIfPaid, orderProperty "Agent" (.entity "Customer")]

/-- Whether the two are the same. -/
def payingCustomerIsAgent : Expr :=
  .call staticEquals none payingCustomerAndAgent .boolean

/-- The node of `payingCustomerIsAgent`, which is distributed. -/
def payingCustomerIsAgentNode : Node :=
  .ifThenElse (.dot (.ident "o") "Paid")
    (.binary .equal (.dot (.ident "o") "Customer") (.dot (.ident "o") "Agent"))
    (.isNull (.dot (.ident "o") "Agent"))

/-- The node of `payingCustomerIsAgent` left whole. -/
def payingCustomerIsAgentWhole : Node :=
  .binary .equal
    (.ifThenElse (.dot (.ident "o") "Paid") (.dot (.ident "o") "Customer") (.constant .null))
    (.dot (.ident "o") "Agent")

private theorem payingCustomerIsAgent_isWhole :
    CallSite.IsWhole .withDefaults 8 0 ⟨staticEquals, none, payingCustomerAndAgent, none,
      [.ifThenElse (.dot (.ident "o") "Paid") (.dot (.ident "o") "Customer") (.constant .null),
        .dot (.ident "o") "Agent"]⟩ :=
  ⟨.none, .cons rfl (.cons rfl .nil)⟩

/-- An order that has no agent, and is paid or not. -/
def orderWithoutAgent (paid : Bool) : Scope :=
  [("o", .row [("Paid", .bool paid), ("Customer", .object [("Name", .string "Ann")]),
    ("Agent", .null)])]

/-- The two nodes differ on an order that is not paid: a test for null finds that
there is no agent, and a comparison with a decision that is null is unknown. -/
theorem payingCustomerIsAgent_differs :
    payingCustomerIsAgent.LowersTo .withDefaults 8 0 payingCustomerIsAgentNode ∧
      (∃ handler, Registry.withDefaults.lookup staticEquals = some handler ∧
        handler.expansion = .bareBranching ∧
        handler.MakesWhole .withDefaults 8 0 staticEquals none payingCustomerAndAgent
          payingCustomerIsAgentWhole) ∧
      payingCustomerIsAgentNode.eval ⟨.empty, []⟩ (orderWithoutAgent false) =
        .ok (.boolean true) ∧
      payingCustomerIsAgentWhole.eval ⟨.empty, []⟩ (orderWithoutAgent false) = .ok .null :=
  ⟨rfl, ⟨_, rfl, rfl, _, rfl, rfl, rfl, payingCustomerIsAgent_isWhole, rfl⟩, rfl, rfl⟩

/-- The values of the two nodes as the general theorem gives them: they are the same
on an order that is paid, and not on one that is not paid. -/
theorem payingCustomerIsAgent_eval :
    (∀ v, payingCustomerIsAgentNode.eval ⟨.empty, []⟩ (orderWithoutAgent true) = .ok v ↔
      payingCustomerIsAgentWhole.eval ⟨.empty, []⟩ (orderWithoutAgent true) = .ok v) ∧
    payingCustomerIsAgentWhole.eval ⟨.empty, []⟩ (orderWithoutAgent false) = .ok .null ∧
    ∃ truth, payingCustomerIsAgentNode.eval ⟨.empty, []⟩ (orderWithoutAgent false) =
      .ok (.boolean truth) := by
  have hlookup : Registry.withDefaults.lookup staticEquals = some _ := rfl
  obtain ⟨-, hvalues⟩ :=
    withDefaults_call_eval hlookup rfl none payingCustomerAndAgent .boolean 8 0
  have heval := hvalues payingCustomerIsAgentNode payingCustomerIsAgentWhole rfl
    ⟨_, rfl, rfl, rfl, payingCustomerIsAgent_isWhole, rfl⟩ ⟨.empty, []⟩
  constructor
  · apply (heval (orderWithoutAgent true)).1
    intro h
    obtain ⟨-, _, selected, -, hselected, -, s, hs, hnull⟩ := h
    obtain rfl : [⟨none, _⟩, ⟨none, .null⟩] = selected := Option.some.inj hselected
    simp only [List.mem_cons, List.not_mem_nil, or_false] at hs
    obtain rfl | rfl := hs
    · cases hnull
    · cases hnull
  · apply (heval (orderWithoutAgent false)).2
    refine ⟨rfl, [⟨none, .null⟩, ⟨none, .null⟩], [⟨some .null, .null⟩, ⟨none, .null⟩], rfl, rfl,
      ?_, _, List.mem_cons_self, rfl⟩
    simp [Seen.isNullConstant]

end ObjectQuery
