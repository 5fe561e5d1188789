import ObjectQuery.Proofs.Expansion.Basic
import ObjectQuery.Proofs.Expansion.Source
import ObjectQuery.Proofs.Lowering.Models

/-!
# What stands in place of an expanded subquery

A subquery reads the value of its source and makes something of it. Where the
source is a decision between branches, it comes to the same to decide first
and to make the same of the branch. This is why a source can be taken apart:
its tests move out of the subquery, where they stand less deep, and each
branch gets the subquery to itself.

A branch that is left out is the exception. There is no subquery around it any
more, so what is read is the value of the branch itself. That does no harm
only if the subquery would have made of it what it is. It is so for the null
constant, of which a subquery makes what it makes of nothing, if that is null
again or is missing; nothing else may be left out.

## Main definitions

* `Expr.StandsFor` — the values of what stands in place of a subquery.
* `QueryModel.MayLeaveOut` — what may be left out of a source.

## Main results

* `Expr.IsBranch.inPlace_standsFor` — what stands in place of an expanded
  subquery has the value of the subquery or that of a branch that is left out.
* `subquery_follows_inPlace` — where branches may be left out, it follows the
  subquery.
-/

namespace ObjectQuery

open Hql (Node Query Aggregate)

variable {registry : Registry} {limit : Nat} {lax : Bool} {depth : Nat}

/-- What the null constant is compared with is tested for presence. -/
theorem inequality_null_eval (n : Node) (env : Environment) (scope : Scope) :
    (n.inequality (.constant .null)).eval env scope =
      n.eval env scope >>= fun v => .ok (.boolean !v.isNull) := by
  rw [Hql.Node.inequality_eq]
  by_cases h : n.isNullConstant = true
  · rw [if_pos h, Hql.Node.isNullConstant_iff.mp h, Hql.Node.null_eval]
    show (Hql.Node.isNotNull _).eval env scope = _
    rw [Hql.Node.eval, Hql.Node.null_eval]
    rfl
  · rw [if_neg h]
    show (Hql.Node.isNotNull n).eval env scope = _
    rw [Hql.Node.eval]
    rfl

/-- What a subquery makes of the value of its source. -/
def Hql.Query.madeOf (q : Query) (env : Environment) (scope : Scope) (source : Value) :
    Option Value :=
  (sourceItems source >>= q.presented env scope).toOption

theorem ofQuery_eval_eq_madeOf (q : Query) (env : Environment) (scope : Scope) :
    ((Node.ofQuery q).eval env scope).toOption =
      (q.source.eval env scope).toOption >>= q.madeOf env scope := by
  rw [Hql.Node.ofQuery_eval, bind_assoc, toOption_bind]
  rfl

/-- What a subquery makes of its source depends on nothing else of it. -/
theorem ofQuery_source_eval (q : Query) (n : Node) (env : Environment) (scope : Scope) :
    ((Node.ofQuery { q with source := n }).eval env scope).toOption =
      (n.eval env scope).toOption >>= q.madeOf env scope :=
  ofQuery_eval_eq_madeOf { q with source := n } env scope

/-! ## Decisions -/

/-- The value of the node is that of `a` or `b`, as `test` decides, which can
be lowered less deep. -/
structure Expr.Decides (registry : Registry) (limit depth : Nat) (test a b : Expr)
    (n : Node) : Prop where
  fits : a.fitsBeside b = true
  nodes : ∃ nt na nb, test.LowersTo registry limit depth nt ∧
    a.LowersTo registry limit (depth + 1) na ∧ b.LowersTo registry limit (depth + 1) nb ∧
      ∀ env scope, (n.eval env scope).toOption = (nt.eval env scope).toOption >>= fun v =>
        if v.isTrue then (na.eval env scope).toOption else (nb.eval env scope).toOption

/-- What can be lowered can be lowered less deep, to a node with the same
values. -/
theorem Expr.LowersTo.lessDeep (hplain : registry.IsPlain) {e : Expr} {n : Node}
    (h : e.LowersTo registry limit (depth + 1) n) :
    ∃ n', e.LowersTo registry limit depth n' ∧
      ∀ env scope, (n'.eval env scope).toOption = (n.eval env scope).toOption := by
  have hless : e.Follows registry limit false (depth + 1) depth e :=
    Lowers.follows_of_le hplain ⟨n, h⟩ (Nat.le_succ depth)
  obtain ⟨m, n', hm, hn', hfollows⟩ := hless.node
  obtain rfl := h.unique hm
  exact ⟨n', hn', fun env scope => (Preserved.exact_iff.mp (hfollows.eval env scope)).symm⟩

private theorem Expr.conditional_decides (hplain : registry.IsPlain) {test a b : Expr} {n : Node}
    (h : (Expr.conditional test (some a) (some b)).LowersTo registry limit (depth + 1) n) :
    Expr.Decides registry limit depth test a b n := by
  obtain ⟨_, _, ⟨⟩, ⟨⟩, hfit, nt, na, nb, ht, hna, hnb, rfl⟩ := lowersTo_conditional.mp h
  obtain ⟨nt', hnt', htests⟩ := ht.lessDeep hplain
  refine ⟨hfit, nt', na, nb, hnt', hna, hnb, fun env scope => ?_⟩
  rw [Hql.Node.ifThenElse_eval, toOption_bind, htests]
  congr 1
  funext v
  split <;> rfl

private theorem Expr.coalesce_decides (hplain : registry.IsPlain) {a b : Expr} {n : Node}
    (h : (Expr.coalesce (some a) (some b)).LowersTo registry limit (depth + 1) n) :
    Expr.Decides registry limit depth a.isPresent a b n := by
  obtain ⟨_, _, ⟨⟩, ⟨⟩, hfit, na, nb, hna, hnb, rfl⟩ := lowersTo_coalesce.mp h
  obtain ⟨na', hna', htests⟩ := hna.lessDeep hplain
  have htest : a.isPresent.LowersTo registry limit depth (na'.inequality (.constant .null)) :=
    lowersTo_binary.mpr ⟨na', .constant .null, hna', rfl, rfl⟩
  refine ⟨hfit, _, na, nb, htest, hna, hnb, fun env scope => ?_⟩
  rw [Hql.Node.eval, inequality_null_eval, toOption_bind, toOption_bind, htests, bind_assoc]
  cases hvalue : (na.eval env scope).toOption with
  | none => rfl
  | some v => cases hnull : v.isNull <;> simp [Value.isTrue, hnull]

/-! ## The values of what stands in place -/

/-- The value is that of a branch of the source that is left out. -/
def Expr.ReadsLeftOut (registry : Registry) (limit depth : Nat) (own : List String) (e : Expr)
    (env : Environment) (scope : Scope) (value : Option Value) : Prop :=
  ∃ x n, .leftOut x ∈ e.parts own ∧ x.LowersTo registry limit depth n ∧
    (n.eval env scope).toOption = value

/-- The expression can be lowered and has the value that the subquery makes of
its source `e`, or else the value of `e`, which is then that of a branch that
is left out. -/
def Expr.StandsFor (registry : Registry) (limit depth : Nat) (own : List String) (query : Query)
    (e : Expr) (n : Node) (result : Expr) : Prop :=
  ∃ n', result.LowersTo registry limit depth n' ∧ ∀ env scope,
    (n'.eval env scope).toOption = ((n.eval env scope).toOption >>= query.madeOf env scope) ∨
      (n'.eval env scope).toOption = (n.eval env scope).toOption ∧
        e.ReadsLeftOut registry limit (depth + 1) own env scope (n.eval env scope).toOption

theorem QueryModel.LowersTo.withSource {reader : QueryModel} {query : Query} {e : Expr} {n : Node}
    (h : reader.LowersTo registry limit depth query) (he : e.LowersTo registry limit depth n) :
    (reader.withSource e).LowersTo registry limit depth { query with source := n } :=
  ⟨⟨e, rfl, he⟩, h.name, h.joins, h.filter, h.having, h.order, h.select, h.tail⟩

section

variable {reader : QueryModel} {query : Query} {source e : Expr}

/-- The step lemma: a decision between expressions that stand for their
branches. -/
theorem Expr.Decides.standsFor {own : List String} {test a b a' b' : Expr} {n : Node}
    (h : Expr.Decides registry limit depth test a b n) (hfit : a'.fitsBeside b' = true)
    (ha : ∀ na, a.LowersTo registry limit (depth + 1) na →
      Expr.StandsFor registry limit depth own query a na a')
    (hb : ∀ nb, b.LowersTo registry limit (depth + 1) nb →
      Expr.StandsFor registry limit depth own query b nb b')
    (hpartsLeft : ∀ part ∈ a.parts own, part ∈ e.parts own)
    (hpartsRight : ∀ part ∈ b.parts own, part ∈ e.parts own) :
    Expr.StandsFor registry limit depth own query e n
      (.conditional test (some a') (some b')) := by
  obtain ⟨nt, na, nb, hnt, hna, hnb, hvalue⟩ := h.nodes
  obtain ⟨na', hna', haValue⟩ := ha na hna
  obtain ⟨nb', hnb', hbValue⟩ := hb nb hnb
  refine ⟨_, lowersTo_conditional.mpr ⟨a', b', rfl, rfl, hfit, nt, na', nb', hnt, hna', hnb', rfl⟩,
    fun env scope => ?_⟩
  rw [Hql.Node.ifThenElse_eval, toOption_bind, hvalue]
  cases (nt.eval env scope).toOption with
  | none => exact .inl rfl
  | some v =>
      simp only [Option.bind_eq_bind, Option.bind_some]
      cases v.isTrue with
      | true =>
          rcases haValue env scope with hmade | ⟨hsame, x, nx, hx, hreads⟩
          · exact .inl hmade
          · exact .inr ⟨hsame, x, nx, hpartsLeft _ hx, hreads⟩
      | false =>
          rcases hbValue env scope with hmade | ⟨hsame, x, nx, hx, hreads⟩
          · exact .inl hmade
          · exact .inr ⟨hsame, x, nx, hpartsRight _ hx, hreads⟩

/-- What stands in place of a branch has the value that the subquery makes of
the branch, or that of a branch that is left out. The induction is on the
decisions that are taken apart. -/
theorem Expr.IsBranch.inPlace_standsFor (hplain : registry.IsPlain)
    (hquery : reader.LowersTo registry limit (depth + 1) query) (hdepth : depth < limit)
    {n : Node} (h : e.IsBranch reader.sourceNames)
    (he : e.LowersTo registry limit (depth + 1) n) :
    Expr.StandsFor registry limit depth reader.sourceNames query e n (e.inPlace reader) := by
  induction h generalizing n with
  | @whole e hsound hexpands =>
      cases hcollection : e.type.isCollection with
      | true =>
          have hlower : (reader.reading e).LowersTo registry limit depth
              (.ofQuery { query with source := n }) :=
            lowersTo_subquery.mpr ⟨hdepth, _, hquery.withSource he, rfl⟩
          rw [inPlace_of_collection hexpands hcollection]
          exact ⟨_, hlower, fun env scope => .inl (ofQuery_source_eval query n env scope)⟩
      | false =>
          have hpart : .leftOut e ∈ e.parts reader.sourceNames := by
            simp [parts_eq_whole hexpands, wholePart, hcollection]
          obtain ⟨n', hn', hvalue⟩ := he.lessDeep hplain
          rw [inPlace_of_not_collection hexpands hcollection]
          exact ⟨n', hn', fun env scope =>
            .inr ⟨hvalue env scope, e, n, hpart, he, rfl⟩⟩
  | @conditional test a b htest hexpands ha hb iha ihb =>
      have hdecides := conditional_decides hplain he
      obtain ⟨-, na, nb, -, hna, hnb, -⟩ := hdecides.nodes
      have hfit : (a.inPlace reader).fitsBeside (b.inPlace reader) = true :=
        fitsBeside_inPlace (Lowers.isSound ⟨na, hna⟩) (Lowers.isSound ⟨nb, hnb⟩)
          hdecides.fits
      rw [inPlace_conditional hexpands]
      refine hdecides.standsFor hfit (fun _ => iha) (fun _ => ihb) ?_ ?_
      · intro part hpart
        simp [parts_conditional hexpands, hpart]
      · intro part hpart
        simp [parts_conditional hexpands, hpart]
  | @coalesce a b hleft hexpands ha hb iha ihb =>
      have hdecides := coalesce_decides hplain he
      obtain ⟨-, na, nb, -, hna, hnb, -⟩ := hdecides.nodes
      have hfit : (a.inPlace reader).fitsBeside (b.inPlace reader) = true :=
        fitsBeside_inPlace (Lowers.isSound ⟨na, hna⟩) (Lowers.isSound ⟨nb, hnb⟩)
          hdecides.fits
      rw [inPlace_coalesce hexpands]
      refine hdecides.standsFor hfit (fun _ => iha) (fun _ => ihb) ?_ ?_
      · intro part hpart
        simp [parts_coalesce hexpands, hpart]
      · intro part hpart
        simp [parts_coalesce hexpands, hpart]

end

/-! ## What a subquery makes of nothing -/

/-- Of no items the subquery makes null, if anything. -/
def Hql.Query.IsNullOverNothing (q : Query) : Prop :=
  ∀ env scope v, q.presented env scope [] = .ok v → v = .null

/-- Of no items the subquery makes nothing. -/
def Hql.Query.FailsOverNothing (q : Query) : Prop :=
  ∀ env scope v, q.presented env scope [] ≠ .ok v

/-- The expression may be left out of the source of a subquery: it is the null
constant, of no items the subquery makes null, and where a call may be
distributed over the subquery, so that a null constant is looked at as such,
the subquery makes nothing at all and is known by its type. -/
structure QueryModel.MayLeaveOut (lax : Bool) (reader : QueryModel) (query : Query)
    (source e : Expr) : Prop where
  isLax : lax = true
  isNullConstant : e.isNullConstant = true
  isNull : query.IsNullOverNothing
  fails : reader.resultType.isRowOrCollection = true →
    query.FailsOverNothing ∧ source.type.isCollection = true

theorem Expr.isNullConstant_iff {e : Expr} : e.isNullConstant = true ↔ e = .constant .null := by
  constructor
  · intro h
    cases e with
    | constant value =>
        cases value with
        | null => rfl
        | _ => cases h
    | _ => cases h
  · intro h
    rw [h]
    rfl

/-! ## The source taken apart -/

section

variable {reader : QueryModel} {query : Query} {source e : Expr}

/-- Where only null constants are left out, the type of what stands in place
of a branch is that of the subquery, unless a null constant comes first. -/
theorem Expr.IsBranch.inPlace_type_eq (h : e.IsBranch reader.sourceNames)
    (hnull : ∀ x, .leftOut x ∈ e.parts reader.sourceNames → x.isNullConstant = true) :
    (e.inPlace reader).type =
      if e.type.isCollection then reader.resultType else .object := by
  induction h with
  | @whole e hsound hexpands =>
      cases hcollection : e.type.isCollection with
      | true =>
          rw [inPlace_of_collection hexpands hcollection, QueryModel.reading_type]
          rfl
      | false =>
          have hpart := hnull e (by simp [parts_eq_whole hexpands, wholePart, hcollection])
          rw [inPlace_of_not_collection hexpands hcollection, isNullConstant_iff.mp hpart]
          rfl
  | @conditional test a b htest hexpands _ _ iha ihb =>
      rw [inPlace_conditional hexpands, type, type]
      exact iha fun x hx => hnull x (by simp [parts_conditional hexpands, hx])
  | @coalesce a b hleft hexpands _ _ iha ihb =>
      rw [inPlace_coalesce hexpands, type, type, StaticType.isCollection_nonNull]
      exact iha fun x hx => hnull x (by simp [parts_coalesce hexpands, hx])

/-- A branch that is no collection has a part that is left out. -/
theorem Expr.IsBranch.exists_leftOut {own : List String} (h : e.IsBranch own)
    (hcollection : e.type.isCollection = false) : ∃ x, .leftOut x ∈ e.parts own := by
  induction h with
  | @whole e hsound hexpands =>
      exact ⟨e, by simp [parts_eq_whole hexpands, wholePart, hcollection]⟩
  | @conditional test a b htest hexpands _ _ iha ihb =>
      rw [type] at hcollection
      obtain ⟨x, hx⟩ := iha hcollection
      exact ⟨x, by simp [parts_conditional hexpands, hx]⟩
  | @coalesce a b hleft hexpands _ _ iha ihb =>
      rw [type, StaticType.isCollection_nonNull] at hcollection
      obtain ⟨x, hx⟩ := iha hcollection
      exact ⟨x, by simp [parts_coalesce hexpands, hx]⟩

/-- Where only what may be left out is, what stands in place of a branch keeps
the value that the subquery makes of the branch. -/
theorem Expr.StandsFor.preserved {own : List String} {n n' : Node} {result : Expr}
    (h : Expr.StandsFor registry limit depth own query e n result)
    (hn' : result.LowersTo registry limit depth n')
    (hleft : ∀ x, .leftOut x ∈ e.parts own → reader.MayLeaveOut lax query source x)
    (env : Environment) (scope : Scope) :
    Preserved lax ((n.eval env scope).toOption >>= query.madeOf env scope)
      (n'.eval env scope).toOption := by
  obtain ⟨_, hresult, hvalue⟩ := h
  obtain rfl := hn'.unique hresult
  rcases hvalue env scope with hmade | ⟨hsame, x, nx, hx, hnx, hreads⟩
  · exact .of_eq hmade.symm
  · have hmay := hleft x hx
    obtain rfl := isNullConstant_iff.mp hmay.isNullConstant
    obtain rfl : .constant .null = nx := Except.ok.inj hnx
    rw [hsame, ← hreads, Hql.Node.null_eval]
    show Preserved lax (query.presented env scope []).toOption (some .null)
    cases hnothing : query.presented env scope [] with
    | error err => exact .inr ⟨hmay.isLax, rfl⟩
    | ok v =>
        rw [hmay.isNull env scope v hnothing]
        exact .refl _

/-- What is seen of the expression, in a call that is distributed over it, keeps
the value that the subquery makes of its source. -/
def Expr.SelectsFor (registry : Registry) (limit : Nat) (lax : Bool) (depth : Nat)
    (query : Query) (n : Node) (result : Expr) : Prop :=
  ∀ env scope, Preserved lax
    (((n.eval env scope).toOption >>= query.madeOf env scope).map fun v => ⟨none, v⟩)
    (result.selected? registry limit depth env scope)

/-- The step lemma for what is seen: a decision is looked into only if it can
be taken apart; otherwise its value is seen. -/
theorem Expr.Decides.selectsFor {own : List String} {test a b a' b' : Expr} {n : Node}
    (h : Expr.Decides registry limit depth test a b n)
    (hstands : Expr.StandsFor registry limit depth own query e n
      (.conditional test (some a') (some b')))
    (hleft : ∀ x, .leftOut x ∈ e.parts own → reader.MayLeaveOut lax query source x)
    (ha : ∀ na, a.LowersTo registry limit (depth + 1) na →
      Expr.SelectsFor registry limit lax depth query na a')
    (hb : ∀ nb, b.LowersTo registry limit (depth + 1) nb →
      Expr.SelectsFor registry limit lax depth query nb b') :
    Expr.SelectsFor registry limit lax depth query n
      (.conditional test (some a') (some b')) := by
  intro env scope
  by_cases hexpandable : (Expr.conditional test (some a') (some b')).isExpandable = true
  · obtain ⟨nt, na, nb, hnt, hna, hnb, hvalue⟩ := h.nodes
    rw [selected?_conditional hexpandable, hnt.value?_eq, hvalue]
    cases (nt.eval env scope).toOption with
    | none => exact .refl _
    | some v =>
        simp only [Option.bind_eq_bind, Option.bind_some]
        cases v.isTrue with
        | true => exact ha na hna env scope
        | false => exact hb nb hnb env scope
  · obtain ⟨n', hn', -⟩ := id hstands
    have hconstant : n'.constant? = none := by
      obtain ⟨_, _, _, _, _, _, _, _, _, _, _, rfl⟩ := lowersTo_conditional.mp hn'
      rfl
    rw [selected?_of_not_isExpandable (Bool.eq_false_iff.mpr hexpandable), hn'.seen?_eq,
      Hql.Node.seen?, hconstant]
    exact (hstands.preserved hn' hleft env scope).map _

/-- A call may be distributed over what stands in place of a branch. The
induction is on the decisions that are taken apart. -/
theorem Expr.IsBranch.inPlace_selectsFor (hplain : registry.IsPlain)
    (hquery : reader.LowersTo registry limit (depth + 1) query) (hdepth : depth < limit)
    (hwhole : reader.resultType.isRowOrCollection = true) {n : Node}
    (h : e.IsBranch reader.sourceNames) (he : e.LowersTo registry limit (depth + 1) n)
    (hleft : ∀ x, .leftOut x ∈ e.parts reader.sourceNames →
      reader.MayLeaveOut lax query source x) :
    Expr.SelectsFor registry limit lax depth query n (e.inPlace reader) := by
  induction h generalizing n with
  | @whole e hsound hexpands =>
      intro env scope
      cases hcollection : e.type.isCollection with
      | true =>
          have hlower : (reader.reading e).LowersTo registry limit depth
              (.ofQuery { query with source := n }) :=
            lowersTo_subquery.mpr ⟨hdepth, _, hquery.withSource he, rfl⟩
          rw [inPlace_of_collection hexpands hcollection, selected?_of_not_isExpandable rfl,
            hlower.seen?_eq, Hql.Node.seen?, ofQuery_source_eval, Hql.Node.ofQuery_constant?]
          exact .refl _
      | false =>
          have hmay := hleft e (by simp [parts_eq_whole hexpands, wholePart, hcollection])
          obtain rfl := isNullConstant_iff.mp hmay.isNullConstant
          obtain rfl : .constant .null = n := Except.ok.inj he
          refine .inr ⟨hmay.isLax, ?_⟩
          rw [Hql.Node.null_eval]
          show Option.map _ (query.presented env scope []).toOption = none
          cases hnothing : query.presented env scope [] with
          | error err => rfl
          | ok v => exact absurd hnothing ((hmay.fails hwhole).1 env scope v)
  | @conditional test a b htest hexpands ha hb iha ihb =>
      have hstands := (IsBranch.conditional htest hexpands ha hb).inPlace_standsFor hplain
        hquery hdepth he
      rw [inPlace_conditional hexpands] at hstands ⊢
      refine (conditional_decides hplain he).selectsFor hstands hleft ?_ ?_
      · intro na hna
        exact iha hna fun x hx => hleft x (by simp [parts_conditional hexpands, hx])
      · intro nb hnb
        exact ihb hnb fun x hx => hleft x (by simp [parts_conditional hexpands, hx])
  | @coalesce a b hleftSound hexpands ha hb iha ihb =>
      have hstands := (IsBranch.coalesce hleftSound hexpands ha hb).inPlace_standsFor hplain
        hquery hdepth he
      rw [inPlace_coalesce hexpands] at hstands ⊢
      refine (coalesce_decides hplain he).selectsFor hstands hleft ?_ ?_
      · intro na hna
        exact iha hna fun x hx => hleft x (by simp [parts_coalesce hexpands, hx])
      · intro nb hnb
        exact ihb hnb fun x hx => hleft x (by simp [parts_coalesce hexpands, hx])

/-- What stands in place of a subquery whose source is taken apart follows the
subquery. -/
theorem subquery_follows_inPlace (hplain : registry.IsPlain)
    (hquery : reader.LowersTo registry limit (depth + 1) query) (hdepth : depth < limit)
    (hsource : reader.source = some source)
    (hexpands : source.expands reader.sourceNames = true)
    (hleft : ∀ x, .leftOut x ∈ source.parts reader.sourceNames →
      reader.MayLeaveOut lax query source x) :
    (Expr.subquery reader).Follows registry limit lax depth depth (source.inPlace reader) := by
  obtain ⟨_, hsome, hlowerSource⟩ := hquery.source
  obtain rfl := Option.some.inj (hsource.symm.trans hsome)
  have hlowers : source.Lowers registry limit (depth + 1) := ⟨_, hlowerSource⟩
  have hsound := hlowers.isSound
  have hbranch := Expr.isBranch reader.sourceNames hsound
  have htype := hbranch.inPlace_type_eq fun x hx => (hleft x hx).isNullConstant
  have hloosens : reader.resultType.Loosens lax (source.inPlace reader).type := by
    rw [htype]
    cases hcollection : source.type.isCollection with
    | true => exact .refl _
    | false =>
        obtain ⟨x, hx⟩ := hbranch.exists_leftOut hcollection
        have hmay := hleft x hx
        refine .object hmay.isLax (Bool.eq_false_iff.mpr fun hwhole => ?_)
        rw [(hmay.fails hwhole).2] at hcollection
        cases hcollection
  have hstands := hbranch.inPlace_standsFor hplain hquery hdepth hlowerSource
  obtain ⟨n, hn, -⟩ := id hstands
  have hold : (Expr.subquery reader).LowersTo registry limit depth (.ofQuery query) :=
    Expr.lowersTo_subquery.mpr ⟨hdepth, query, hquery, rfl⟩
  have hconstant : n.constant? = none := by
    cases source with
    | conditional test whenTrue whenFalse =>
        obtain ⟨-, a, b, rfl, rfl, -⟩ := Expr.isSound_conditional.mp hsound
        rw [Expr.inPlace_conditional hexpands] at hn
        obtain ⟨_, _, _, _, _, _, _, _, _, _, _, rfl⟩ := Expr.lowersTo_conditional.mp hn
        rfl
    | coalesce left right =>
        obtain ⟨a, b, rfl, rfl, -⟩ := Expr.isSound_coalesce.mp hsound
        rw [Expr.inPlace_coalesce hexpands] at hn
        obtain ⟨_, _, _, _, _, _, _, _, _, _, _, rfl⟩ := Expr.lowersTo_conditional.mp hn
        rfl
    | _ => cases hexpands
  have hnodes : (Node.ofQuery query).Follows lax n := by
    refine ⟨(Hql.Node.ofQuery_constant? query).trans hconstant.symm, fun env scope => ?_⟩
    unfold Keeps
    rw [ofQuery_eval_eq_madeOf]
    exact hstands.preserved hn hleft env scope
  refine ⟨?_, hloosens, ⟨_, n, hold, hn, hnodes⟩, fun env scope => ?_⟩
  · rw [Expr.inPlace_isNullConstant hsound]
    cases source with
    | constant => cases hexpands
    | _ => rfl
  · rw [Expr.selected?_of_not_isExpandable rfl, hold.seen?_eq]
    by_cases hwhole : reader.resultType.isRowOrCollection = true
    · rw [Hql.Node.seen?, Hql.Node.ofQuery_constant?, ofQuery_eval_eq_madeOf]
      exact hbranch.inPlace_selectsFor hplain hquery hdepth hwhole hlowerSource hleft env scope
    · -- no call is distributed over what stands in place of a scalar
      have hexpandable : (source.inPlace reader).isExpandable = false := by
        unfold Expr.isExpandable
        rw [hloosens.isRowOrCollection_eq]
        rw [Bool.eq_false_iff.mpr hwhole, Bool.and_false]
      rw [Expr.selected?_of_not_isExpandable hexpandable, hn.seen?_eq]
      exact hnodes.seen? env scope

end

end ObjectQuery
