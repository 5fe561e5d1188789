import ObjectQuery.Proofs.Success

/-!
# Two runs side by side

Two runs of the same computation may be given different things: another
limit, another registry. `Traced.Comparison` says in what they may differ
all the same: the first run may give up with certain errors where the second
one goes on. Until then both do the same, with the same events, and end in
the same way. The events of the first run can be watched on the way, and
those that are seen before it gives up are watched too.

The relation is kept by every way of building a computation, so two runs of
a recursion agree once they agree in each of its steps.

## Main definitions

* `Traced.Comparison.Agree` — the first run gives up, or the second is the
  same.

## Main results

* `Traced.Comparison.Agree.bind`, `Traced.Comparison.Agree.mapM` — runs that
  agree step by step agree.
* `Traced.Comparison.agree_strict_iff` — where nothing is given up, runs that
  agree are equal.
-/

namespace ObjectQuery.Traced

/-- What two runs are compared by. -/
structure Comparison (ω ε : Type) where
  /-- The errors with which the first run may give up. -/
  GivesUp : ε → Prop
  /-- The events that the first run may see. -/
  Expects : ω → Prop

namespace Comparison

variable {ω ε α β γ δ : Type}

/-- The first run gives up, or the second is the same. Either way the first
one sees expected events only. -/
structure Agree (c : Comparison ω ε) (x y : Traced ω ε α) : Prop where
  givesUp_or_eq : (∃ e, x.outcome = .error e ∧ c.GivesUp e) ∨ y = x
  expects : ∀ event ∈ x.events, c.Expects event

/-- The comparison by which runs agree only if they are equal. -/
def strict : Comparison ω ε := ⟨fun _ => False, fun _ => True⟩

variable {c : Comparison ω ε} {x y : Traced ω ε α}

theorem agree_strict_iff : strict.Agree x y ↔ y = x := by
  constructor
  · intro h
    obtain ⟨_, -, hnever⟩ | heq := h.givesUp_or_eq
    · exact hnever.elim
    · exact heq
  · intro h
    exact ⟨.inr h, fun _ _ => trivial⟩

namespace Agree

theorem refl (h : ∀ event ∈ x.events, c.Expects event) : c.Agree x x := ⟨.inr rfl, h⟩

theorem pure (a : α) : c.Agree (Pure.pure a) (Pure.pure a) :=
  refl fun _ hmem => absurd hmem List.not_mem_nil

theorem ofExcept (outcome : Except ε α) :
    c.Agree (Traced.ofExcept outcome) (Traced.ofExcept outcome) :=
  refl fun _ hmem => absurd hmem List.not_mem_nil

theorem throw (e : ε) :
    c.Agree (MonadExcept.throw e : Traced ω ε α) (MonadExcept.throw e) :=
  refl fun _ hmem => absurd hmem List.not_mem_nil

theorem emit {event : ω} (h : c.Expects event) : c.Agree (.emit event) (.emit event) :=
  refl fun _ hmem => List.mem_singleton.mp hmem ▸ h

/-- A run that gives up at once agrees with any other. -/
theorem givesUp {e : ε} (h : c.GivesUp e) (y : Traced ω ε α) :
    c.Agree (MonadExcept.throw e) y :=
  ⟨.inl ⟨e, rfl, h⟩, fun _ hmem => absurd hmem List.not_mem_nil⟩

/-- Where the first run has a result, the second run is the same. -/
theorem eq_of_ok (h : c.Agree x y) {a : α} (ha : x.outcome = .ok a) : y = x := by
  obtain ⟨e, he, -⟩ | heq := h.givesUp_or_eq
  · rw [ha] at he
    cases he
  · exact heq

/-- Where the first run fails without giving up, the second run is the same. -/
theorem eq_of_error (h : c.Agree x y) {e : ε} (he : x.outcome = .error e)
    (hkept : ¬c.GivesUp e) : y = x := by
  obtain ⟨e', he', hgives⟩ | heq := h.givesUp_or_eq
  · rw [he] at he'
    obtain rfl := Except.error.inj he'
    exact absurd hgives hkept
  · exact heq

/-- Other names for events and errors do not matter as far as the comparison does not
tell them apart. -/
theorem relabel {ω' ε' : Type} {c' : Comparison ω' ε'} {event : ω → ω'} {error : ε → ε'}
    (h : c.Agree x y) (hgives : ∀ e, c.GivesUp e → c'.GivesUp (error e))
    (hexpects : ∀ e, c.Expects e → c'.Expects (event e)) :
    c'.Agree (x.relabel event error) (y.relabel event error) := by
  constructor
  · obtain ⟨e, he, hgivesUp⟩ | rfl := h.givesUp_or_eq
    · refine .inl ⟨error e, ?_, hgives e hgivesUp⟩
      rw [outcome_relabel, he]
      rfl
    · exact .inr rfl
  · intro e' he'
    obtain ⟨e, he, rfl⟩ := List.mem_map.mp he'
    exact hexpects e (h.expects e he)

/-- Runs that agree go on in agreement if what follows agrees. -/
theorem bind {f g : α → Traced ω ε β} (h : c.Agree x y)
    (hfg : ∀ a, x.outcome = .ok a → c.Agree (f a) (g a)) : c.Agree (x >>= f) (y >>= g) := by
  obtain ⟨events, outcome⟩ := x
  cases outcome with
  | error e =>
      refine ⟨?_, h.expects⟩
      obtain ⟨e', he', hgives⟩ | rfl := h.givesUp_or_eq
      · exact .inl ⟨e', congrArg _ (Except.error.inj he'), hgives⟩
      · exact .inr rfl
  | ok a =>
      have hnext := hfg a rfl
      obtain ⟨e, he, -⟩ | rfl := h.givesUp_or_eq
      · cases he
      · refine ⟨?_, fun event hmem => ?_⟩
        · obtain hgives | heq := hnext.givesUp_or_eq
          · exact .inl hgives
          · refine .inr ?_
            show andThen _ g = andThen _ f
            simp only [andThen, heq]
        · rcases List.mem_append.mp hmem with hmem | hmem
          · exact h.expects event hmem
          · exact hnext.expects event hmem

/-- Runs over two lists agree if they agree on the elements. -/
theorem mapM {f : γ → Traced ω ε α} {g : δ → Traced ω ε α} {cs : List γ} {ds : List δ}
    (h : List.Forall₂ (fun a b => c.Agree (f a) (g b)) cs ds) :
    c.Agree (cs.mapM f) (ds.mapM g) := by
  induction h with
  | nil =>
      rw [List.mapM_nil, List.mapM_nil]
      exact pure []
  | cons hhead _ ih =>
      rw [List.mapM_cons, List.mapM_cons]
      exact hhead.bind fun a _ => ih.bind fun rest _ => pure (a :: rest)

end Agree

end Comparison

end ObjectQuery.Traced
